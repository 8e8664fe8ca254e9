import LinuxIpc.TcpChat.Departure

namespace LinuxIpc.TcpChat
set_option autoImplicit true

theorem St.bcast_core {s t : St} (h : s.bcast me ok b = some (t, b')) : t.toCore = s.toCore := by
  unfold St.bcast at h
  cases hpc : b.pc with
  | lock =>
    simp only [hpc, Option.ite_none_right_eq_some, Option.some.injEq, Prod.mk.injEq] at h
    exact h.2.1 ▸ rfl
  | _ =>
    simp only [hpc, Option.some.injEq, Prod.mk.injEq] at h
    exact h.1 ▸ rfl

theorem Inv.main (h : Inv s.toCore) (hg : Orderly s (.main ok)) (ht : s.stepMain ok = some t) :
    Inv t.toCore := by
  obtain ⟨top, h⟩ := h
  unfold St.stepMain at ht
  unfold Orderly Main.Orderly at hg
  cases hm : s.main with
  | accept => simp only [hm, reduceCtorEq] at ht
  | recvName cfd => simp only [hm, reduceCtorEq] at ht
  | setCfd cfd =>
    simp only [hm, Option.some.injEq] at ht
    simp only [hm] at hg
    have hpc : ∀ k, (s.handler k).pc.uncounting = false ∧
        (s.handler k).pc.unread ≠ some s.tbl.cnt := by
      intro k
      by_cases hk : k < s.created
      · exact hg k hk
      · rw [h.absent k (Nat.le_of_not_lt hk)]
        exact ⟨rfl, nofun⟩
    exact ht ▸ ⟨top, h.setCfd hm (fun k => (hpc k).1) fun k => (hpc k).2⟩
  | notice cfd =>
    simp only [hm, Option.some.injEq] at ht
    exact ht ▸ ⟨top, h.setMain' (by rw [hm]; rfl) (by rw [hm]; rfl) (by rw [hm]; rfl)⟩
  | call cfd buf =>
    simp only [hm, Option.some.injEq] at ht
    exact ht ▸ ⟨top, h.setMain' (by rw [hm]; rfl) (by rw [hm]; rfl) (by rw [hm]; rfl)⟩
  | bcast cfd b =>
    simp only [hm, Option.map_eq_some_iff, Prod.exists] at ht
    obtain ⟨u, b', hb, rfl⟩ := ht
    have hu := St.bcast_core hb
    rw [← hu] at h hm
    refine ⟨top, h.setMain' ?_ ?_ ?_⟩ <;> (rw [hm]; cases b' <;> rfl)
  | create cfd =>
    simp only [hm] at ht
    cases ok with
    | true => exact Option.some.inj ht ▸ ⟨top + 1, h.create hm⟩
    | false => exact Option.some.inj ht ▸ ⟨top + 1, (h.enter hm).2⟩
  | count cfd =>
    simp only [hm, Option.some.injEq] at ht
    exact ht ▸ ⟨top, h.count hm⟩

/-- A scan for a handler's own entry does not run off the end. -/
theorem InvAt.test_lt (h : InvAt s top) (hpc : (s.handler k).pc = .test cl i)
    (hg : i < s.tbl.cnt ∨ s.main.counting ≠ some cl.cfd) : i < s.tbl.cnt := by
  rcases hg with hg | hg
  · exact hg
  apply Nat.lt_of_not_le
  intro hle
  have hok := h.handler k
  rw [HandlerOk, hpc] at hok
  obtain ⟨hcl, p, hip, hp, hfd⟩ := hok
  have hunc : ∀ j, (s.handler j).pc.uncounting = false := by
    intro j
    rw [Bool.eq_false_iff]
    intro hj
    have := h.uncounting j hj
    omega
  cases hc : s.main.counting with
  | none =>
    have := h.settled hc hunc
    omega
  | some f =>
    have htop := h.counting (by rw [hc]; rfl)
    have hf := h.filled f (Main.filled_of_counting hc)
    have hpt : p = s.tbl.cnt := by omega
    rw [hc, hcl, ← hfd, hpt, hf] at hg
    exact hg rfl

theorem Inv.handler (h : Inv s.toCore) (hg : Orderly s (.handler k ok))
    (ht : s.stepHandler k ok = some t) : Inv t.toCore := by
  obtain ⟨top, h⟩ := h
  have hok := h.handler k
  unfold HandlerOk at hok
  unfold Orderly Handler.Pc.Orderly at hg
  unfold St.stepHandler at ht
  cases hpc : (s.handler k).pc with
  | absent => simp only [hpc, reduceCtorEq] at ht
  | recv cl => simp only [hpc, reduceCtorEq] at ht
  | done => simp only [hpc, reduceCtorEq] at ht
  | start slot =>
    simp only [hpc, Option.some.injEq] at ht hok
    exact ht ▸ ⟨top, h.setPc hpc rfl rfl rfl (fun _ => rfl) hok⟩
  | relay cl b =>
    simp only [hpc, Option.map_eq_some_iff, Prod.exists] at ht hok
    obtain ⟨u, b', hb, rfl⟩ := ht
    have hu := St.bcast_core hb
    rw [← hu] at h hok hpc
    cases b' with
    | none => exact ⟨top, h.setPc hpc rfl rfl rfl (fun _ => rfl) hok⟩
    | some b' => exact ⟨top, h.setPc hpc rfl rfl rfl (fun _ => rfl) hok⟩
  | test cl i =>
    simp only [hpc, Option.some.injEq] at ht hok hg
    rw [if_pos (h.test_lt hpc hg)] at ht
    exact ht ▸ ⟨top, h.setPc hpc rfl rfl rfl (fun _ => rfl) hok⟩
  | cmp cl i =>
    simp only [hpc, Option.some.injEq] at ht hok
    by_cases hfd : (s.tbl.client i).cfd = cl.cfd
    · rw [if_pos hfd] at ht
      obtain ⟨hcl, p, hip, hp, _⟩ := hok
      have hmove : i < top ∧ s.tbl.fd i = (s.handler k).conn :=
        ⟨Nat.lt_of_le_of_lt hip hp, hfd.trans hcl⟩
      exact ht ▸ ⟨top, h.setPc hpc rfl rfl rfl (fun _ => rfl) ⟨hcl, hmove⟩⟩
    · rw [if_neg hfd] at ht
      have hnext := hok.2.skip fun he => hfd (he.trans hok.1.symm)
      exact ht ▸ ⟨top, h.setPc hpc rfl rfl rfl (fun _ => rfl) ⟨hok.1, hnext⟩⟩
  | move cl i =>
    simp only [hpc, Option.some.injEq] at ht hg
    have hm : ∀ j, j ≠ k →
        ¬ (s.handler j).pc.Misses (s.tbl.client (pred64 s.tbl.cnt)).cfd i := by
      intro j hj
      by_cases hc : j < s.created
      · exact hg.2 j hc hj
      · rw [h.absent j (Nat.le_of_not_lt hc)]
        exact id
    exact ht ▸ ⟨top - 1, h.move hpc hg.1 hm⟩
  | uncount cl =>
    simp only [hpc, Option.some.injEq] at ht
    exact ht ▸ ⟨top, h.uncount hpc⟩
  | bye cl b =>
    simp only [hpc, Option.map_eq_some_iff, Prod.exists] at ht hok
    obtain ⟨u, b', hb, rfl⟩ := ht
    have hu := St.bcast_core hb
    rw [← hu] at h hok hpc
    cases b' with
    | none => exact ⟨top, h.setPc hpc rfl rfl rfl (fun _ => rfl) hok⟩
    | some b' => exact ⟨top, h.setPc hpc rfl rfl rfl (fun _ => rfl) hok⟩
  | close cl =>
    simp only [hpc, Option.some.injEq] at ht
    exact ht ▸ ⟨top, h.close hpc⟩

theorem Inv.step (h : Inv s.toCore) (hg : Orderly s a) (ht : TcpChat.step s a = some t) :
    Inv t.toCore := by
  cases a with
  | accept cfd =>
    obtain ⟨top, h⟩ := h
    cases hm : s.main with
    | accept =>
      simp only [TcpChat.step, hm, Option.ite_none_right_eq_some, Option.some.injEq] at ht
      obtain ⟨⟨hn, hb⟩, rfl⟩ := ht
      exact ⟨top, h.accept hm hn hb⟩
    | _ => simp only [TcpChat.step, hm, reduceCtorEq] at ht
  | recvName d =>
    obtain ⟨top, h⟩ := h
    cases hm : s.main with
    | recvName cfd =>
      simp only [TcpChat.step, hm, Option.some.injEq] at ht
      exact ht ▸ ⟨top, h.recvName hm⟩
    | _ => simp only [TcpChat.step, hm, reduceCtorEq] at ht
  | main ok => exact h.main hg ht
  | recv k d =>
    obtain ⟨top, h⟩ := h
    have hok := h.handler k
    unfold HandlerOk at hok
    cases hpc : (s.handler k).pc with
    | recv cl =>
      simp only [TcpChat.step, hpc, Option.some.injEq] at ht hok
      by_cases hd : d = []
      · rw [if_pos hd] at ht
        exact ht ▸ ⟨top, h.setPc hpc rfl rfl rfl (fun _ => rfl) hok⟩
      · rw [if_neg hd] at ht
        exact ht ▸ ⟨top, h.setPc hpc rfl rfl rfl (fun _ => rfl) hok⟩
    | _ => simp only [TcpChat.step, hpc, reduceCtorEq] at ht
  | handler k ok => exact h.handler hg ht
  | memory b => exact Option.some.inj ht ▸ h

/-- The whole departure of the first client falls between the `client[cnt].cfd = cfd` and the
`cnt++` of `main` for the second one. -/
def overlapping : List Act :=
  [Act.accept 4, .recvName [65]] ++ List.replicate 8 (Act.main true) ++
  [Act.handler 0 true, .accept 5, .recvName [66], .main true, .recv 0 []] ++
  List.replicate 8 (Act.handler 0 true) ++ List.replicate 7 (Act.main true)

/-- The mutex of `broadcast` does not order the writers of the table: the second connection is
left out of it. -/
theorem table_not_exact :
    ∃ as t, sys.run as start = some t ∧ Quiet t.toCore ∧ ¬ Exact t.toCore := by
  have hr : ((sys.run overlapping start).map fun t =>
      (decide (Quiet t.toCore), t.tbl.fds, t.live)) = some (true, [4], [5]) := by decide +kernel
  obtain ⟨t, ht, he⟩ := Option.map_eq_some_iff.1 hr
  simp only [Prod.mk.injEq, decide_eq_true_eq] at he
  obtain ⟨hq, hfds, hlive⟩ := he
  refine ⟨overlapping, t, ht, hq, fun h => ?_⟩
  have h5 := (h.2 5).2 (hlive ▸ List.mem_singleton_self 5)
  rw [hfds] at h5
  exact absurd h5 (by decide)

/-- In every orderly run the table is exact whenever nothing is half done. -/
theorem table_exact (h : sys.ReachableIf Orderly s) (hq : Quiet s.toCore) : Exact s.toCore := by
  have hinv : Inv s.toCore := by
    apply h.invariant (I := fun s => Inv s.toCore)
    · rintro s rfl
      exact ⟨0, InvAt.start⟩
    · intro s a t hs hg ht
      exact hs.step hg ht
  exact hinv.exact hq

/-- Two clients come, and the first one leaves. -/
def comeAndLeave : List Act :=
  [Act.accept 4, .recvName [65]] ++ List.replicate 8 (Act.main true) ++
  [Act.handler 0 true, .accept 5, .recvName [66]] ++ List.replicate 11 (Act.main true) ++
  [Act.recv 0 []] ++ List.replicate 11 (Act.handler 0 true)

theorem table_exact_leave : ∃ s, sys.runIf Orderly comeAndLeave start = some s ∧
    s.live = [5] ∧ Exact s.toCore := by
  have hr : ((sys.runIf Orderly comeAndLeave start).map fun s =>
    (s.live, decide (Quiet s.toCore))) = some ([5], true) := by
    decide +kernel
  obtain ⟨s, hs, he⟩ := Option.map_eq_some_iff.1 hr
  obtain ⟨hl, hq⟩ := Prod.mk.inj he
  exact ⟨s, hs, hl, table_exact (.runIf (.init rfl) hs) (of_decide_eq_true hq)⟩

end LinuxIpc.TcpChat
