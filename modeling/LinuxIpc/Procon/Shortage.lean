import LinuxIpc.Procon.Served

namespace LinuxIpc.Procon.Sequential
set_option autoImplicit true

open ProdCons (rounds)

/-- A thread that is counted has put five numbers on the stack or taken five from it. -/
theorem Kept.count_le {s : St} (h : Kept addr s) : s.count .consumer ≤ s.count .producer := by
  have hle {deeds : List Deed} {stock : List Nat} (hs : serve deeds = some stock)
      (hids : ∀ k, ids k deeds = (List.range (s.count k)).map (s.tid k)) :
      s.count .consumer ≤ s.count .producer := by
    have hlen := serve_length hs
    rw [hids, hids, List.length_map, List.length_map, List.length_range, List.length_range] at hlen
    simp only [rounds] at hlen
    omega
  cases hth : s.thread with
  | none => exact hle (h.idle hth).2.stock (h.idle hth).2.ids
  | some w =>
    have hok := (h.worker w hth).2
    unfold WorkerOk at hok
    split at hok
    · obtain ⟨base, hok⟩ := hok
      exact hle hok.stock hok.ids
    · exact hle hok.stock hok.ids

theorem due_pos {s : St} (h : 0 < s.due k) : s.main = .spawn k ∨ s.main = .join k := by
  unfold St.due at h
  split at h
  · rename_i j hm
    by_cases hj : j = k
    · exact .inl (hj ▸ hm)
    · rw [if_neg hj] at h
      cases h
  · rename_i j _ _ _ _ hm _
    by_cases hj : j = k
    · exact .inr (hj ▸ hm)
    · rw [if_neg hj] at h
      cases h
  · cases h

/-- A consumer finds five numbers exactly where no more consumers than producers have been asked
for. -/
theorem Kept.stocked_iff {s : St} (h : Kept addr s) (hth : s.thread = some w)
    (hb : w.body = some b) (hok : Working s w b base) (hk : w.kind = .consumer) :
    rounds ≤ base.length ↔ s.asked .consumer ≤ s.asked .producer := by
  have hdue := due_working (h.worker w hth).1 hth hb
  have hids : ∀ k, (ids k s.deeds).length = s.count k := by
    intro k
    rw [hok.ids, List.length_map, List.length_range]
  have hlen := serve_length hok.stock
  rw [hids, hids] at hlen
  rw [h.asked, h.asked, hdue, hdue, hk, if_pos rfl, if_neg (by decide)]
  simp only [rounds] at hlen ⊢
  omega

theorem Matches.length (h : Matches base nums head b) (hk : b.kind = .consumer) :
    base.length = head.length + b.pops := by
  cases b with
  | producer p => cases hk
  | consumer c =>
    obtain ⟨rfl, hlen⟩ := h
    rw [List.length_append, List.length_append, hlen]
    exact Nat.add_comm _ _

/-- A thread waits only where more consumers than producers have been asked for. -/
def Awake (s : St) : Prop := ∀ w b, s.thread = some w → w.body = some b → b.waiting = true →
  s.asked .producer < s.asked .consumer

/-- A section brings a thread that does not run short nearer to its end. -/
theorem Kept.section_rank {s : St} (h : Kept addr s) (hth : s.thread = some w)
    (hb : w.body = some b) (hstep : b.step r s.head = some (b', head))
    (hle : s.asked .consumer ≤ s.asked .producer) :
    b'.rank < b.rank ∧ b'.waiting = false := by
  obtain ⟨-, base, hok⟩ := h.working hth hb
  apply Body.step_rank hstep hok.rounds
  intro hk
  rw [← hok.nums.length hk]
  exact (h.stocked_iff hth hb hok (hok.kind ▸ hk)).2 hle

theorem Awake.step {s : St} (ha : Awake s) (h : Kept addr s)
    (ht : Sequential.step addr s a = some t) : Awake t := by
  intro w b hw hb hwait
  cases move_of_step ht with
  | read hm =>
    have hth := h.idle_thread (by rw [hm]; nofun)
    cases hth.symm.trans hw
  | @spawn k self hm =>
    obtain rfl := Option.some.inj hw
    obtain rfl := Option.some.inj hb
    cases k <;> cases hwait
  | join hm hth => cases hw
  | reply hm => exact ha w b hw hb hwait
  | killed hm => exact ha w b hw hb hwait
  | finish hth hb₀ he =>
    obtain rfl := Option.some.inj hw
    cases hb
  | print hth hb₀ hstep =>
    obtain rfl := Option.some.inj hw
    obtain rfl := Option.some.inj hb
    by_contra hle
    rw [(h.section_rank hth hb₀ hstep (Nat.le_of_not_lt hle)).2] at hwait
    cases hwait
  | quiet hth hb₀ hstep =>
    obtain rfl := Option.some.inj hw
    obtain rfl := Option.some.inj hb
    by_contra hle
    rw [(h.section_rank hth hb₀ hstep (Nat.le_of_not_lt hle)).2] at hwait
    cases hwait
  | spurious hth hb₀ hspur => exact ha _ _ hth hb₀ (Body.spurious_stock hspur).1

/-- What the thread has still to do, and the `join`. -/
def Worker.rank (w : Worker) : Nat :=
  match w.body with
  | some b => b.rank + 2
  | none => 1

def St.rank (s : St) : Nat :=
  match s.main with
  | .spawn _ => 13
  | .reply _ _ => 1
  | _ => s.thread.elim 0 Worker.rank

theorem rank_join {s : St} (hm : s.main = .join k) (hth : s.thread = some w) :
    s.rank = w.rank := by
  rw [St.rank, hm, hth]
  rfl

theorem Kept.rank_step {s : St} (h : Kept addr s) (ha : Awake s)
    (hle : s.asked .consumer ≤ s.asked .producer) (hm : s.main ≠ .read)
    (ht : Sequential.step addr s a = some t) : t.rank < s.rank := by
  cases move_of_step ht with
  | read hread => exact (hm hread).elim
  | @spawn k self hk =>
    rw [St.rank, St.rank, hk]
    cases k <;> exact Nat.lt_succ_self 12
  | join hk hth =>
    rw [rank_join hk hth]
    exact Nat.one_pos
  | @reply c exit ok hk =>
    have hth := h.idle_thread (by rw [hk]; nofun)
    rw [St.rank, St.rank, hk, hth]
    cases exit <;> exact Nat.one_pos
  | killed hk =>
    have hth := h.idle_thread (by rw [hk]; nofun)
    rw [St.rank, St.rank, hk, hth]
    exact Nat.one_pos
  | @finish w b r hth hb he =>
    have hk := (h.worker w hth).1
    rw [rank_join hk hth, rank_join (s := s.finish w) hk rfl, Worker.rank, Worker.rank, hb]
    exact Nat.succ_lt_succ (Nat.succ_pos _)
  | @print w b r b' head n hth hb hstep hn hlt =>
    have hk := (h.worker w hth).1
    rw [rank_join hk hth, rank_join (s := { s with
      tid := _, head := _, thread := some { w with body := some b', nums := _ } }) hk rfl,
      Worker.rank, Worker.rank, hb]
    exact Nat.add_lt_add_right (h.section_rank hth hb hstep hle).1 2
  | @quiet w b r b' head hth hb hstep hn =>
    have hk := (h.worker w hth).1
    rw [rank_join hk hth, rank_join (s := { s with
      head := _, thread := some { w with body := some b' } }) hk rfl, Worker.rank, Worker.rank, hb]
    exact Nat.add_lt_add_right (h.section_rank hth hb hstep hle).1 2
  | spurious hth hb hspur =>
    have hlt := ha _ _ hth hb (Body.spurious_stock hspur).1
    exact (Nat.not_lt_of_le hle hlt).elim

/-- `main` reads on, or the process is over. -/
def Through (s : St) : Prop := s.main = .read ∨ s.main = .left ∨ ∃ q, s.main = .killed q

/-- What `main` waits for comes, where its thread has somewhere to put its id. -/
theorem Kept.exists_step {s : St} (h : Kept addr s) (ha : Awake s)
    (hle : s.asked .consumer ≤ s.asked .producer) (hroom : ∀ k, s.asked k ≤ tids)
    (hg : ¬ Through s) : ∃ a t, Sequential.step addr s a = some t := by
  cases hm : s.main with
  | read => exact (hg (.inl hm)).elim
  | left => exact (hg (.inr (.inl hm))).elim
  | killed q => exact (hg (.inr (.inr ⟨q, hm⟩))).elim
  | spawn k => exact ⟨.spawn 0, _, by simp only [Sequential.step, hm]; rfl⟩
  | reply c exit =>
    exact ⟨.reply true true, _, by simp only [Sequential.step, hm]; rfl⟩
  | join k =>
    cases hth : s.thread with
    | none => exact ((h.idle hth).1 k hm).elim
    | some w =>
      obtain ⟨kind, self, body, nums⟩ := w
      cases body with
      | none => exact ⟨.join, _, by simp only [Sequential.step, hm, hth]; rfl⟩
      | some b =>
        refine ⟨.thread 0, ?_⟩
        simp only [Sequential.step, hth, Option.bind_some, St.stepThread]
        split
        · exact ⟨_, rfl⟩
        · rename_i he
          have hwait : b.waiting = false := by
            by_contra hw
            exact Nat.not_lt_of_le hle (ha _ b hth rfl (eq_true_of_ne_false hw))
          obtain ⟨b', head, hb⟩ := Body.exists_step 0 s.head (eq_false_of_ne_true he) hwait
          have hlt : s.count kind < tids := by
            have hcount := h.asked kind
            have hkind : k = kind := by
              have hj := hm.symm.trans (h.worker _ hth).1
              exact Main.join.inj hj
            rw [St.due, hm, hth] at hcount
            simp only [hkind, if_pos] at hcount
            exact Nat.lt_of_lt_of_le (Nat.lt_of_lt_of_eq (Nat.lt_succ_self _) hcount.symm)
              (hroom kind)
          rw [hb, Option.bind_some]
          dsimp only
          split
          · exact ⟨_, if_pos hlt⟩
          · exact ⟨_, rfl⟩

theorem awake_of_reachable (hs : (sys addr).Reachable s) : Kept addr s ∧ Awake s := by
  apply hs.invariant
  · rintro s rfl
    exact ⟨.start, nofun⟩
  · intro s a t h _ ht
    exact ⟨h.1.step ht, h.2.step h.1 ht⟩

/-- What `main` waits for never comes. -/
structure Stuck (addr : Kind → UInt64) (s : St) : Prop where
  kept : Kept addr s
  lt : s.asked .producer < s.asked .consumer

theorem Stuck.waits {s : St} (h : Stuck addr s) :
    s.main = .spawn .consumer ∨ s.main = .join .consumer := by
  have hlt := h.lt
  rw [h.kept.asked, h.kept.asked] at hlt
  have hle := h.kept.count_le
  exact due_pos (by omega)

theorem Stuck.step {s : St} (h : Stuck addr s) (ht : Sequential.step addr s a = some t) :
    Stuck addr t := by
  refine ⟨h.kept.step ht, ?_⟩
  rw [St.asked, St.asked, commands_step ht]
  · exact h.lt
  · intro hm
    rcases h.waits with hw | hw <;> cases hm.symm.trans hw

theorem Stuck.run {s : St} (h : Stuck addr s) (ht : (sys addr).run as s = some t) :
    Stuck addr t := by
  induction as generalizing s with
  | nil =>
    obtain rfl := Option.some.inj ht
    exact h
  | cons a as ih =>
    obtain ⟨u, hu, hr⟩ := Option.bind_eq_some_iff.1 ht
    exact ih (h.step hu) hr

theorem through_iff (hs : (sys addr).Reachable s) (hroom : ∀ k, s.asked k ≤ tids) :
    ((sys addr).Inevitable Through s ↔ s.asked .consumer ≤ s.asked .producer) ∧
      (s.asked .producer < s.asked .consumer → ∀ as t, (sys addr).run as s = some t →
        t.main = .spawn .consumer ∨ t.main = .join .consumer) := by
  obtain ⟨hkept, hawake⟩ := awake_of_reachable hs
  refine ⟨⟨?_, ?_⟩, ?_⟩
  · intro hi
    by_contra hlt
    have hstuck : Stuck addr s := ⟨hkept, Nat.lt_of_not_le hlt⟩
    obtain ⟨t, hst, hg⟩ := hi.reaches hstuck fun s a t h ht => h.step ht
    rcases hst.waits with hw | hw <;> rcases hg with hg | hg | ⟨q, hg⟩ <;> cases hg.symm.trans hw
  · intro hle
    apply Sys.Inevitable.of_wellFounded (S := sys addr) (I := fun s => Kept addr s ∧ Awake s ∧
      s.asked .consumer ≤ s.asked .producer ∧ ∀ k, s.asked k ≤ tids)
      (InvImage.wf St.rank Nat.lt_wfRel.wf)
    · rintro s ⟨h, ha, hle, hroom⟩ hg
      exact h.exists_step ha hle hroom hg
    · rintro s a t ⟨h, ha, hle, hroom⟩ hg ht
      have hm : s.main ≠ .read := fun hm => hg (.inl hm)
      have hasked : t.asked = s.asked := by
        funext k
        rw [St.asked, St.asked, commands_step ht hm]
      exact ⟨⟨h.step ht, ha.step h ht, hasked ▸ hle, hasked ▸ hroom⟩,
        h.rank_step ha hle hm ht⟩
    · exact ⟨hkept, hawake, hle, hroom⟩
  · intro hlt as t ht
    exact (Stuck.run ⟨hkept, hlt⟩ ht).waits

/-- A consumer is asked for first. -/
theorem through_iff_first : ∃ s, (sys fun _ => 0).run
    [.read (ascii "create consumer\n") []] start = some s ∧
    s.asked .producer < s.asked .consumer ∧
    (((sys fun _ => 0).Inevitable Through s ↔ s.asked .consumer ≤ s.asked .producer) ∧
      (s.asked .producer < s.asked .consumer → ∀ as t, (sys fun _ => 0).run as s = some t →
        t.main = .spawn .consumer ∨ t.main = .join .consumer)) := by
  have hr : ((sys fun _ => 0).run [.read (ascii "create consumer\n") []] start).map
      (fun s => (s.asked .producer, s.asked .consumer)) = some (0, 1) := by decide
  obtain ⟨s, hs, he⟩ := Option.map_eq_some_iff.1 hr
  obtain ⟨hp, hc⟩ := Prod.mk.inj he
  refine ⟨s, hs, by rw [hp, hc]; exact Nat.one_pos, through_iff (.of_run rfl hs) ?_⟩
  intro k
  cases k
  · rw [hp]
    decide
  · rw [hc]
    decide

end LinuxIpc.Procon.Sequential
