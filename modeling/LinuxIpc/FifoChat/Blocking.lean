import LinuxIpc.FifoChat.Exit

namespace LinuxIpc.FifoChat
set_option autoImplicit true

open Function (update update_self update_of_ne)

/-- What FIFOs of `cap` bytes allow: `select` finds one ready exactly where there is something to
read or no one writes it any more, `read` returns all that is there as far as it is asked for, and
`write` waits for room for all that it is to write, unless no one reads. -/
def Within (cap : Nat) (s : St) : Act → Prop
  | .select p fifo _ => fifo = true ↔ s.fifo p ≠ [] ∨ (s.side p.peer).pc.gone = true
  | .read p k => k = min 32 (s.fifo p).length
  | .type p l => (s.side p.peer).pc.gone = true ∨
      (s.fifo p.peer).length + (cstr l).length ≤ cap
  | .test _ => True

instance decidableWithin (cap : Nat) (s : St) : (a : Act) → Decidable (Within cap s a)
  | .select _ _ _ => inferInstanceAs (Decidable (_ ↔ _))
  | .read _ _ => inferInstanceAs (Decidable (_ = _))
  | .type _ _ => inferInstanceAs (Decidable (_ ∨ _))
  | .test _ => .isTrue trivial

def within (cap : Nat) : Sys St Act where
  init := Init
  step s a := if Within cap s a then step s a else none

/-- There is room in the FIFO that `p` reads for whatever the other one may write at once. -/
def Room (cap : Nat) (s : St) (p : Prog) : Prop := (s.fifo p).length + 31 ≤ cap

/-- No FIFO holds more than it takes, and where both are about to write, there is room for one of
them: the last one to look at its FIFO has made room in it. -/
structure Roomy (cap : Nat) (s : St) : Prop where
  size : ∀ p, (s.fifo p).length ≤ cap
  room : ∀ p, (s.side p).pc = .fgets → (s.side p.peer).pc = .fgets →
    Room cap s p ∨ Room cap s p.peer

variable {cap : Nat} {s t : St}

theorem of_within (h : (within cap).step s a = some t) : Within cap s a ∧ step s a = some t :=
  Option.ite_none_right_eq_some.1 h

theorem Roomy.init (h : Init s) : Roomy cap s where
  size p := by
    rw [h.fifo p]
    exact Nat.zero_le cap
  room p hp := by
    rw [h.pc p] at hp
    cases hp

theorem length_mark (start : Bool) (d : List UInt8) : (mark start d).length = d.length := by
  cases d with
  | nil => rfl
  | cons b d => rw [mark, List.length_cons, List.length_map, List.length_cons]

/-- The line typed is what goes into the FIFO. -/
theorem type_str (a : Side) (hl : Stdin.Piece 31 l) : cstr (a.type l true).str.bytes = cstr l :=
  Buf.cstr_overwrite a.str (Nat.lt_succ_of_le hl.2.1)

/-- One moves, and there is room in the FIFO that it reads where it comes to write. -/
theorem Roomy.move (ha : a.pc = .fgets → (f p).length + 31 ≤ cap)
    (hf : ∀ q, (f q).length ≤ cap) : Roomy cap ⟨update s.side p a, f⟩ where
  size := hf
  room := by
    intro q hq hq'
    change (f q).length + 31 ≤ cap ∨ (f q.peer).length + 31 ≤ cap
    change (update s.side p a q).pc = .fgets at hq
    change (update s.side p a q.peer).pc = .fgets at hq'
    by_cases hqp : q = p
    · subst hqp
      rw [update_self] at hq
      exact .inl (ha hq)
    · have hqp' : q.peer = p := by
        cases q <;> cases p <;> first | rfl | exact (hqp rfl).elim
      rw [hqp', update_self] at hq'
      exact .inr (hqp' ▸ ha hq')

theorem Roomy.step (h : Roomy cap s) (hcap : 31 ≤ cap) (ht : (within cap).step s a = some t) :
    Roomy cap t := by
  obtain ⟨hw, ht⟩ := of_within ht
  cases a with
  | select p fifo stdin =>
    obtain ⟨-, rfl⟩ := of_guard ht
    refine .move (fun ha => ?_) h.size
    cases fifo with
    | true => cases ha
    | false =>
      have hempty : s.fifo p = [] := by
        by_contra hne
        exact absurd (hw.2 (.inl hne)) (by decide)
      rw [hempty]
      exact hcap
  | read p k =>
    unfold FifoChat.step at ht
    dsimp only at ht
    split at ht
    · obtain ⟨-, rfl⟩ := of_guard ht
      have hk : k = min 32 (s.fifo p).length := hw
      have hsize := h.size p
      have hlen : ((s.fifo p).drop k).length = (s.fifo p).length - k := List.length_drop
      refine .move (fun _ => ?_) fun q => ?_
      · rw [update_self, hlen]
        omega
      · by_cases hq : q = p
        · subst hq
          rw [update_self, hlen]
          omega
        · rw [update_of_ne hq]
          exact h.size q
    · cases ht
  | type p l =>
    obtain ⟨⟨-, hl⟩, ht⟩ := Option.ite_none_right_eq_some.1 ht
    split at ht
    · obtain rfl := Option.some.inj ht
      exact .move nofun h.size
    · rename_i hgone
      obtain rfl := Option.some.inj ht
      refine .move nofun fun q => ?_
      by_cases hq : q = p.peer
      · subst hq
        rw [update_self, List.length_append, length_mark, type_str _ hl]
        exact hw.resolve_left hgone
      · rw [update_of_ne hq]
        exact h.size q
  | test p =>
    unfold FifoChat.step at ht
    dsimp only at ht
    split at ht
    · obtain rfl := Option.some.inj ht
      refine .move (fun ha => ?_) h.size
      unfold Side.test at ha
      dsimp only at ha
      split at ha <;> cases ha
    · cases ht

/-- The program need not wait in `write` for room. -/
def Through (cap : Nat) (s : St) (p : Prog) : Prop :=
  (s.side p).pc ≠ .fgets ∨ (s.side p.peer).pc.gone = true ∨ Room cap s p.peer

instance (cap : Nat) (s : St) (p : Prog) : Decidable (Through cap s p) :=
  inferInstanceAs (Decidable (_ ∨ _ ∨ _ ≤ _))

/-- The steps after which the peer has made room, at most. -/
def Pc.delay : Pc → Nat
  | .fgets => 4
  | .test _ => 3
  | .select => 2
  | .read _ => 1
  | .left _ | .killed => 0

theorem Pc.delay_pos {pc : Pc} (h : ¬ pc.gone = true) : 0 < pc.delay := by
  cases pc <;> first | exact Nat.succ_pos _ | exact (h rfl).elim

def delay (cap : Nat) (p : Prog) (s : St) : Nat :=
  if Through cap s p then 0 else (s.side p.peer).pc.delay

/-- The peer of a program that waits to write goes on. -/
theorem Roomy.exists_step (h : Roomy cap s) (hcap : 31 ≤ cap) (hp : ¬ Through cap s p) :
    ∃ a t, (within cap).step s a = some t := by
  rw [Through, not_or, not_or, not_not] at hp
  obtain ⟨hpc, hgone, hroom⟩ := hp
  have hne : s.fifo p.peer ≠ [] := by
    intro he
    apply hroom
    rw [Room, he]
    exact hcap
  have hdo {a : Act} (hw : Within cap s a) (ht : ∃ t, FifoChat.step s a = some t) :
      ∃ a t, (within cap).step s a = some t := by
    obtain ⟨t, ht⟩ := ht
    exact ⟨a, t, (if_pos hw).trans ht⟩
  cases hq : (s.side p.peer).pc with
  | select =>
    exact hdo (a := .select p.peer true false) ⟨fun _ => .inl hne, fun _ => rfl⟩
      ⟨_, if_pos ⟨hq, .inl rfl, fun _ => .inl hne⟩⟩
  | read stdin =>
    have hlen := List.length_pos_of_ne_nil hne
    have hk : min 32 (s.fifo p.peer).length ≤ 32 ∧
        min 32 (s.fifo p.peer).length ≤ (s.fifo p.peer).length ∧
        (min 32 (s.fifo p.peer).length = 0 → s.fifo p.peer = []) :=
      ⟨Nat.min_le_left .., Nat.min_le_right .., fun hk => by omega⟩
    refine hdo (a := .read p.peer _) rfl ?_
    simp only [FifoChat.step, hq, if_pos hk]
    exact ⟨_, rfl⟩
  | fgets =>
    have hother : Room cap s p := (h.room p hpc hq).resolve_right hroom
    have hlive : ¬ (s.side p.peer.peer).pc.gone = true := by
      rw [p.peer_peer, hpc]
      exact Bool.false_ne_true
    refine hdo (a := .type p.peer [10]) (.inr ?_) ?_
    · rw [p.peer_peer]
      exact Nat.le_trans (Nat.add_le_add_left (show (cstr [10]).length ≤ 31 by decide) _) hother
    · rw [FifoChat.step, if_pos ⟨hq, by decide⟩, if_neg hlive]
      exact ⟨_, rfl⟩
  | test typed =>
    refine hdo (a := .test p.peer) trivial ?_
    simp only [FifoChat.step, hq]
    exact ⟨_, rfl⟩
  | left typed =>
    rw [hq] at hgone
    exact (hgone rfl).elim
  | killed =>
    rw [hq] at hgone
    exact (hgone rfl).elim

/-- What a step does to the program that makes it, and that it writes to the other one's FIFO
only. -/
theorem step_side (ht : FifoChat.step s a = some t) : ∃ r x, t.side = update s.side r x ∧
    ((s.side r).pc = .fgets ∧ (x.pc = .killed ∨ x.pc = .test true) ∨
      (∃ typed, (s.side r).pc = .test typed ∧ (x.pc = .left typed ∨ x.pc = .select)) ∨
      (∃ stdin k, a = .read r k ∧ (s.side r).pc = .read stdin ∧
        t.fifo = update s.fifo r ((s.fifo r).drop k)) ∨
      ∃ fifo stdin, a = .select r fifo stdin ∧ (s.side r).pc = .select ∧
        x.pc = if fifo then .read stdin else .fgets) := by
  cases a with
  | select r fifo stdin =>
    obtain ⟨⟨hpc, -⟩, rfl⟩ := of_guard ht
    exact ⟨r, _, rfl, .inr (.inr (.inr ⟨fifo, stdin, rfl, hpc, rfl⟩))⟩
  | read r k =>
    unfold FifoChat.step at ht
    dsimp only at ht
    split at ht
    · rename_i stdin hpc
      obtain ⟨-, rfl⟩ := of_guard ht
      exact ⟨r, _, rfl, .inr (.inr (.inl ⟨stdin, k, rfl, hpc, rfl⟩))⟩
    · cases ht
  | type r l =>
    obtain ⟨⟨hpc, -⟩, ht⟩ := Option.ite_none_right_eq_some.1 ht
    split at ht
    · obtain rfl := Option.some.inj ht
      exact ⟨r, _, rfl, .inl ⟨hpc, .inl rfl⟩⟩
    · obtain rfl := Option.some.inj ht
      exact ⟨r, _, rfl, .inl ⟨hpc, .inr rfl⟩⟩
  | test r =>
    unfold FifoChat.step at ht
    dsimp only at ht
    split at ht
    · rename_i typed hpc
      obtain rfl := Option.some.inj ht
      refine ⟨r, _, rfl, .inr (.inl ⟨typed, hpc, ?_⟩)⟩
      unfold Side.test
      dsimp only
      split
      · exact .inl rfl
      · exact .inr rfl
    · cases ht

/-- And every step brings it nearer to having made room. -/
theorem Roomy.delay_step (h : Roomy cap s) (hcap : 31 ≤ cap) (hp : ¬ Through cap s p)
    (ht : (within cap).step s a = some t) : delay cap p t < delay cap p s := by
  have hs : delay cap p s = (s.side p.peer).pc.delay := if_neg hp
  rw [Through, not_or, not_or, not_not] at hp
  obtain ⟨hpc, hgone, hroom⟩ := hp
  have hne : s.fifo p.peer ≠ [] := by
    intro he
    apply hroom
    rw [Room, he]
    exact hcap
  have hsize := h.size p.peer
  obtain ⟨hw, ht⟩ := of_within ht
  have hle : delay cap p t ≤ (t.side p.peer).pc.delay := by
    unfold delay
    split
    · exact Nat.zero_le _
    · exact Nat.le_refl _
  obtain ⟨r, x, hside, hmove⟩ := step_side ht
  rw [hside] at hle
  by_cases hr : r = p
  · subst hr
    have hfgets : x.pc = .killed ∨ x.pc = .test true := by
      rcases hmove with ⟨-, hx⟩ | ⟨typed, hr, -⟩ | ⟨stdin, k, -, hr, -⟩ | ⟨fifo, stdin, -, hr, -⟩
      · exact hx
      · exact absurd (hpc.symm.trans hr) nofun
      · exact absurd (hpc.symm.trans hr) nofun
      · exact absurd (hpc.symm.trans hr) nofun
    have hzero : delay cap r t = 0 := by
      refine if_pos (.inl ?_)
      rw [hside, update_self]
      rcases hfgets with hx | hx <;> (rw [hx]; nofun)
    rw [hzero, hs]
    exact Pc.delay_pos hgone
  · have hrp : r = p.peer := by
      cases r <;> cases p <;> first | rfl | exact (hr rfl).elim
    subst hrp
    rw [update_self] at hle
    rw [hs]
    rcases hmove with ⟨hq, hx⟩ | ⟨typed, hq, hx⟩ | ⟨stdin, k, rfl, hq, hfifo⟩ |
      ⟨fifo, stdin, rfl, hq, hx⟩
    · rcases hx with hx | hx <;> (rw [hx] at hle; rw [hq]; simp only [Pc.delay] at hle ⊢; omega)
    · rcases hx with hx | hx <;> (rw [hx] at hle; rw [hq]; simp only [Pc.delay] at hle ⊢; omega)
    · have hthrough : Room cap t p.peer := by
        have hk : k = min 32 (s.fifo p.peer).length := hw
        rw [Room, hfifo, update_self, List.length_drop]
        omega
      rw [hq, delay, if_pos (.inr (.inr hthrough))]
      exact Nat.one_pos
    · have hready : fifo = true := hw.2 (.inl hne)
      rw [hx, hready, if_pos rfl] at hle
      rw [hq]
      simp only [Pc.delay] at hle ⊢
      omega

theorem roomy_of_reachable (hcap : 31 ≤ cap) (hs : (within cap).Reachable s) : Roomy cap s := by
  apply hs.invariant
  · intro s hi
    exact .init hi
  · intro s a t h _ ht
    exact h.step hcap ht

/-- Neither program waits in `write` for good, in any schedule: either there comes to be room for
what it has to write, or the other one leaves. Each makes room for all that the other one can write
at once before it writes itself. -/
theorem inevitable_through (hcap : 31 ≤ cap) (hs : (within cap).Reachable s) (p : Prog) :
    (within cap).Inevitable (fun t => Through cap t p) s := by
  apply Sys.Inevitable.of_wellFounded (S := within cap) (I := Roomy cap)
    (InvImage.wf (delay cap p) Nat.lt_wfRel.wf)
  · intro s h hp
    exact h.exists_step hcap hp
  · intro s a t h hp ht
    exact ⟨h.step hcap ht, h.delay_step hcap hp ht⟩
  · exact roomy_of_reachable hcap hs

/-- One fills the FIFO and comes to write again. -/
def fill : List Act :=
  [.select .pls false true, .type .pls (List.replicate 30 97 ++ [10]), .test .pls,
    .select .pls false true]

theorem inevitable_through_fill : ∃ s, (within 31).run fill start = some s ∧
    ¬ Through 31 s .pls ∧ (within 31).Inevitable (fun t => Through 31 t .pls) s := by
  have hr : ((within 31).run fill start).map (fun s => decide (Through 31 s .pls)) =
      some false := by decide
  obtain ⟨s, hs, he⟩ := Option.map_eq_some_iff.1 hr
  exact ⟨s, hs, of_decide_eq_false he,
    inevitable_through (Nat.le_refl 31) (.of_run start_init hs) .pls⟩

end LinuxIpc.FifoChat
