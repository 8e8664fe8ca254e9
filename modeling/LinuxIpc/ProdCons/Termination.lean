import LinuxIpc.ProdCons.Refinement
import LinuxIpc.ProdCons.Wakeup

namespace LinuxIpc.ProdCons
set_option autoImplicit true
set_option linter.unusedSectionVars false

open Function (update update_self update_of_ne)

section Sections
variable {ι κ : Type} [DecidableEq ι] [DecidableEq κ] [Fintype κ]

def Consumer.taking (c : Consumer) : Nat := c.taken.card

/-- What has been unlinked is printed or is to be. -/
def Counted (s : St ι κ) : Prop :=
  total Consumer.pops s.cons = s.printed.length + total Consumer.taking s.cons

theorem Counted.move {s t : St ι κ} (h : Counted s) (ht : t.cons = update s.cons k c)
    (hc : c.pops + (s.cons k).taking + s.printed.length =
      (s.cons k).pops + c.taking + t.printed.length) : Counted t := by
  have hpops := total_update Consumer.pops s.cons k c
  have htaking := total_update Consumer.taking s.cons k c
  unfold Counted at h ⊢
  rw [ht]
  omega

theorem Counted.wake {s : St ι κ} (h : Counted s) (ws : Finset κ) :
    Counted { s with cons := fun k => if k ∈ ws then (s.cons k).wake else s.cons k } := by
  have hpops : total Consumer.pops (fun k => if k ∈ ws then (s.cons k).wake else s.cons k) =
      total Consumer.pops s.cons := by
    apply total_congr
    intro k
    split
    · exact Consumer.wake_pops _
    · rfl
  have htaking : total Consumer.taking (fun k => if k ∈ ws then (s.cons k).wake else s.cons k) =
      total Consumer.taking s.cons := by
    apply total_congr
    intro k
    split
    · exact congrArg Multiset.card (Consumer.wake_taken _)
    · rfl
  exact hpops.trans (h.trans (congrArg _ htaking.symm))

theorem Counted.step {s t : St ι κ} (h : Counted s) (hs : ProdCons.step s a = some t) :
    Counted t := by
  cases a with
  | push i r =>
    obtain ⟨_, -, rfl⟩ := Option.map_eq_some_iff.1 hs
    exact h
  | signal i ws =>
    simp only [ProdCons.step, Option.ite_none_right_eq_some] at hs
    obtain ⟨_, -, rfl⟩ := Option.map_eq_some_iff.1 hs.2
    exact h.wake ws
  | enter k =>
    obtain ⟨⟨c, l⟩, hc, rfl⟩ := Option.map_eq_some_iff.1 hs
    obtain ⟨i, hk, hto⟩ := Consumer.enter_eq hc
    refine h.move rfl ?_
    rcases hk with ⟨hk, -⟩ | hk <;> rcases hto with ⟨-, rfl, -⟩ | ⟨num, -, rfl⟩ <;> rw [hk] <;>
      rfl
  | print k =>
    obtain ⟨⟨c, num⟩, hc, rfl⟩ := Option.map_eq_some_iff.1 hs
    obtain ⟨i, hk, rfl⟩ := Consumer.print_eq hc
    refine h.move rfl ?_
    rw [hk, List.length_append, ← Nat.add_assoc, Nat.add_right_comm]
    rfl
  | spurious k =>
    obtain ⟨-, rfl⟩ := of_guard hs
    refine h.move rfl ?_
    rw [Consumer.wake_pops, Consumer.taking, Consumer.taking, Consumer.wake_taken]

end Sections

end LinuxIpc.ProdCons

namespace LinuxIpc.ProdCons.Nodes
set_option autoImplicit true
set_option linter.unusedSectionVars false

open Function (update update_self update_of_ne)

section Statements
variable {τ : Type} [DecidableEq τ]

def Act.Genuine : Act τ → Prop
  | .spurious _ => False
  | _ => True

instance : DecidablePred (Act.Genuine (τ := τ))
  | .spurious _ => .isFalse id
  | .malloc .. | .run _ | .signal .. => .isTrue trivial

/-- The lock is held by a thread that is inside a section, and only part of the memory is used. -/
structure Free (s : St τ) : Prop where
  lock : ∀ u, s.lock = some u → (s.thread u).holds
  room : ∃ n, ∀ a, n ≤ a → s.heap a = none

theorem Free.move {s s' : St τ} (h : Free s) (ht : s'.thread = update s.thread u c)
    (hl : ∀ v, s'.lock = some v → v = u ∧ c.holds ∨ v ≠ u ∧ s.lock = some v)
    (hh : ∀ a, a ≠ p → s.heap a = none → s'.heap a = none) : Free s' where
  lock v hv := by
    rw [ht]
    rcases hl v hv with ⟨rfl, hc⟩ | ⟨hvu, hv⟩
    · rwa [update_self]
    · rw [update_of_ne hvu]
      exact h.lock v hv
  room := by
    obtain ⟨n, hn⟩ := h.room
    refine ⟨max n (p + 1), fun a ha => hh a ?_ (hn a ?_)⟩
    · exact Nat.ne_of_gt (Nat.le_trans (Nat.le_max_right ..) ha)
    · exact Nat.le_trans (Nat.le_max_left ..) ha

theorem Free.keep {s s' : St τ} (h : Free s) (ht : s'.thread = update s.thread u c)
    (hl : s'.lock = s.lock) (hc : c.holds = (s.thread u).holds)
    (hh : ∀ a, a ≠ p → s.heap a = none → s'.heap a = none) : Free s' := by
  refine h.move ht (fun v hv => ?_) hh
  rw [hl] at hv
  by_cases hvu : v = u
  · exact .inl ⟨hvu, hc.trans (hvu ▸ h.lock v hv)⟩
  · exact .inr ⟨hvu, hv⟩

theorem Locks.holds (h : Locks c d) : d.holds := by
  cases h <;> rfl

theorem Free.ran {s s' : St τ} (h : Free s) (hs : Ran s u s') : Free s' := by
  cases hs with
  | lock hl =>
    exact h.move (p := 0) rfl (fun v hv => .inl ⟨(Option.some.inj hv).symm, hl.holds⟩)
      fun _ _ ha => ha
  | link hu => exact h.keep rfl rfl (by rw [hu]; rfl) fun a hp ha => (update_of_ne hp ..).trans ha
  | linked => exact h.move (p := 0) rfl nofun fun _ _ ha => ha
  | wait => exact h.move (p := 0) rfl nofun fun _ _ ha => ha
  | found hu => exact h.keep (p := 0) rfl rfl (by rw [hu]; rfl) fun _ _ ha => ha
  | unlink hu => exact h.keep (p := 0) rfl rfl (by rw [hu]; rfl) fun _ _ ha => ha
  | unlinked => exact h.move (p := 0) rfl nofun fun _ _ ha => ha
  | print hu => exact h.keep (p := 0) rfl rfl (by rw [hu]; rfl) fun _ _ ha => ha
  | free hu => exact h.keep rfl rfl (by rw [hu]; rfl) fun a hp ha => (update_of_ne hp ..).trans ha

theorem Free.wake {s : St τ} (h : Free s) (ws : Finset τ) : Free (s.wake ws) where
  lock v hv := by
    have hh := h.lock v hv
    simp only [St.wake]
    split
    · rwa [Thread.wake_holds]
    · exact hh
  room := h.room

theorem Free.step [Fintype τ] {s s' : St τ} (h : Free s) (hI : Inv s)
    (hs : Nodes.step s a = some s') : Free s' := by
  cases a with
  | malloc u a r junk =>
    cases hu : s.thread u with
    | produce n =>
      simp only [Nodes.step, hu] at hs
      obtain ⟨-, rfl⟩ := of_guard hs
      exact h.keep rfl rfl (by rw [hu]; rfl) fun b hb ha => (update_of_ne hb ..).trans ha
    | _ => simp only [Nodes.step, hu, reduceCtorEq] at hs
  | run u => exact h.ran (hI.ran hs)
  | signal u ws =>
    cases hu : s.thread u with
    | signal n =>
      simp only [Nodes.step, hu] at hs
      obtain ⟨hw, rfl⟩ := of_guard hs
      have hwu : ((s.wake ws).thread u).holds = false := by
        simp only [St.wake, hu]
        split <;> rfl
      exact (h.wake ws).keep (p := 0) rfl rfl hwu.symm fun _ _ ha => ha
    | _ => simp only [Nodes.step, hu, reduceCtorEq] at hs
  | spurious u =>
    obtain ⟨-, rfl⟩ := of_guard hs
    exact h.keep (p := 0) rfl rfl (Thread.wake_holds _) fun _ _ ha => ha

/-- The statements that a thread has still to run, where a signal pays for two of each thread that
it may wake. -/
def Thread.rank (n : Nat) : Thread → Nat
  | .produce i => (rounds - i) * (2 * n + 6)
  | .filled i _ => (rounds - (i + 1)) * (2 * n + 6) + 2 * n + 4
  | .linking i _ => (rounds - (i + 1)) * (2 * n + 6) + 2 * n + 3
  | .linked i => (rounds - (i + 1)) * (2 * n + 6) + 2 * n + 2
  | .signal i => (rounds - (i + 1)) * (2 * n + 6) + 2 * n + 1
  | .consume i => (rounds - i) * 7
  | .woken i => (rounds - (i + 1)) * 7 + 6
  | .testing i => (rounds - (i + 1)) * 7 + 5
  | .found i | .waiting i => (rounds - (i + 1)) * 7 + 4
  | .unlinked i _ => (rounds - (i + 1)) * 7 + 3
  | .took i _ => (rounds - (i + 1)) * 7 + 2
  | .printed i _ => (rounds - (i + 1)) * 7 + 1

theorem rounds_sub_mul (h : i < rounds) (n : Nat) :
    (rounds - i) * n = (rounds - (i + 1)) * n + n := by
  rw [← Nat.succ_mul]
  congr 1
  omega

theorem Thread.rank_wake (n : Nat) (c : Thread) : c.wake.rank n ≤ c.rank n + 2 := by
  cases c <;> simp only [wake, rank] <;> omega

theorem Locks.rank (h : Locks c d) (n : Nat) : d.rank n < c.rank n := by
  cases h with
  | consumer hi =>
    rw [Thread.rank, Thread.rank, rounds_sub_mul hi]
    omega
  | _ => exact Nat.lt_succ_self _

variable [Fintype τ]

def St.rank (s : St τ) : Nat := total (Thread.rank (Fintype.card τ)) s.thread

theorem St.rank_lt {s s' : St τ} (ht : s'.thread = update s.thread u c)
    (hc : c.rank (Fintype.card τ) < (s.thread u).rank (Fintype.card τ)) : s'.rank < s.rank := by
  rw [St.rank, St.rank, ht]
  exact total_update_lt hc

theorem St.rank_ran {s s' : St τ} (hs : Ran s u s') : s'.rank < s.rank := by
  cases hs with
  | lock hl => exact rank_lt rfl (hl.rank _)
  | _ hu =>
    refine rank_lt rfl ?_
    rw [hu]
    exact Nat.lt_succ_self _

/-- A signal is worth more than the tests it leads to. -/
theorem St.rank_signal {s : St τ} (hu : s.thread u = .signal i) (ws : Finset τ) :
    ((s.wake ws).goto u (.produce (i + 1))).rank < s.rank := by
  have hwu : (s.wake ws).thread u = .signal i := by
    simp only [St.wake, hu]
    split <;> rfl
  have hmove := total_update (Thread.rank (Fintype.card τ)) (s.wake ws).thread u (.produce (i + 1))
  have hwake : (s.wake ws).rank ≤ s.rank + Fintype.card τ * 2 := by
    apply total_le_add
    intro v
    simp only [St.wake]
    split
    · exact Thread.rank_wake _ _
    · exact Nat.le_add_right _ _
  rw [hwu] at hmove
  simp only [Thread.rank] at hmove
  change total (Thread.rank (Fintype.card τ)) (update (s.wake ws).thread u _) < s.rank
  change total (Thread.rank (Fintype.card τ)) (s.wake ws).thread ≤ _ at hwake
  omega

theorem St.rank_step {s s' : St τ} (h : Inv s) (hg : a.Genuine) (hs : step s a = some s') :
    s'.rank < s.rank := by
  cases a with
  | malloc u a r junk =>
    cases hu : s.thread u with
    | produce n =>
      simp only [step, hu] at hs
      obtain ⟨⟨hn, -⟩, rfl⟩ := of_guard hs
      refine rank_lt rfl ?_
      rw [hu, Thread.rank, Thread.rank, rounds_sub_mul hn]
      omega
    | _ => simp only [step, hu, reduceCtorEq] at hs
  | run u => exact rank_ran (h.ran hs)
  | signal u ws =>
    cases hu : s.thread u with
    | signal n =>
      simp only [step, hu] at hs
      obtain ⟨-, rfl⟩ := of_guard hs
      exact rank_signal hu ws
    | _ => simp only [step, hu, reduceCtorEq] at hs
  | spurious u => exact hg.elim

end Statements

variable {ι κ : Type} [DecidableEq ι] [Fintype ι] [DecidableEq κ] [Fintype κ]

variable (ι κ) in
/-- No wakeup is spurious. -/
def calm : Sys (St (ι ⊕ κ)) (Act (ι ⊕ κ)) where
  init := (pool ι κ).init
  step s a := if a.Genuine then step s a else none

/-- All producers are through; a consumer is, too, or waits on the empty chain, and what has been
linked is printed or left over. -/
structure Over (s : St (ι ⊕ κ)) : Prop where
  producers : ∀ i, s.thread (.inl i) = .produce rounds
  consumers : ∀ k, s.thread (.inr k) = .consume rounds ∨
    s.head = none ∧ ∃ n < rounds, s.thread (.inr k) = .waiting n
  consumed : (s.output + s.outstanding.map Prod.snd : Multiset Nat) = s.pushed.map Prod.snd
  produced : s.pushed.length = Fintype.card ι * rounds
  printed : s.output.length = min (Fintype.card ι * rounds) (Fintype.card κ * rounds)

/-- A thread in the lock can go on. -/
theorem Free.holder_runs {s : St (ι ⊕ κ)} (h : Free s) (hl : s.lock = some u) :
    ∃ s', s.run u = some s' := by
  have hh := h.lock u hl
  cases hu : s.thread u with
  | testing i =>
    by_cases hn : s.head = none
    · exact ⟨s.release u (.waiting i), by simp only [St.run, hu, if_pos hn]⟩
    · exact ⟨s.goto u (.found i), by simp only [St.run, hu, if_neg hn]⟩
  | linking i mp => exact ⟨_, by rw [St.run, hu]⟩
  | linked i => exact ⟨_, by rw [St.run, hu]⟩
  | found i => exact ⟨_, by rw [St.run, hu]⟩
  | unlinked i mp => exact ⟨_, by rw [St.run, hu]⟩
  | _ => rw [hu] at hh; cases hh

/-- A state in which nothing happens any more. -/
def Still (s : St (ι ⊕ κ)) : Prop := ∀ a : Act (ι ⊕ κ), a.Genuine → step s a = none

theorem Free.still_lock {s : St (ι ⊕ κ)} (h : Free s) (hs : Still s) : s.lock = none := by
  by_contra hl
  obtain ⟨u, hu⟩ := Option.ne_none_iff_exists'.1 hl
  obtain ⟨s', hs'⟩ := h.holder_runs hu
  exact nomatch hs'.symm.trans (hs (.run u) trivial)

theorem Free.still_producer {s : St (ι ⊕ κ)} (h : Free s) (hs : Still s)
    (hp : InProducer (s.thread u) p) (hr : p.InRounds) : s.thread u = .produce rounds := by
  have hrun : s.run u = none := hs (.run u) trivial
  have hlock := h.still_lock hs
  cases hu : s.thread u with
  | produce i =>
    obtain ⟨n, hn⟩ := h.room
    have hm := hs (.malloc u n 0 none) trivial
    simp only [Nodes.step, hu, hn n (Nat.le_refl n), and_true, ite_eq_right_iff, reduceCtorEq,
      imp_false] at hm
    rw [hu] at hp
    cases hp
    exact congrArg _ (Nat.le_antisymm hr (Nat.le_of_not_lt hm))
  | filled i mp => simp only [St.run, hu, St.acquire, if_pos hlock, reduceCtorEq] at hrun
  | linking i mp => simp only [St.run, hu, reduceCtorEq] at hrun
  | linked i => simp only [St.run, hu, reduceCtorEq] at hrun
  | signal i =>
    have hw : Wakes s.thread (Finset.univ.filter fun v => (s.thread v).isWaiting) := by
      refine ⟨fun v hv => (Finset.mem_filter.1 hv).2, ?_⟩
      rintro ⟨v, hv⟩
      exact ⟨v, Finset.mem_filter.2 ⟨Finset.mem_univ v, hv⟩⟩
    have hsig := hs (.signal u (Finset.univ.filter fun v => (s.thread v).isWaiting)) trivial
    simp only [Nodes.step, hu, if_pos hw, reduceCtorEq] at hsig
  | _ => rw [hu] at hp; cases hp

theorem Free.still_consumer {s : St (ι ⊕ κ)} (h : Free s) (hs : Still s)
    (hc : InConsumer popped (s.thread u) c) (hr : c.InRounds) :
    s.thread u = .consume rounds ∨ ∃ n < rounds, s.thread u = .waiting n := by
  have hrun : s.run u = none := hs (.run u) trivial
  have hlock := h.still_lock hs
  cases hu : s.thread u with
  | consume i =>
    simp only [St.run, hu, St.acquire, if_pos hlock, ite_eq_right_iff, reduceCtorEq,
      imp_false] at hrun
    rw [hu] at hc
    cases hc
    exact .inl (congrArg _ (Nat.le_antisymm hr (Nat.le_of_not_lt hrun)))
  | waiting i =>
    rw [hu] at hc
    cases hc
    exact .inr ⟨i, hr, rfl⟩
  | woken i => simp only [St.run, hu, St.acquire, if_pos hlock, reduceCtorEq] at hrun
  | testing i =>
    simp only [St.run, hu] at hrun
    split at hrun <;> cases hrun
  | found i => simp only [St.run, hu, reduceCtorEq] at hrun
  | unlinked i mp => simp only [St.run, hu, reduceCtorEq] at hrun
  | took i mp => simp only [St.run, hu, reduceCtorEq] at hrun
  | printed i mp => simp only [St.run, hu, reduceCtorEq] at hrun
  | _ => rw [hu] at hc; cases hc

/-- What every statement preserves, with the sections beside it. -/
structure Runs (s : St (ι ⊕ κ)) (t : ProdCons.St ι κ) : Prop extends Simulated s t, Free s where
  sections : ProdCons.Inv t
  counted : Counted t

/-- Where all sections are at an end or wait, as many have been printed as there could be. -/
theorem count_printed {t : ProdCons.St ι κ} (h : ProdCons.Inv t) (hc : Counted t)
    (hp : ∀ i, t.prod i = .produce rounds)
    (hk : ∀ k, t.cons k = .consume rounds ∨ t.head = [] ∧ ∃ n < rounds, t.cons k = .waiting n) :
    t.head.length + t.printed.length = Fintype.card ι * rounds ∧
      t.printed.length = min (Fintype.card ι * rounds) (Fintype.card κ * rounds) := by
  have hpush := total_of_forall Producer.pushes t.prod rounds fun i => by rw [hp i]; rfl
  have htaking : total Consumer.taking t.cons = 0 := by
    rw [total_eq_zero]
    intro k
    rcases hk k with hk | ⟨-, n, -, hk⟩ <;> rw [hk] <;> rfl
  have hstock := h.stock
  have hcount : total Consumer.pops t.cons = t.printed.length + total Consumer.taking t.cons := hc
  refine ⟨by omega, ?_⟩
  by_cases hall : ∀ k, t.cons k = .consume rounds
  · have hpops := total_of_forall Consumer.pops t.cons rounds fun k => by rw [hall k]; rfl
    omega
  · obtain ⟨k, hne⟩ := not_forall.1 hall
    obtain ⟨hnil, n, hn, hw⟩ := (hk k).resolve_left hne
    have hpops := total_lt_card Consumer.pops t.cons rounds (fun j => (h.cons j).pops_le)
      ((h.cons k).pops_lt (by rw [hw]; rfl))
    rw [hnil, List.length_nil] at hstock
    omega

theorem Runs.still_prod {s : St (ι ⊕ κ)} (h : Runs s t) (hs : Still s) (i : ι) :
    s.thread (.inl i) = .produce rounds ∧ t.prod i = .produce rounds := by
  have hi := h.toFree.still_producer hs (h.prod i) (h.sections.prod i)
  have hp := h.prod i
  rw [hi] at hp
  cases hp' : t.prod i <;> rw [hp'] at hp <;> cases hp
  exact ⟨hi, rfl⟩

theorem Runs.still_cons {s : St (ι ⊕ κ)} (h : Runs s t) (hs : Still s) (k : κ) :
    s.thread (.inr k) = .consume rounds ∧ t.cons k = .consume rounds ∨
      ∃ n < rounds, s.thread (.inr k) = .waiting n ∧ t.cons k = .waiting n := by
  have hc := h.cons k
  rcases h.toFree.still_consumer hs (h.cons k) (h.sections.cons k) with hk | ⟨n, hn, hk⟩
  · rw [hk] at hc
    cases hc' : t.cons k <;> rw [hc'] at hc <;> cases hc
    exact .inl ⟨hk, rfl⟩
  · rw [hk] at hc
    cases hc' : t.cons k <;> rw [hc'] at hc <;> cases hc
    exact .inr ⟨n, hn, hk, rfl⟩

/-- No one who waits has missed a node. -/
theorem Runs.still_head {s : St (ι ⊕ κ)} (h : Runs s t) (hs : Still s)
    (hw : ∃ k n, t.cons k = .waiting n) : t.head = [] := by
  by_contra hne
  refine h.sections.not_lostWakeup ⟨hne, hw, ?_, ?_⟩
  · intro i n hi
    rw [(h.still_prod hs i).2] at hi
    cases hi
  · intro k n hk
    rcases h.still_cons hs k with ⟨-, hc⟩ | ⟨m, -, -, hc⟩ <;> rw [hc] at hk <;> cases hk

theorem Runs.head_none {s : St (ι ⊕ κ)} (h : Runs s t) (hnil : t.head = []) : s.head = none := by
  obtain ⟨l, hl, hout⟩ := h.inv.chain
  rw [h.head, ← hout, List.map_map, List.map_eq_nil_iff] at hnil
  rw [hl.head, hnil]
  rfl

/-- What is not printed is still on the list. -/
theorem Runs.still_output {s : St (ι ⊕ κ)} (h : Runs s t) (hs : Still s) :
    (s.output + s.outstanding.map Prod.snd : Multiset Nat) = s.pushed.map Prod.snd := by
  have hzero : ∑ k, (t.cons k).taken = 0 := by
    apply Finset.sum_eq_zero
    intro k _
    rcases h.still_cons hs k with ⟨-, hc⟩ | ⟨n, -, -, hc⟩ <;> rw [hc] <;> rfl
  have htaken : (s.popped.map Prod.snd : Multiset Nat) = s.output := by
    rw [h.taken, hzero, add_zero, h.printed]
  rw [← htaken, Multiset.coe_add, ← List.map_append, Multiset.coe_eq_coe]
  exact (h.inv.pushed_perm.trans List.perm_append_comm).symm.map Prod.snd

/-- Where nothing happens any more, everything has happened. -/
theorem Runs.over {s : St (ι ⊕ κ)} (h : Runs s t) (hs : Still s) : Over s := by
  have hconsumed := h.still_output hs
  obtain ⟨hsum, hmin⟩ := count_printed h.sections h.counted (fun i => (h.still_prod hs i).2)
    fun k => by
      rcases h.still_cons hs k with ⟨-, hc⟩ | ⟨n, hn, -, hc⟩
      · exact .inl hc
      · exact .inr ⟨h.still_head hs ⟨k, n, hc⟩, n, hn, hc⟩
  rw [h.head, h.printed] at hsum
  rw [h.printed] at hmin
  refine ⟨fun i => (h.still_prod hs i).1, fun k => ?_, hconsumed, ?_, hmin⟩
  · rcases h.still_cons hs k with ⟨hk, -⟩ | ⟨n, hn, hk, hc⟩
    · exact .inl hk
    · exact .inr ⟨h.head_none (h.still_head hs ⟨k, n, hc⟩), n, hn, hk⟩
  · have hlen := congrArg Multiset.card hconsumed
    simp only [Multiset.coe_add, Multiset.coe_card, List.length_append, List.length_map]
      at hlen hsum
    omega

theorem Runs.step {s s' : St (ι ⊕ κ)} (h : Runs s t) (hs : Nodes.step s a = some s') :
    ∃ t', Runs s' t' := by
  have hf := h.toFree.step h.inv hs
  rcases simulates.step s a s' t h.toSimulated trivial hs with hm | ⟨b, t', hb, hm⟩
  · exact ⟨t, hm, hf, h.sections, h.counted⟩
  · exact ⟨t', hm, hf, h.sections.step hb, h.counted.step hb⟩

theorem runs_start : ∃ t, Runs (start : St (ι ⊕ κ)) t := by
  obtain ⟨t, ht, hm⟩ := simulates.init (start : St (ι ⊕ κ)) rfl
  obtain rfl : t = ProdCons.start := ht
  refine ⟨_, hm, ⟨nofun, 0, fun _ _ => rfl⟩, .start, ?_⟩
  simp only [Counted, ProdCons.start, total_const]
  rfl

/-- Where no wakeup is spurious every schedule of the statements comes to an end, with as much
printed as there could be. -/
theorem inevitable_over : (calm ι κ).Inevitable Over start := by
  apply Sys.Inevitable.of_wellFounded (S := calm ι κ) (I := fun s => ∃ t, Runs s t)
    (InvImage.wf St.rank Nat.lt_wfRel.wf)
  · rintro s ⟨t, h⟩ hg
    by_contra hno
    refine hg (h.over fun a ha => ?_)
    by_contra hs
    obtain ⟨s', hs'⟩ := Option.ne_none_iff_exists'.1 hs
    exact hno ⟨a, s', (if_pos ha).trans hs'⟩
  · rintro s a s' ⟨t, h⟩ - hs
    obtain ⟨ha, hs⟩ := Option.ite_none_right_eq_some.1 hs
    exact ⟨h.step hs, St.rank_step h.inv ha hs⟩
  · exact runs_start

end LinuxIpc.ProdCons.Nodes
