import LinuxIpc.ProdCons.Sections

namespace LinuxIpc.ProdCons
set_option autoImplicit true
set_option linter.unusedSectionVars false

open Function (update)

variable {ι κ : Type} [DecidableEq ι] [Fintype ι] [DecidableEq κ] [Fintype κ]

/-- What every interleaving preserves. While a consumer waits, each node of the chain is covered
by a signal still to be sent or by a woken consumer. -/
structure Inv (s : St ι κ) : Prop where
  prod : ∀ i, (s.prod i).InRounds
  cons : ∀ k, (s.cons k).InRounds
  stock : s.head.length + total Consumer.pops s.cons = total Producer.pushes s.prod
  covered : (∃ k, (s.cons k).isWaiting) →
    s.head.length ≤ total Producer.pending s.prod + total Consumer.retests s.cons

theorem Inv.start : Inv (start : St ι κ) where
  prod _ := Nat.zero_le _
  cons _ := Nat.zero_le _
  stock := by simp only [ProdCons.start, total_const, Consumer.pops, Producer.pushes]; rfl
  covered _ := Nat.zero_le _

theorem update_producer {p : ι → Producer} (h : ∀ i, (p i).InRounds) (i : ι)
    (hq : Producer.InRounds q) : ∀ j, (update p i q j).InRounds :=
  (Function.forall_update_iff p fun _ q => q.InRounds).2 ⟨hq, fun j _ => h j⟩

theorem update_consumer {c : κ → Consumer} (h : ∀ k, (c k).InRounds) (k : κ)
    (hd : Consumer.InRounds d) : ∀ j, (update c k d j).InRounds :=
  (Function.forall_update_iff c fun _ d => d.InRounds).2 ⟨hd, fun j _ => h j⟩

/-- A waiter after a move of `k` was a waiter before, unless the move itself put `k` to wait. -/
theorem waiting_of_update {c : κ → Consumer} (h : ∃ j, (update c k d j).isWaiting) :
    d.isWaiting ∨ ∃ j, (c j).isWaiting := by
  rcases (Function.exists_update_iff c fun _ d => d.isWaiting = true).1 h with hd | ⟨j, _, hj⟩
  · exact .inl hd
  · exact .inr ⟨j, hj⟩

theorem Inv.push {s : St ι κ} (h : Inv s) (hi : n < rounds) (hp : s.prod i = .produce n) :
    Inv { s with prod := update s.prod i (.signal n), head := v :: s.head } := by
  have hpush := total_update Producer.pushes s.prod i (.signal n)
  have hpend := total_update Producer.pending s.prod i (.signal n)
  simp only [hp, Producer.pushes] at hpush
  simp only [hp, Producer.pending] at hpend
  refine ⟨update_producer h.prod i hi, h.cons, ?_, fun hw => ?_⟩
  · have hs := h.stock
    simp only [List.length_cons]
    omega
  · have hc := h.covered hw
    simp only [List.length_cons]
    omega

/-- The threads woken by a signal are to test `head` again; where there was a waiter there is at
least one. -/
theorem Wakes.retests {c : κ → Consumer} {ws : Finset κ} (hw : Wakes c ws)
    (h : ∃ k, (c k).isWaiting) : total Consumer.retests c + 1 ≤
      total Consumer.retests (fun k => if k ∈ ws then (c k).wake else c k) := by
  obtain ⟨k, hk⟩ := hw.2 h
  obtain ⟨n, hn⟩ := Consumer.isWaiting_iff.1 (hw.1 k hk)
  refine total_lt (i := k) _ _ _ (fun j => ?_) ?_
  · split
    · exact Consumer.le_wake_retests _
    · exact Nat.le_refl _
  · simp only [if_pos hk, hn]
    exact Nat.zero_lt_one

theorem Inv.signal {s : St ι κ} (h : Inv s) (hp : s.prod i = .signal n) (hw : Wakes s.cons ws) :
    Inv { s with
      prod := update s.prod i (.produce (n + 1))
      cons := fun k => if k ∈ ws then (s.cons k).wake else s.cons k } := by
  have hpush := total_update Producer.pushes s.prod i (.produce (n + 1))
  have hpend := total_update Producer.pending s.prod i (.produce (n + 1))
  simp only [hp, Producer.pushes] at hpush
  simp only [hp, Producer.pending] at hpend
  have hn : n < rounds := by have := h.prod i; rwa [hp] at this
  have hpops : total Consumer.pops (fun k => if k ∈ ws then (s.cons k).wake else s.cons k) =
      total Consumer.pops s.cons := by
    apply total_congr
    intro k
    split
    · exact Consumer.wake_pops _
    · rfl
  refine ⟨update_producer h.prod i hn, fun k => ?_, ?_, fun ⟨k, hk⟩ => ?_⟩
  · dsimp only
    split
    · exact (h.cons k).wake
    · exact h.cons k
  · have hs := h.stock
    simp only [hpops]
    omega
  · have hwait : ∃ k, (s.cons k).isWaiting := by
      refine ⟨k, ?_⟩
      dsimp only at hk
      split at hk
      · rw [Consumer.wake_not_waiting] at hk; cases hk
      · exact hk
    have hc := h.covered hwait
    have hr := hw.retests hwait
    simp only
    omega

/-- A consumer waits only on an empty chain, so it needs no cover; one that takes a node uses up
at most its own. -/
theorem Inv.enter {s : St ι κ} (h : Inv s)
    (hk : s.cons k = .consume n ∧ n < rounds ∨ s.cons k = .woken n)
    (hd : s.head = [] ∧ d = .waiting n ∧ head = [] ∨ ∃ v, s.head = v :: head ∧ d = .took n v) :
    Inv { s with cons := update s.cons k d, head := head } := by
  have hpops := total_update Consumer.pops s.cons k d
  have hret := total_update Consumer.retests s.cons k d
  have hn : n < rounds ∧ (s.cons k).pops = n ∧ (s.cons k).retests ≤ 1 := by
    rcases hk with ⟨hk, hn⟩ | hk
    · rw [hk]; exact ⟨hn, rfl, Nat.zero_le _⟩
    · have := h.cons k
      rw [hk] at this ⊢
      exact ⟨this, rfl, Nat.le_refl _⟩
  have hs := h.stock
  rcases hd with ⟨he, rfl, rfl⟩ | ⟨v, he, rfl⟩
  · refine ⟨h.prod, update_consumer h.cons k hn.1, ?_, fun _ => Nat.zero_le _⟩
    simp only [he, List.length_nil] at hs ⊢
    rw [hn.2.1] at hpops
    have hd : (Consumer.waiting n).pops = n := rfl
    omega
  · simp only [he, List.length_cons] at hs
    refine ⟨h.prod, update_consumer h.cons k hn.1, ?_, fun hw => ?_⟩
    · rw [hn.2.1] at hpops
      have hd : (Consumer.took n v).pops = n + 1 := rfl
      simp only
      omega
    · rcases waiting_of_update hw with hw | hw
      · cases hw
      · have hc := h.covered hw
        have hle := hn.2.2
        simp only [he, List.length_cons] at hc ⊢
        omega

theorem Inv.print {s : St ι κ} (h : Inv s) (hk : s.cons k = .took n v) :
    Inv { s with cons := update s.cons k (.consume (n + 1)), printed := p } := by
  have hpops := total_update Consumer.pops s.cons k (.consume (n + 1))
  have hret := total_update Consumer.retests s.cons k (.consume (n + 1))
  simp only [hk, Consumer.pops] at hpops
  simp only [hk, Consumer.retests] at hret
  have hn : n < rounds := by have := h.cons k; rwa [hk] at this
  have hs := h.stock
  refine ⟨h.prod, update_consumer h.cons k hn, ?_, fun hw => ?_⟩
  · simp only
    omega
  · rcases waiting_of_update hw with hw | hw
    · cases hw
    · have hc := h.covered hw
      simp only
      omega

theorem Inv.spurious {s : St ι κ} (h : Inv s) (hk : (s.cons k).isWaiting) :
    Inv { s with cons := update s.cons k (s.cons k).wake } := by
  have hpops := total_update Consumer.pops s.cons k (s.cons k).wake
  have hret := total_update Consumer.retests s.cons k (s.cons k).wake
  have hle := Consumer.le_wake_retests (s.cons k)
  rw [Consumer.wake_pops] at hpops
  have hs := h.stock
  have hc := h.covered ⟨k, hk⟩
  refine ⟨h.prod, update_consumer h.cons k (h.cons k).wake, ?_, fun _ => ?_⟩
  · simp only
    omega
  · simp only
    omega

theorem Inv.step {s t : St ι κ} (h : Inv s) (hs : ProdCons.step s a = some t) : Inv t := by
  cases a with
  | push i r =>
    simp only [ProdCons.step, Option.map_eq_some_iff, Prod.exists] at hs
    obtain ⟨p, head, hp, rfl⟩ := hs
    obtain ⟨n, hn, hi, rfl, rfl⟩ := Producer.push_eq hp
    exact h.push hn hi
  | signal i ws =>
    simp only [ProdCons.step, Option.ite_none_right_eq_some, Option.map_eq_some_iff] at hs
    obtain ⟨hw, p, hp, rfl⟩ := hs
    obtain ⟨n, hi, rfl⟩ := Producer.signalled_eq hp
    exact h.signal hi hw
  | enter k =>
    simp only [ProdCons.step, Option.map_eq_some_iff, Prod.exists] at hs
    obtain ⟨c, head, hc, rfl⟩ := hs
    obtain ⟨n, hk, hd⟩ := Consumer.enter_eq hc
    exact h.enter hk hd
  | print k =>
    simp only [ProdCons.step, Option.map_eq_some_iff, Prod.exists] at hs
    obtain ⟨c, num, hc, rfl⟩ := hs
    obtain ⟨n, hk, rfl⟩ := Consumer.print_eq hc
    exact h.print hk
  | spurious k =>
    obtain ⟨hk, rfl⟩ := of_guard hs
    exact h.spurious hk

theorem inv_of_reachable {s : St ι κ} (h : (sys ι κ).Reachable s) : Inv s :=
  h.invariant (fun _ hs => hs ▸ .start) fun _ _ _ hI _ hs => hI.step hs

theorem Inv.not_lostWakeup {s : St ι κ} (h : Inv s) : ¬ LostWakeup s := by
  rintro ⟨hne, ⟨k, i, hk⟩, hsig, hwok⟩
  have hpend : total Producer.pending s.prod = 0 := by
    rw [total_eq_zero]
    intro j
    cases hj : s.prod j with
    | produce n => rfl
    | signal n => exact (hsig j n hj).elim
  have hret : total Consumer.retests s.cons = 0 := by
    rw [total_eq_zero]
    intro j
    cases hj : s.cons j with
    | woken n => exact (hwok j n hj).elim
    | consume n => rfl
    | waiting n => rfl
    | took n v => rfl
  have hc := h.covered ⟨k, Consumer.isWaiting_iff.2 ⟨i, hk⟩⟩
  have hlen := List.length_pos_iff.2 hne
  omega

/-- A step that does not rest on a spurious wakeup. -/
def Act.Genuine : Act ι κ → Prop
  | .spurious _ => False
  | _ => True

theorem producer_enabled {s : St ι κ} (hr : (s.prod i).InRounds) (h : s.prod i ≠ .produce rounds) :
    ∃ a : Act ι κ, a.Genuine ∧ (step s a).isSome := by
  cases hp : s.prod i with
  | produce n =>
    rw [hp] at h hr
    have hle : n ≤ rounds := hr
    have hn : n < rounds := Nat.lt_of_le_of_ne hle fun he => h (he ▸ rfl)
    refine ⟨.push i 0, trivial, ?_⟩
    simp only [step, hp, Producer.push, if_pos hn, Option.map_some, Option.isSome_some]
  | signal n =>
    refine ⟨.signal i (Finset.univ.filter fun k => (s.cons k).isWaiting), trivial, ?_⟩
    have hw : Wakes s.cons (Finset.univ.filter fun k => (s.cons k).isWaiting) := by
      refine ⟨fun k hk => (Finset.mem_filter.1 hk).2, ?_⟩
      rintro ⟨k, hk⟩
      exact ⟨k, Finset.mem_filter.2 ⟨Finset.mem_univ k, hk⟩⟩
    simp only [step, if_pos hw, hp, Producer.signalled, Option.map_some, Option.isSome_some]

theorem consumer_enabled {s : St ι κ} (hr : (s.cons k).InRounds) (h : s.cons k ≠ .consume rounds)
    (hw : (s.cons k).isWaiting = false) : ∃ a : Act ι κ, a.Genuine ∧ (step s a).isSome := by
  cases hc : s.cons k with
  | consume n =>
    rw [hc] at h hr
    have hle : n ≤ rounds := hr
    have hn : n < rounds := Nat.lt_of_le_of_ne hle fun he => h (he ▸ rfl)
    refine ⟨.enter k, trivial, ?_⟩
    simp only [step, hc, Consumer.enter, if_pos hn, Option.map_some, Option.isSome_some]
  | woken n =>
    refine ⟨.enter k, trivial, ?_⟩
    simp only [step, hc, Consumer.enter, Option.map_some, Option.isSome_some]
  | took n v =>
    refine ⟨.print k, trivial, ?_⟩
    simp only [step, hc, Consumer.print, Option.map_some, Option.isSome_some]
  | waiting n => rw [hc] at hw; cases hw

theorem Consumer.InRounds.pops_le {c : Consumer} (h : c.InRounds) : c.pops ≤ rounds := by
  cases c with
  | consume n => exact h
  | waiting n => exact Nat.le_of_lt h
  | woken n => exact Nat.le_of_lt h
  | took n v => exact h

theorem Consumer.InRounds.pops_lt {c : Consumer} (h : c.InRounds) (hw : c.isWaiting) :
    c.pops < rounds := by
  obtain ⟨n, rfl⟩ := Consumer.isWaiting_iff.1 hw
  exact h

/-- Once the producers are done no consumer is left waiting: it would leave a node behind. -/
theorem Inv.no_waiter {s : St ι κ} (h : Inv s) (hcard : Fintype.card κ ≤ Fintype.card ι)
    (hp : ∀ i, s.prod i = .produce rounds) (hk : (s.cons k).isWaiting)
    (hw : ∀ j n, s.cons j ≠ .woken n) : False := by
  have hhead : s.head = [] := by
    by_contra hne
    refine h.not_lostWakeup ⟨hne, ⟨k, Consumer.isWaiting_iff.1 hk⟩, fun i n hi => ?_, hw⟩
    rw [hp i] at hi
    cases hi
  have hpush := total_of_forall Producer.pushes s.prod rounds fun i => by rw [hp i]; rfl
  have hpops := total_lt_card Consumer.pops s.cons rounds (fun j => (h.cons j).pops_le)
    ((h.cons k).pops_lt hk)
  have hs := h.stock
  rw [hhead, hpush, List.length_nil] at hs
  have hmul := Nat.mul_le_mul_right rounds hcard
  omega

theorem Inv.progress {s : St ι κ} (h : Inv s) (hcard : Fintype.card κ ≤ Fintype.card ι)
    (hf : ¬ Finished s) : ∃ a : Act ι κ, a.Genuine ∧ (ProdCons.step s a).isSome := by
  by_cases hp : ∀ i, s.prod i = .produce rounds
  · obtain ⟨k, hk⟩ : ∃ k, s.cons k ≠ .consume rounds := by
      by_contra hc
      exact hf ⟨hp, fun k => by_contra fun hk => hc ⟨k, hk⟩⟩
    cases hw : (s.cons k).isWaiting with
    | false => exact consumer_enabled (h.cons k) hk hw
    | true =>
      obtain ⟨j, n, hj⟩ : ∃ j n, s.cons j = .woken n := by
        by_contra hc
        exact h.no_waiter hcard hp hw fun j n hj => hc ⟨j, n, hj⟩
      refine consumer_enabled (h.cons j) ?_ ?_
      · rw [hj]; nofun
      · rw [hj]; rfl
  · obtain ⟨i, hi⟩ := not_forall.1 hp
    exact producer_enabled (h.prod i) hi

/-- In no reachable state is a node left that a waiter will not be told of, and with at least as
many producers as consumers the threads never block each other: unless all are done, some
thread has a step that is not a spurious wakeup. -/
theorem no_lost_wakeup_no_deadlock {s : St ι κ} (h : (sys ι κ).Reachable s) :
    ¬ LostWakeup s ∧ (Fintype.card κ ≤ Fintype.card ι → ¬ Finished s →
      ∃ a : Act ι κ, a.Genuine ∧ (step s a).isSome) :=
  ⟨(inv_of_reachable h).not_lostWakeup, fun hcard hf => (inv_of_reachable h).progress hcard hf⟩

/-- A consumer goes to wait and a node is linked before the signal. -/
theorem no_lost_wakeup_no_deadlock_pair : ∃ s : St (Fin 1) (Fin 1),
    (sys (Fin 1) (Fin 1)).run [.enter 0, .push 0 41] start = some s ∧
      s.head = [42] ∧ s.cons 0 = .waiting 0 ∧ ¬ LostWakeup s ∧
      ∃ a : Act (Fin 1) (Fin 1), a.Genuine ∧ (step s a).isSome := by
  have hr : ∃ s, (sys (Fin 1) (Fin 1)).run [.enter 0, .push 0 41] start = some s ∧
      s.head = [42] ∧ s.cons 0 = .waiting 0 ∧ s.prod 0 = .signal 0 := ⟨_, rfl, rfl, rfl, rfl⟩
  obtain ⟨s, hs, hhead, hcons, hprod⟩ := hr
  have h := no_lost_wakeup_no_deadlock (Sys.Reachable.of_run rfl hs)
  have hf : ¬ Finished s := by
    intro hf
    have h0 := hf.1 0
    rw [hprod] at h0
    cases h0
  exact ⟨s, hs, hhead, hcons, h.1, h.2 (Nat.le_refl _) hf⟩

end LinuxIpc.ProdCons
