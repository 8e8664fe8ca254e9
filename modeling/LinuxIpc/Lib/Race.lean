import LinuxIpc.Lib.Family
import LinuxIpc.Lib.Transition

namespace LinuxIpc.Race
set_option autoImplicit true

open Function (update update_self update_of_ne)

/-- Where a thread stands that increments a shared counter, the load and the store being steps of
their own, and then tells what it had loaded. -/
inductive Pc
  | load (k : Nat)
  | store (k v : Nat)
  | tell (k v : Nat)
  deriving DecidableEq

structure St (τ : Type u) where
  counter : Nat
  pc : τ → Pc
  told : List (τ × Nat)
  /-- The values that have been incremented and stored, the latest first. -/
  stored : List Nat

set_option linter.unusedSectionVars false

variable {τ : Type u} [DecidableEq τ] {n : Nat}

/-- The threads make `n` rounds each. -/
def step (n : Nat) (s : St τ) (t : τ) : Option (St τ) :=
  match s.pc t with
  | .load k => if k < n then some { s with pc := update s.pc t (.store k s.counter) } else none
  | .store k v => some { s with
      counter := v + 1
      pc := update s.pc t (.tell k v)
      stored := v :: s.stored }
  | .tell k v => some { s with
      pc := update s.pc t (.load (k + 1))
      told := s.told ++ [(t, v)] }

def start : St τ := ⟨0, fun _ => .load 0, [], []⟩

variable (τ) in
def sys (n : Nat) : Sys (St τ) τ := ⟨(· = start), step n⟩

/-- All threads are through. -/
def Ended (n : Nat) (s : St τ) : Prop := ∀ t, s.pc t = .load n

/-- The stores that a thread has made. -/
def Pc.stores : Pc → Nat
  | .load k | .store k _ => k
  | .tell k _ => k + 1

/-- What a thread has still to tell of what it has stored. -/
def Pc.untold : Pc → Multiset Nat
  | .tell _ v => {v}
  | _ => 0

@[simp] theorem Pc.untold_load (k : Nat) : (Pc.load k).untold = 0 := rfl
@[simp] theorem Pc.untold_store (k v : Nat) : (Pc.store k v).untold = 0 := rfl
@[simp] theorem Pc.untold_tell (k v : Nat) : (Pc.tell k v).untold = {v} := rfl

/-- What is known of a thread when `m` stores have been made by all. -/
def Pc.Ok (n m counter : Nat) : Pc → Prop
  | .load k => k ≤ n
  | .store k v => k < n ∧ (0 < k → 0 < v) ∧ v ≤ m ∧ (v = m → counter = m)
  | .tell k _ => k < n

theorem Pc.Ok.stores_le {pc : Pc} (h : pc.Ok n m c) : pc.stores ≤ n := by
  cases pc with
  | load k => exact h
  | store k v => exact Nat.le_of_lt h.1
  | tell k v => exact h

/-- A store by another thread. -/
theorem Pc.Ok.succ {pc : Pc} (h : pc.Ok n m c) (c' : Nat) : pc.Ok n (m + 1) c' := by
  cases pc with
  | store k v =>
    obtain ⟨hk, hpos, hle, -⟩ := h
    exact ⟨hk, hpos, Nat.le_succ_of_le hle,
      fun he => absurd he (Nat.ne_of_lt (Nat.lt_succ_of_le hle))⟩
  | load k => exact h
  | tell k v => exact h

theorem step_cases {s s' : St τ} (h : step n s t = some s') :
    (∃ k, s.pc t = .load k ∧ k < n ∧
      s' = { s with pc := update s.pc t (.store k s.counter) }) ∨
    (∃ k v, s.pc t = .store k v ∧
      s' = { s with counter := v + 1, pc := update s.pc t (.tell k v), stored := v :: s.stored }) ∨
    ∃ k v, s.pc t = .tell k v ∧
      s' = { s with pc := update s.pc t (.load (k + 1)), told := s.told ++ [(t, v)] } := by
  unfold step at h
  split at h
  · rename_i k hk
    obtain ⟨hn, rfl⟩ := of_guard h
    exact .inl ⟨k, hk, hn, rfl⟩
  · rename_i k v hk
    exact .inr (.inl ⟨k, v, hk, (Option.some.inj h).symm⟩)
  · rename_i k v hk
    exact .inr (.inr ⟨k, v, hk, (Option.some.inj h).symm⟩)

variable [Fintype τ]

/-- A value is at most the number of stores there were before it was loaded, and where it is that
number no store has been lost. -/
structure Inv (n : Nat) (s : St τ) : Prop where
  threads : ∀ t, (s.pc t).Ok n s.stored.length s.counter
  count : s.stored.length = total Pc.stores s.pc
  told : (s.stored : Multiset Nat) = (s.told.map Prod.snd : List Nat) + ∑ t, (s.pc t).untold
  below : ∀ v ∈ s.stored, v < s.stored.length
  latest : ∀ v ∈ s.stored, v + 1 = s.stored.length → s.counter = s.stored.length
  counter_le : s.counter ≤ s.stored.length
  exact : s.counter = s.stored.length → s.stored.Nodup
  pos : s.stored ≠ [] → 0 < s.counter
  two : 2 ≤ n → (∃ t, (s.pc t).stores < n) ∨ 2 ≤ s.counter

theorem Inv.start [Nonempty τ] : Inv n (start : St τ) where
  threads _ := Nat.zero_le n
  count := by
    simp only [Race.start, total_const]
    rfl
  told := by
    change (0 : Multiset Nat) = 0 + ∑ _ : τ, 0
    rw [Finset.sum_const_zero, add_zero]
  below := nofun
  latest := nofun
  counter_le := Nat.zero_le _
  exact _ := List.nodup_nil
  pos h := (h rfl).elim
  two h := .inl ⟨Classical.arbitrary τ, Nat.lt_of_lt_of_le Nat.zero_lt_two h⟩

theorem Inv.stored_ne_nil {s : St τ} (h : Inv n s) (ht : 0 < (s.pc t).stores) : s.stored ≠ [] := by
  have hle := le_total Pc.stores s.pc t
  apply List.ne_nil_of_length_pos
  rw [h.count]
  omega

/-- What a move that stores nothing leaves as it is. -/
theorem stores_update {s : St τ} (h : pc.stores = (s.pc t).stores) (u : τ) :
    (update s.pc t pc u).stores = (s.pc u).stores := update_same Pc.stores h u

theorem Inv.load {s : St τ} (h : Inv n s) (ht : s.pc t = .load k) (hk : k < n) :
    Inv n { s with pc := update s.pc t (.store k s.counter) } := by
  have hstores (u : τ) : (update s.pc t (.store k s.counter) u).stores = (s.pc u).stores :=
    stores_update (by rw [ht]; rfl) u
  exact { h with
    threads := by
      intro u
      by_cases hu : u = t
      · subst hu
        simp only [update_self]
        refine ⟨hk, fun h0 => h.pos (h.stored_ne_nil (t := u) ?_), h.counter_le, id⟩
        rwa [ht]
      · simp only [update_of_ne hu]
        exact h.threads u
    count := h.count.trans (total_congr _ _ _ fun u => (hstores u).symm)
    told := by
      have hsum := sum_move Pc.untold s.pc t (.store k s.counter)
      simp only [ht, Pc.untold_load, Pc.untold_store, add_zero] at hsum
      rw [h.told, ← hsum]
    two := fun h2 => (h.two h2).imp (fun ⟨u, hu⟩ => ⟨u, (hstores u).symm ▸ hu⟩) id }

theorem Inv.store {s : St τ} (h : Inv n s) (ht : s.pc t = .store k v) :
    Inv n { s with
      counter := v + 1, pc := update s.pc t (.tell k v), stored := v :: s.stored } := by
  have hok := h.threads t
  rw [ht] at hok
  obtain ⟨hk, hpos, hle, heq⟩ := hok
  constructor
  case threads =>
    intro u
    by_cases hu : u = t
    · subst hu
      simp only [update_self]
      exact hk
    · simp only [update_of_ne hu]
      exact (h.threads u).succ _
  case count =>
    have hcount := total_update Pc.stores s.pc t (.tell k v)
    rw [ht, ← h.count] at hcount
    simp only [Pc.stores] at hcount
    simp only [List.length_cons]
    omega
  case told =>
    have hsum := sum_move Pc.untold s.pc t (.tell k v)
    simp only [ht, Pc.untold_store, Pc.untold_tell, add_zero] at hsum
    rw [hsum, ← Multiset.cons_coe, h.told, ← Multiset.singleton_add]
    ac_rfl
  case below =>
    intro w hw
    rcases List.mem_cons.1 hw with rfl | hw
    · exact Nat.lt_succ_of_le hle
    · exact Nat.lt_succ_of_lt (h.below w hw)
  case latest =>
    intro w hw he
    rcases List.mem_cons.1 hw with rfl | hw
    · exact he
    · exact absurd (Nat.succ.inj he) (Nat.ne_of_lt (h.below w hw))
  case counter_le => exact Nat.succ_le_succ hle
  case exact =>
    intro he
    have hv : v = s.stored.length := Nat.succ.inj he
    refine List.nodup_cons.2 ⟨fun hm => ?_, h.exact (heq hv)⟩
    exact absurd hv (Nat.ne_of_lt (h.below v hm))
  case pos => exact fun _ => Nat.succ_pos v
  case two =>
    intro h2
    by_cases hn : k + 1 < n
    · refine .inl ⟨t, ?_⟩
      simp only [update_self]
      exact hn
    · exact .inr (Nat.succ_le_succ (hpos (by omega)))

theorem Inv.tell {s : St τ} (h : Inv n s) (ht : s.pc t = .tell k v) :
    Inv n { s with pc := update s.pc t (.load (k + 1)), told := s.told ++ [(t, v)] } := by
  have hok := h.threads t
  rw [ht] at hok
  have hstores (u : τ) : (update s.pc t (.load (k + 1)) u).stores = (s.pc u).stores :=
    stores_update (by rw [ht]; rfl) u
  exact { h with
    threads := by
      intro u
      by_cases hu : u = t
      · subst hu
        simp only [update_self]
        exact hok
      · simp only [update_of_ne hu]
        exact h.threads u
    count := h.count.trans (total_congr _ _ _ fun u => (hstores u).symm)
    told := by
      have hsum := sum_move Pc.untold s.pc t (.load (k + 1))
      simp only [ht, Pc.untold_load, Pc.untold_tell, add_zero] at hsum
      rw [h.told, ← hsum, List.map_append, ← Multiset.coe_add]
      ac_rfl
    two := fun h2 => (h.two h2).imp (fun ⟨u, hu⟩ => ⟨u, (hstores u).symm ▸ hu⟩) id }

theorem Inv.step {s s' : St τ} (h : Inv n s) (hs : Race.step n s t = some s') : Inv n s' := by
  rcases step_cases hs with ⟨k, ht, hk, rfl⟩ | ⟨k, v, ht, rfl⟩ | ⟨k, v, ht, rfl⟩
  · exact h.load ht hk
  · exact h.store ht
  · exact h.tell ht

theorem inv_of_reachable [Nonempty τ] {s : St τ} (h : (sys τ n).Reachable s) : Inv n s :=
  h.invariant (fun _ hs => hs ▸ .start) fun _ _ _ hI _ hs => hI.step hs

section End
variable {s : St τ}

theorem Inv.length_stored (h : Inv n s) (he : Ended n s) :
    s.stored.length = Fintype.card τ * n := by
  rw [h.count]
  exact total_of_forall _ _ n fun t => by rw [he t]; rfl

theorem Inv.told_perm (h : Inv n s) (he : Ended n s) : s.stored.Perm (s.told.map Prod.snd) := by
  have hzero : ∑ t, (s.pc t).untold = 0 := Finset.sum_eq_zero fun t _ => by rw [he t]; rfl
  rw [← Multiset.coe_eq_coe, h.told, hzero, add_zero]

/-- Two stores at least are not undone, those of the last round of all and of the one before it in
the same thread. -/
theorem Inv.two_le (h : Inv n s) (he : Ended n s) (h2 : 2 ≤ n) : 2 ≤ s.counter := by
  rcases h.two h2 with ⟨t, ht⟩ | h2
  · rw [he t] at ht
    exact absurd ht (Nat.lt_irrefl n)
  · exact h2

theorem Inv.counter_le_total (h : Inv n s) : s.counter ≤ Fintype.card τ * n := by
  apply Nat.le_trans h.counter_le
  rw [h.count]
  exact total_le _ _ n fun t => (h.threads t).stores_le

theorem Inv.told_lt (h : Inv n s) (he : Ended n s) (hv : v ∈ s.told.map Prod.snd) :
    v < Fintype.card τ * n := by
  rw [← h.length_stored he]
  exact h.below v ((h.told_perm he).mem_iff.2 hv)

/-- No increment is lost exactly where no value is told twice. -/
theorem Inv.nodup_iff [Nonempty τ] (h : Inv n s) (he : Ended n s) (hn : 0 < n) :
    (s.told.map Prod.snd).Nodup ↔ s.counter = Fintype.card τ * n := by
  rw [← (h.told_perm he).nodup_iff, ← h.length_stored he]
  refine ⟨fun hd => ?_, h.exact⟩
  have hpos : 0 < s.stored.length := by
    rw [h.length_stored he]
    exact Nat.mul_pos Fintype.card_pos hn
  suffices hm : s.stored.length - 1 ∈ s.stored from h.latest _ hm (Nat.sub_add_cancel hpos)
  by_contra hm
  have hsub : s.stored ⊆ List.range (s.stored.length - 1) := by
    intro v hv
    have hlt := h.below v hv
    have hne : v ≠ s.stored.length - 1 := fun he => hm (he ▸ hv)
    exact List.mem_range.2 (by omega)
  have hlen := (List.subperm_of_subset hd hsub).length_le
  rw [List.length_range] at hlen
  omega

end End

def Pc.rank (n : Nat) : Pc → Nat
  | .load k => 3 * (n - k)
  | .store k _ => 3 * (n - k - 1) + 2
  | .tell k _ => 3 * (n - k - 1) + 1

/-- Every schedule ends. -/
theorem inevitable_ended [Nonempty τ] :
    (sys τ n).Inevitable (fun s => Ended n s ∧ Inv n s) start := by
  apply Sys.Inevitable.of_wellFounded (S := sys τ n) (I := Inv n)
    (InvImage.wf (fun s => total (Pc.rank n) s.pc) Nat.lt_wfRel.wf)
  · intro s h hg
    obtain ⟨t, ht⟩ := not_forall.1 fun he : Ended n s => hg ⟨he, h⟩
    refine ⟨t, ?_⟩
    have hok := h.threads t
    change ∃ s', step n s t = some s'
    unfold step
    split
    · rename_i k hk
      rw [hk] at hok ht
      exact ⟨_, if_pos (Nat.lt_of_le_of_ne hok fun he => ht (congrArg _ he))⟩
    · exact ⟨_, rfl⟩
    · exact ⟨_, rfl⟩
  · intro s t s' h _ hs
    refine ⟨h.step hs, ?_⟩
    rcases step_cases hs with ⟨k, ht, hk, rfl⟩ | ⟨k, v, ht, rfl⟩ | ⟨k, v, ht, rfl⟩
    · refine total_update_lt ?_
      rw [ht, Pc.rank, Pc.rank]
      omega
    · refine total_update_lt ?_
      rw [ht, Pc.rank, Pc.rank]
      omega
    · refine total_update_lt ?_
      rw [ht, Pc.rank, Pc.rank]
      omega
  · exact .start

section Schedules
variable {s : St τ}

/-- A thread loads the counter. -/
theorem reach_load (h : (sys τ n).Reachable s) (ht : s.pc t = .load k) (hk : k < n) :
    ∃ s', (sys τ n).Reachable s' ∧ s'.counter = s.counter ∧ s'.pc t = .store k s.counter ∧
      ∀ u, u ≠ t → s'.pc u = s.pc u := by
  have hs : step n s t = some { s with pc := update s.pc t (.store k s.counter) } := by
    simp only [step, ht, if_pos hk]
  exact ⟨_, .step h trivial hs, rfl, update_self .., fun u hu => update_of_ne hu ..⟩

/-- It comes to its store, and goes on to the next round. -/
theorem reach_store (h : (sys τ n).Reachable s) (ht : s.pc t = .store k v) :
    ∃ s', (sys τ n).Reachable s' ∧ s'.counter = v + 1 ∧ s'.pc t = .load (k + 1) ∧
      ∀ u, u ≠ t → s'.pc u = s.pc u := by
  have hs : step n s t = some { s with
      counter := v + 1
      pc := update s.pc t (.tell k v)
      stored := v :: s.stored } := by simp only [step, ht]
  have ht' : (update s.pc t (.tell k v)) t = .tell k v := update_self ..
  have hs' : step n { s with
      counter := v + 1
      pc := update s.pc t (.tell k v)
      stored := v :: s.stored } t =
        some ⟨v + 1, update (update s.pc t (.tell k v)) t (.load (k + 1)),
          s.told ++ [(t, v)], v :: s.stored⟩ := by simp only [step, ht']
  refine ⟨_, .step (.step h trivial hs) trivial hs', rfl, update_self .., fun u hu => ?_⟩
  simp only [update_of_ne hu]

/-- Rounds of a thread that no other one interrupts. -/
theorem reach_rounds (h : (sys τ n).Reachable s) (ht : s.pc t = .load k) (hj : k + j ≤ n) :
    ∃ s', (sys τ n).Reachable s' ∧ s'.counter = s.counter + j ∧ s'.pc t = .load (k + j) ∧
      ∀ u, u ≠ t → s'.pc u = s.pc u := by
  induction j with
  | zero => exact ⟨s, h, rfl, ht, fun _ _ => rfl⟩
  | succ j ih =>
    obtain ⟨s₁, h₁, hc₁, ht₁, ho₁⟩ := ih (by omega)
    obtain ⟨s₂, h₂, hc₂, ht₂, ho₂⟩ := reach_load h₁ ht₁ (by omega)
    obtain ⟨s₃, h₃, hc₃, ht₃, ho₃⟩ := reach_store h₂ ht₂
    refine ⟨s₃, h₃, ?_, ht₃, fun u hu => ?_⟩
    · rw [hc₃, hc₁]
      rfl
    · rw [ho₃ u hu, ho₂ u hu, ho₁ u hu]

/-- Two threads can come to any counter between 2 and the number of their stores. -/
theorem reach_ended {a b : τ} (hab : a ≠ b) (hall : ∀ t, t = a ∨ t = b) (hn : 2 ≤ n)
    (h2 : 2 ≤ v) (hv : v ≤ 2 * n) :
    ∃ s, (sys τ n).Reachable s ∧ Ended n s ∧ s.counter = v := by
  have hended {s : St τ} (ha : s.pc a = .load n) (hb : s.pc b = .load n) : Ended n s := by
    intro t
    rcases hall t with rfl | rfl
    · exact ha
    · exact hb
  obtain ⟨s₁, h₁, hc₁, ha₁, ho₁⟩ := reach_load (t := a) (.init rfl : (sys τ n).Reachable start) rfl
    (by omega)
  have hb₁ : s₁.pc b = .load 0 := ho₁ b hab.symm
  by_cases hvn : v ≤ n + 1
  · -- `b` falls back to what `a` has stored after its first round, and writes over all after it
    obtain ⟨s₂, h₂, hc₂, hb₂, ho₂⟩ := reach_rounds (j := n - 1) h₁ hb₁ (by omega)
    obtain ⟨s₃, h₃, hc₃, ha₃, ho₃⟩ := reach_store h₂ ((ho₂ a hab).trans ha₁)
    obtain ⟨s₄, h₄, hc₄, ha₄, ho₄⟩ := reach_rounds (j := v - 2) h₃ ha₃ (by omega)
    have hb₄ : s₄.pc b = .load (0 + (n - 1)) :=
      (ho₄ b hab.symm).trans ((ho₃ b hab.symm).trans hb₂)
    obtain ⟨s₅, h₅, -, hb₅, ho₅⟩ := reach_load h₄ hb₄ (by omega)
    obtain ⟨s₆, h₆, -, ha₆, ho₆⟩ := reach_rounds (j := n + 1 - v) h₅
      ((ho₅ a hab).trans ha₄) (by omega)
    obtain ⟨s₇, h₇, hc₇, hb₇, ho₇⟩ := reach_store h₆ ((ho₆ b hab.symm).trans hb₅)
    refine ⟨s₇, h₇, hended ?_ ?_, ?_⟩
    · rw [ho₇ a hab, ha₆]
      congr 1
      omega
    · rw [hb₇]
      congr 1
      omega
    · rw [hc₇, hc₄, hc₃]
      change 0 + 1 + (v - 2) + 1 = v
      omega
  · -- `a` writes over the first rounds of `b` only.
    obtain ⟨s₂, h₂, hc₂, hb₂, ho₂⟩ := reach_rounds (j := 2 * n - v) h₁ hb₁ (by omega)
    obtain ⟨s₃, h₃, hc₃, ha₃, ho₃⟩ := reach_store h₂ ((ho₂ a hab).trans ha₁)
    obtain ⟨s₄, h₄, hc₄, hb₄, ho₄⟩ := reach_rounds (j := v - n) h₃ ((ho₃ b hab.symm).trans hb₂)
      (by omega)
    obtain ⟨s₅, h₅, hc₅, ha₅, ho₅⟩ := reach_rounds (j := n - 1) h₄ ((ho₄ a hab).trans ha₃)
      (by omega)
    refine ⟨s₅, h₅, hended ?_ ?_, ?_⟩
    · rw [ha₅]
      congr 1
      omega
    · rw [ho₅ b hab.symm, hb₄]
      congr 1
      omega
    · rw [hc₅, hc₄, hc₃]
      change 0 + 1 + (v - n) + (n - 1) = v
      omega

end Schedules

end LinuxIpc.Race
