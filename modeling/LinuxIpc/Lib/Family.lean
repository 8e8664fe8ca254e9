import Mathlib.Algebra.BigOperators.Fin
import Mathlib.Algebra.Order.BigOperators.Group.Finset
import Mathlib.Data.Fintype.BigOperators

namespace LinuxIpc
set_option autoImplicit true

open Function (update)

variable {ι : Type u} {α : Type v}

/-- What one party's change leaves as it is holds of every party as before. -/
theorem update_same [DecidableEq ι] {f : ι → α} (g : α → β) (h : g x = g (f k)) (j : ι) :
    g (update f k x j) = g (f j) := by
  by_cases hj : j = k
  · rw [hj, Function.update_self, h]
  · rw [Function.update_of_ne hj]

/-- No two parties in `p` have one key. -/
def Keyed (p : α → Bool) (key : α → β) (f : ι → α) : Prop :=
  ∀ i j, p (f i) → p (f j) → key (f i) = key (f j) → i = j

/-- Keys stay apart when one party is replaced and has a key that no other one has. -/
theorem Keyed.put [DecidableEq ι] {p : α → Bool} {key : α → β} {f : ι → α}
    (h : Keyed p key f) (hx : p x → ∀ j, j ≠ k → p (f j) → key (f j) ≠ key x) :
    Keyed p key (update f k x) := by
  intro i j hi hj he
  by_cases hik : i = k <;> by_cases hjk : j = k
  · rw [hik, hjk]
  · rw [hik, Function.update_self] at hi he
    rw [Function.update_of_ne hjk] at hj he
    exact (hx hi j hjk hj he.symm).elim
  · rw [hjk, Function.update_self] at hj he
    rw [Function.update_of_ne hik] at hi he
    exact (hx hj i hik hi he).elim
  · rw [Function.update_of_ne hik] at hi he
    rw [Function.update_of_ne hjk] at hj he
    exact h i j hi hj he

/-- A party in `p` may be replaced by one with its key. -/
theorem Keyed.replace [DecidableEq ι] {p : α → Bool} {key : α → β} {f : ι → α}
    (h : Keyed p key f) (hk : p (f k)) (hx : key x = key (f k)) : Keyed p key (update f k x) := by
  apply h.put
  intro _ j hj hpj he
  exact hj (h j k hpj hk (he.trans hx))

/-- A party that leaves `p` takes its key away. -/
theorem Keyed.drop [DecidableEq ι] {p : α → Bool} {key : α → β} {f : ι → α}
    (h : Keyed p key f) (hx : p x = false) : Keyed p key (update f k x) := by
  apply h.put
  intro hp
  rw [hx] at hp
  cases hp

variable [Fintype ι]

/-- What a finite family of parties has in total of some weight. -/
def total (w : α → Nat) (f : ι → α) : Nat := ∑ i, w (f i)

theorem total_const (w : α → Nat) (a : α) :
    total w (fun _ : ι => a) = Fintype.card ι * w a := by
  simp only [total, Finset.sum_const, Finset.card_univ, smul_eq_mul]

theorem sum_update [DecidableEq ι] [AddCommMonoid M] (f : ι → M) (i : ι) (x : M) :
    (∑ j, update f i x j) + f i = (∑ j, f j) + x := by
  have hf := Finset.sum_erase_add Finset.univ f (Finset.mem_univ i)
  rw [Finset.sum_update_of_mem (Finset.mem_univ i), Finset.sdiff_singleton_eq_erase, ← hf,
    add_assoc, add_comm]

/-- One party's move changes a sum over all of them by what it changes in that party. -/
theorem sum_move [DecidableEq ι] [AddCommMonoid M] (w : α → M) (f : ι → α) (i : ι) (a : α) :
    (∑ j, w (update f i a j)) + w (f i) = (∑ j, w (f j)) + w a := by
  have he : (fun j => w (update f i a j)) = update (fun j => w (f j)) i (w a) :=
    Function.comp_update ..
  simp only [he]
  exact sum_update (fun j => w (f j)) i (w a)

/-- One party's move changes the total by the change of that party's weight. -/
theorem total_update [DecidableEq ι] (w : α → Nat) (f : ι → α) (i : ι) (a : α) :
    total w (update f i a) + w (f i) = total w f + w a := sum_move w f i a

theorem total_update_lt [DecidableEq ι] {w : α → Nat} {f : ι → α} (h : w a < w (f i)) :
    total w (update f i a) < total w f := by
  have hmove := total_update w f i a
  omega

theorem total_update_eq [DecidableEq ι] {w : α → Nat} {f : ι → α} (h : w a = w (f i)) :
    total w (update f i a) = total w f := by
  have hmove := total_update w f i a
  omega

theorem le_total (w : α → Nat) (f : ι → α) (i : ι) : w (f i) ≤ total w f :=
  Finset.single_le_sum (f := fun j => w (f j)) (fun _ _ => Nat.zero_le _) (Finset.mem_univ i)

theorem total_le (w : α → Nat) (f : ι → α) (n : Nat) (h : ∀ i, w (f i) ≤ n) :
    total w f ≤ Fintype.card ι * n := by
  have hsum := Finset.sum_le_card_nsmul Finset.univ (fun i => w (f i)) n fun i _ => h i
  rwa [Finset.card_univ, smul_eq_mul] at hsum

/-- A family in which each party gains at most so much. -/
theorem total_le_add (w : α → Nat) (f g : ι → α) (n : Nat) (h : ∀ i, w (g i) ≤ w (f i) + n) :
    total w g ≤ total w f + Fintype.card ι * n := by
  have hsum := Finset.sum_le_sum (s := Finset.univ) fun i _ => h i
  rwa [Finset.sum_add_distrib, Finset.sum_const, Finset.card_univ, smul_eq_mul] at hsum

theorem total_eq_zero (w : α → Nat) (f : ι → α) : total w f = 0 ↔ ∀ i, w (f i) = 0 := by
  simp only [total, Finset.sum_eq_zero_iff, Finset.mem_univ, true_implies]

theorem total_congr (w : α → Nat) (f g : ι → α) (h : ∀ i, w (f i) = w (g i)) :
    total w f = total w g :=
  Finset.sum_congr rfl fun i _ => h i

/-- A family that gains weight somewhere and loses none gains in total. -/
theorem total_lt (w : α → Nat) (f g : ι → α) (h : ∀ i, w (f i) ≤ w (g i))
    (hi : w (f i) < w (g i)) : total w f < total w g :=
  Finset.sum_lt_sum (fun i _ => h i) ⟨i, Finset.mem_univ i, hi⟩

theorem total_lt_card (w : α → Nat) (f : ι → α) (n : Nat) (h : ∀ i, w (f i) ≤ n)
    (hi : w (f i) < n) : total w f < Fintype.card ι * n := by
  have hlt := Finset.sum_lt_sum (s := Finset.univ) (f := fun i => w (f i)) (g := fun _ => n)
    (fun i _ => h i) ⟨i, Finset.mem_univ i, hi⟩
  simpa only [total, Finset.sum_const, Finset.card_univ, smul_eq_mul] using hlt

theorem total_of_forall (w : α → Nat) (f : ι → α) (n : Nat) (h : ∀ i, w (f i) = n) :
    total w f = Fintype.card ι * n := by
  simp only [total, h, Finset.sum_const, Finset.card_univ, smul_eq_mul]

end LinuxIpc
