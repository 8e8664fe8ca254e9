import Mathlib.Algebra.Group.Nat.Defs
import Mathlib.Data.List.Basic

namespace LinuxIpc
set_option autoImplicit true

/-- The last `k` decimal digits of `n` without leading zeros, as ASCII. -/
def decimal : Nat → Nat → List UInt8
  | 0, _ => []
  | k + 1, n => (if n < 10 then [] else decimal k (n / 10)) ++ [UInt8.ofNat (48 + n % 10)]

/-- `%lu`; 20 digits hold every `unsigned long`. -/
def lu (n : UInt64) : List UInt8 := decimal 20 n.toNat

theorem decimal_ne_nil : decimal (k + 1) n ≠ [] := by
  rw [decimal]
  exact List.append_ne_nil_of_right_ne_nil _ (List.cons_ne_nil _ _)

theorem decimal_length_le : (decimal k n).length ≤ k := by
  induction k generalizing n with
  | zero => exact Nat.le_refl 0
  | succ k ih =>
    rw [decimal, List.length_append]
    have hk := ih (n := n / 10)
    split
    · exact Nat.le_add_left 1 k
    · exact Nat.succ_le_succ hk

theorem decimal_ne_zero (h : b ∈ decimal k n) : b ≠ 0 := by
  induction k generalizing n with
  | zero => cases h
  | succ k ih =>
    rw [decimal, List.mem_append, List.mem_singleton] at h
    rcases h with h | rfl
    · split at h
      · cases h
      · exact ih h
    · intro h0
      have hn := congrArg UInt8.toNat h0
      rw [UInt8.toNat_ofNat'] at hn
      have : (0 : UInt8).toNat = 0 := rfl
      omega

theorem digit_inj (h : UInt8.ofNat (48 + n % 10) = UInt8.ofNat (48 + m % 10)) :
    n % 10 = m % 10 := by
  have hn := congrArg UInt8.toNat h
  rw [UInt8.toNat_ofNat', UInt8.toNat_ofNat'] at hn
  omega

/-- A number of at most `k` digits can be told from them. -/
theorem decimal_inj (hn : n < 10 ^ k) (hm : m < 10 ^ k) (h : decimal k n = decimal k m) :
    n = m := by
  induction k generalizing n m with
  | zero =>
    rw [Nat.pow_zero] at hn hm
    omega
  | succ k ih =>
    rw [decimal, decimal] at h
    obtain ⟨hfront, hlast⟩ := List.append_inj' h rfl
    have hdigit := digit_inj (List.cons.inj hlast).1
    have hmore : ∀ i, i < 10 ^ (k + 1) → ¬ i < 10 → decimal k (i / 10) ≠ [] := by
      intro i hi h10
      cases k with
      | zero => exact (h10 hi).elim
      | succ k => exact decimal_ne_nil
    by_cases hn10 : n < 10
    · by_cases hm10 : m < 10
      · omega
      · rw [if_pos hn10, if_neg hm10] at hfront
        exact (hmore m hm hm10 hfront.symm).elim
    · by_cases hm10 : m < 10
      · rw [if_neg hn10, if_pos hm10] at hfront
        exact (hmore n hn hn10 hfront).elim
      · rw [if_neg hn10, if_neg hm10] at hfront
        rw [Nat.pow_succ] at hn hm
        have hdiv := ih (by omega) (by omega) hfront
        omega

theorem lu_inj : lu a = lu b ↔ a = b := by
  constructor
  · intro h
    have hlt : ∀ x : UInt64, x.toNat < 10 ^ 20 := fun x =>
      Nat.lt_trans x.toNat_lt (by decide)
    exact UInt64.toNat_inj.1 (decimal_inj (hlt a) (hlt b) h)
  · exact congrArg lu

theorem lu_ne_nil (n : UInt64) : lu n ≠ [] := decimal_ne_nil

theorem lu_length_le (n : UInt64) : (lu n).length ≤ 20 := decimal_length_le

theorem lu_ne_zero (h : b ∈ lu n) : b ≠ 0 := decimal_ne_zero h

end LinuxIpc
