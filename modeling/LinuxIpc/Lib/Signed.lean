import Mathlib

namespace LinuxIpc
set_option autoImplicit true

/-- The values of a signed integer of `w + 1` bits. -/
def Fits (w : Nat) (v : Int) : Prop := -2 ^ w ≤ v ∧ v < 2 ^ w

instance (w : Nat) (v : Int) : Decidable (Fits w v) :=
  inferInstanceAs (Decidable (-2 ^ w ≤ v ∧ v < 2 ^ w))

theorem fits_zero : Fits w 0 := by
  have hpos : (0 : Int) < 2 ^ w := Int.pow_pos (by decide)
  constructor <;> omega

/-- A signed integer of `w + 1` bits, whose arithmetic has no result where it overflows. -/
structure Signed (w : Nat) where
  val : Int
  fits : Fits w val

namespace Signed

def zero : Signed w := ⟨0, fits_zero⟩

def ofInt (v : Int) : Option (Signed w) := if h : Fits w v then some ⟨v, h⟩ else none

def add (a b : Signed w) : Option (Signed w) := ofInt (a.val + b.val)

/-- `a++`. -/
def succ (a : Signed w) : Option (Signed w) := ofInt (a.val + 1)

theorem ext {a b : Signed w} (h : a.val = b.val) : a = b := by
  cases a
  cases b
  cases h
  rfl

theorem ofInt_eq_some {a : Signed w} : ofInt v = some a ↔ a.val = v := by
  rw [ofInt]
  constructor
  · intro h
    split at h
    · exact Option.some.inj h ▸ rfl
    · cases h
  · rintro rfl
    rw [dif_pos a.fits]

theorem add_eq_some {a b c : Signed w} : a.add b = some c ↔ c.val = a.val + b.val := ofInt_eq_some

theorem succ_eq_some {a b : Signed w} : a.succ = some b ↔ b.val = a.val + 1 := ofInt_eq_some

end Signed

/-- The sum of the first `n` integers from `low` on. -/
def partialSum (low : Int) (n : Nat) : Int := ((List.range n).map fun (k : Nat) => low + k).sum

/-- The sum of the integers from `low` to `high`, 0 where there are none. -/
def rangeSum (low high : Int) : Int := partialSum low (high + 1 - low).toNat

theorem partialSum_succ (low : Int) (n : Nat) :
    partialSum low (n + 1) = partialSum low n + (low + n) := by
  rw [partialSum, List.range_succ, List.map_append, List.sum_append, List.map_singleton,
    List.sum_singleton]
  rfl

theorem two_mul_partialSum (low : Int) (n : Nat) :
    2 * partialSum low n = n * (low + (low + n - 1)) := by
  induction n with
  | zero => simp [partialSum]
  | succ n ih =>
    rw [partialSum_succ, Int.mul_add, ih, Int.natCast_succ]
    grind

/-- The partial sums go down until 0 has been added. -/
theorem partialSum_anti {low : Int} {n m : Nat} (h : n ≤ m) (hm : low + m ≤ 1) :
    partialSum low m ≤ partialSum low n := by
  induction h with
  | refl => exact Int.le_refl _
  | step h ih =>
    have hle := ih (by omega)
    rw [partialSum_succ]
    omega

/-- From there on they go up. -/
theorem partialSum_mono {low : Int} {n m : Nat} (h : n ≤ m) (hn : 0 ≤ low + n) :
    partialSum low n ≤ partialSum low m := by
  induction h with
  | refl => exact Int.le_refl _
  | @step m h ih =>
    have hnm : n ≤ m := h
    rw [partialSum_succ]
    omega

/-- Where the whole sum fits, the partial sums fit if the one of the negative numbers does. -/
theorem fits_partialSum_iff {low : Int} (hf : Fits w (partialSum low n)) :
    (∀ k, k ≤ n → Fits w (partialSum low k)) ↔
      (low ≤ 0 → 1 < low + n → -2 ^ w ≤ partialSum low (-low).toNat) := by
  have hpos : (0 : Int) < 2 ^ w := Int.pow_pos (by decide)
  have hzero : partialSum low 0 = 0 := rfl
  constructor
  · intro h hl hn
    exact (h _ (by omega)).1
  · intro h k hkn
    by_cases hk : 1 < low + k
    · -- The sums go up from here to the whole sum.
      have hup : partialSum low k ≤ partialSum low n := partialSum_mono hkn (by omega)
      refine ⟨?_, Int.lt_of_le_of_lt hup hf.2⟩
      by_cases hl : low ≤ 0
      · have h1 : partialSum low (-low).toNat ≤ partialSum low k :=
          partialSum_mono (by omega) (by omega)
        exact Int.le_trans (h hl (by omega)) h1
      · have h1 : partialSum low 0 ≤ partialSum low k := partialSum_mono (by omega) (by omega)
        omega
    · -- They have only gone down so far.
      have hdown : partialSum low k ≤ partialSum low 0 := partialSum_anti (Nat.zero_le k) (by omega)
      refine ⟨?_, by omega⟩
      by_cases hn : low + n ≤ 1
      · exact Int.le_trans hf.1 (partialSum_anti hkn hn)
      · by_cases hl : low ≤ 0
        · have h1 : partialSum low ((-low).toNat + 1) ≤ partialSum low k :=
            partialSum_anti (by omega) (by omega)
          have hneg := h hl (by omega)
          rw [partialSum_succ] at h1
          omega
        · obtain rfl : k = 0 := by omega
          omega

end LinuxIpc
