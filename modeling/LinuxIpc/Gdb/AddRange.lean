import LinuxIpc.Lib.Signed

namespace LinuxIpc.Gdb
set_option autoImplicit true

abbrev CInt := Signed 31

/-- The `for` loop of `add_range`, from before its test; `none` is an overflow of `sum` or
of `i`. -/
def loop (high sum i : CInt) : Option CInt :=
  if i.val ≤ high.val then
    match sum.add i, _h : i.succ with
    | some sum, some i => loop high sum i
    | _, _ => none
  else some sum
termination_by (high.val + 1 - i.val).toNat
decreasing_by
  have hi := Signed.succ_eq_some.1 ‹_›
  omega

def addRange (low high : CInt) : Option CInt := loop high .zero low

theorem loop_done (h : high.val < i.val) : loop high sum i = some sum := by
  rw [loop, if_neg (Int.not_le.2 h)]

/-- The loop gets to its end if no partial sum and no counter on the way overflows. -/
theorem loop_eq_some (hs : sum.val = partialSum low n) (hl : i.val = low + n)
    (hi : i.val ≤ high.val + 1) :
    loop high sum i = some v ↔ v.val = rangeSum low high.val ∧
      ∀ k, n ≤ k → low + k ≤ high.val →
        Fits 31 (partialSum low (k + 1)) ∧ Fits 31 (low + k + 1) := by
  fun_induction loop high sum i generalizing n with
  | case1 sum i hle s j hj hs' ih =>
    rw [Signed.succ_eq_some, hl] at hj
    rw [Signed.add_eq_some, hs, hl, ← partialSum_succ] at hs'
    rw [ih hs' (by omega) (by omega)]
    refine and_congr_right fun _ => ⟨fun h k hnk hk => ?_, fun h k hnk => h k (by omega)⟩
    rcases Nat.lt_or_eq_of_le hnk with hlt | rfl
    · exact h k hlt hk
    · exact ⟨hs' ▸ s.fits, hj ▸ j.fits⟩
  | case2 sum i hle hno =>
    -- One of the two additions has overflowed.
    refine iff_of_false nofun fun ⟨_, h⟩ => ?_
    obtain ⟨hsum, hsucc⟩ := h n (Nat.le_refl n) (hl ▸ hle)
    rw [partialSum_succ, ← hs, ← hl] at hsum
    rw [← hl] at hsucc
    exact hno ⟨_, hsum⟩ ⟨_, hsucc⟩ (Signed.add_eq_some.2 rfl) (Signed.succ_eq_some.2 rfl)
  | case3 sum i hgt =>
    have he : (high.val + 1 - low).toNat = n := by omega
    rw [rangeSum, he, ← hs, Option.some.injEq]
    constructor
    · rintro rfl
      exact ⟨rfl, fun k hnk hk => by omega⟩
    · rintro ⟨hv, -⟩
      exact Signed.ext hv.symm

theorem addRange_eq_some (h : low.val ≤ high.val) :
    addRange low high = some v ↔ v.val = rangeSum low.val high.val ∧
      ∀ k : Nat, low.val + k ≤ high.val →
        Fits 31 (partialSum low.val (k + 1)) ∧ Fits 31 (low.val + k + 1) := by
  rw [addRange, loop_eq_some (n := 0) rfl (Int.add_zero _).symm (by omega)]
  simp only [Nat.zero_le, true_imp_iff]

/-- The negative numbers from `low` on sum up to an `int` down to -65535. -/
theorem le_partialSum_iff (h : low ≤ 0) :
    -2 ^ 31 ≤ partialSum low (-low).toNat ↔ -65535 ≤ low := by
  have hs := two_mul_partialSum low (-low).toNat
  obtain ⟨m, rfl⟩ : ∃ m : Nat, low = -m := ⟨(-low).toNat, by omega⟩
  rw [Int.neg_neg, Int.toNat_natCast] at hs ⊢
  have hsq : 2 * partialSum (-m) m = -(m * (m + 1)) := by grind
  constructor
  · intro h
    have hm : ¬ (65536 : Int) ≤ m := fun hm => by
      have hmul : (65536 : Int) * (65536 + 1) ≤ m * (m + 1) :=
        Int.mul_le_mul hm (by omega) (by decide) (by omega)
      omega
    omega
  · intro h
    have hmul : (m : Int) * (m + 1) ≤ 65535 * (65535 + 1) :=
      Int.mul_le_mul (by omega) (by omega) (by omega) (by decide)
    omega

/-- `add_range` returns, with no overflow on the way, the sum of the integers of the range. -/
def Exact (low high : CInt) : Prop :=
  ∃ v, addRange low high = some v ∧ v.val = rangeSum low.val high.val

theorem exact_of_lt {low high : CInt} (h : high.val < low.val) : Exact low high := by
  refine ⟨.zero, loop_done h, ?_⟩
  have hn : (high.val + 1 - low.val).toNat = 0 := by omega
  rw [rangeSum, hn]
  rfl

/-- A range that is not empty is summed up where every partial sum and every counter fits. -/
theorem exact_iff_fits {low high : CInt} (h : low.val ≤ high.val)
    (hf : Fits 31 (rangeSum low.val high.val)) :
    Exact low high ↔ high.val < 2 ^ 31 - 1 ∧
      ∀ k, k ≤ (high.val + 1 - low.val).toNat → Fits 31 (partialSum low.val k) := by
  have hmin := low.fits.1
  simp only [Exact, addRange_eq_some h]
  constructor
  · rintro ⟨v, ⟨-, hk⟩, -⟩
    constructor
    · have hmax := (hk (high.val - low.val).toNat (by omega)).2.2
      omega
    · intro k hle
      cases k with
      | zero => exact fits_zero
      | succ k => exact (hk k (by omega)).1
  · rintro ⟨hmax, hk⟩
    refine ⟨⟨_, hf⟩, ⟨rfl, fun k hle => ⟨hk _ (by omega), by omega, by omega⟩⟩, rfl⟩

theorem exact_iff (low high : CInt) (hf : Fits 31 (rangeSum low.val high.val)) :
    Exact low high ↔
      (low.val ≤ high.val → high.val < 2 ^ 31 - 1 ∧ (0 < high.val → -65535 ≤ low.val)) := by
  by_cases h : low.val ≤ high.val
  · have hlen : 1 < low.val + (high.val + 1 - low.val).toNat ↔ 0 < high.val := by omega
    rw [exact_iff_fits h hf, fits_partialSum_iff hf, hlen]
    constructor
    · rintro ⟨hmax, hneg⟩ -
      refine ⟨hmax, fun hpos => ?_⟩
      by_cases h0 : low.val ≤ 0
      · exact (le_partialSum_iff h0).1 (hneg h0 hpos)
      · omega
    · intro hcond
      obtain ⟨hmax, hpos⟩ := hcond h
      exact ⟨hmax, fun h0 hp => (le_partialSum_iff h0).2 (hpos hp)⟩
  · exact iff_of_true (exact_of_lt (Int.lt_of_not_ge h)) fun hle => (h hle).elim

/-- 1 to 10, as `main` asks for. -/
theorem exact_one_ten : Exact ⟨1, by decide⟩ ⟨10, by decide⟩ := by
  refine (exact_iff _ _ ?_).2 fun _ => by decide
  decide

def intMax : CInt := ⟨2 ^ 31 - 1, by decide⟩

/-- Counting past the largest `int` takes an overflow although the sum is that `int` itself. -/
theorem not_exact : ¬ ∀ low high : CInt, Fits 31 (rangeSum low.val high.val) → Exact low high := by
  intro h
  obtain ⟨v, hv, -⟩ := h intMax intMax (by decide)
  have hfit := ((addRange_eq_some (Int.le_refl _)).1 hv).2 0 (by decide)
  exact absurd hfit.2 (by decide)

end LinuxIpc.Gdb
