import Mathlib.Data.List.Basic
import Mathlib.Data.List.TakeWhile

namespace LinuxIpc
set_option autoImplicit true

/-- The C string at the start of some memory. -/
def cstr (bytes : List UInt8) : List UInt8 := bytes.takeWhile (· ≠ 0)

/-- The bytes of a string literal of ASCII characters. -/
def ascii (s : String) : List UInt8 := s.toList.map Char.toUInt8

/-- `strstr(hay,needle)!=NULL`. -/
def strstr (hay needle : List UInt8) : Bool := hay.tails.any fun l => needle.isPrefixOf l

/-- A C string holds no NUL, and is one when it holds none. -/
theorem cstr_eq_self (h : ∀ b ∈ s, b ≠ 0) : cstr s = s :=
  List.takeWhile_eq_self_iff.2 fun b hb => decide_eq_true (h b hb)

theorem cstr_of_notMem (h : 0 ∉ s) : cstr s = s := cstr_eq_self fun _ hb h0 => h (h0 ▸ hb)

/-- What stands behind a NUL does not matter. -/
theorem cstr_append_zero : cstr (s ++ 0 :: l) = cstr s := by
  induction s with
  | nil => rfl
  | cons b s ih =>
    have hb := congrArg (fun t => if b ≠ 0 then b :: t else []) ih
    simpa only [cstr, List.cons_append, List.takeWhile_cons, decide_eq_true_eq] using hb

theorem cstr_append_of_mem (h : 0 ∈ s) : cstr (s ++ l) = cstr s := by
  obtain ⟨front, back, rfl⟩ := List.append_of_mem h
  rw [List.append_assoc, List.cons_append, cstr_append_zero, cstr_append_zero]

/-- Bytes without a NUL go on with what stands behind them. -/
theorem cstr_append_of_notMem (h : 0 ∉ s) : cstr (s ++ l) = s ++ cstr l := by
  apply List.takeWhile_append_of_pos
  intro b hb
  exact decide_eq_true fun h0 => h (h0 ▸ hb)

theorem ne_zero_of_mem_cstr (h : b ∈ cstr s) : b ≠ 0 := by
  have hp := List.mem_takeWhile_imp h
  exact of_decide_eq_true hp

theorem cstr_eq_self_iff : cstr s = s ↔ 0 ∉ s :=
  ⟨fun h h0 => ne_zero_of_mem_cstr (h.symm ▸ h0) rfl, cstr_of_notMem⟩

/-- An array of `n` bytes. -/
structure Buf (n : Nat) where
  bytes : List UInt8
  length_bytes : bytes.length = n
  deriving DecidableEq

namespace Buf

theorem eq_of_bytes {a b : Buf n} (h : a.bytes = b.bytes) : a = b := by
  cases a
  cases b
  cases h
  rfl

/-- `memset(b,0,sizeof(b))`. -/
def zero (n : Nat) : Buf n := ⟨List.replicate n 0, List.length_replicate⟩

/-- What a read of `d` leaves in the array: bytes past its end are cut off, and where `d` is
shorter the old bytes stay. -/
def overwrite (b : Buf n) (d : List UInt8) : Buf n where
  bytes := d.take n ++ b.bytes.drop d.length
  length_bytes := by
    have hb := b.length_bytes
    simp only [List.length_append, List.length_take, List.length_drop]
    omega

/-- `b[i]=c`. -/
def put (b : Buf n) (i : Nat) (c : UInt8) : Buf n where
  bytes := b.bytes.set i c
  length_bytes := by rw [List.length_set, b.length_bytes]

/-- A NUL over the last byte of a string. -/
theorem cstr_put (b : Buf n) (h : (cstr b.bytes).length = k + 1) :
    cstr (b.put k 0).bytes = (cstr b.bytes).dropLast := by
  obtain ⟨q, c, hq⟩ : ∃ q c, cstr b.bytes = q ++ [c] := by
    have hne : cstr b.bytes ≠ [] := List.ne_nil_of_length_eq_add_one h
    exact ⟨_, _, (List.dropLast_append_getLast hne).symm⟩
  have hk : q.length = k := by
    rw [hq, List.length_append] at h
    exact Nat.succ_inj.1 h
  have hz : 0 ∉ q := fun h0 => ne_zero_of_mem_cstr (hq ▸ List.mem_append_left [c] h0) rfl
  have hb : b.bytes = q ++ c :: b.bytes.dropWhile (· ≠ 0) := by
    have hsplit : cstr b.bytes ++ b.bytes.dropWhile (· ≠ 0) = b.bytes :=
      List.takeWhile_append_dropWhile
    rw [hq, List.append_assoc] at hsplit
    exact hsplit.symm
  have hput : (b.put k 0).bytes = q ++ 0 :: b.bytes.dropWhile (· ≠ 0) := by
    change b.bytes.set k 0 = _
    conv_lhs => rw [hb]
    rw [List.set_append_right _ _ (Nat.le_of_eq hk), hk, Nat.sub_self]
    rfl
  rw [hput, cstr_append_zero, cstr_of_notMem hz, hq, List.dropLast_concat]

theorem overwrite_nil (b : Buf n) : (b.overwrite []).bytes = b.bytes := by
  simp only [overwrite, List.take_nil, List.length_nil, List.drop_zero, List.nil_append]

/-- A read that fills the array leaves nothing of what was there. -/
theorem overwrite_full (b : Buf n) (h : d.length = n) : (b.overwrite d).bytes = d := by
  have hb := b.length_bytes
  simp only [overwrite, List.take_of_length_le (Nat.le_of_eq h),
    List.drop_eq_nil_of_le (Nat.le_of_eq (hb.trans h.symm)), List.append_nil]

/-- A string shorter than the array ends inside it. -/
theorem zero_mem (b : Buf n) (h : (cstr b.bytes).length < n) : 0 ∈ b.bytes := by
  by_contra h0
  rw [cstr_of_notMem h0, b.length_bytes] at h
  exact Nat.lt_irrefl n h

/-- A string read into an array of zeros that it does not fill is the string of the array. -/
theorem cstr_overwrite_zero (h : ∀ b ∈ d, b ≠ 0) (hd : d.length < n) :
    cstr ((zero n).overwrite d).bytes = d := by
  have hz : (zero n).bytes.drop d.length = 0 :: List.replicate (n - d.length - 1) 0 := by
    rw [zero, List.drop_replicate, ← List.replicate_succ]
    congr 1
    omega
  have ho : ((zero n).overwrite d).bytes = d ++ 0 :: List.replicate (n - d.length - 1) 0 := by
    simp only [overwrite, List.take_of_length_le (Nat.le_of_lt hd), hz]
  rw [ho, cstr_append_zero, cstr_eq_self h]

/-- A string written with its NUL into an array of zeros has only zeros behind it. -/
theorem zero_overwrite (h : s.length < n) :
    ((zero n).overwrite (s ++ [0])).bytes = s ++ List.replicate (n - s.length) 0 := by
  have hle : (s ++ [0]).length ≤ n := by
    rw [List.length_append]
    exact h
  simp only [overwrite, List.take_of_length_le hle, zero, List.drop_replicate, List.append_assoc]
  rw [List.singleton_append, ← List.replicate_succ, List.length_append, List.length_singleton]
  congr 2
  omega

/-- A string written with its NUL is the string of the array. -/
theorem cstr_overwrite (b : Buf n) (h : s.length < n) :
    cstr (b.overwrite (s ++ [0])).bytes = cstr s := by
  have ho : (b.overwrite (s ++ [0])).bytes =
      s ++ 0 :: b.bytes.drop (s ++ [0]).length := by
    have hle : (s ++ [0]).length ≤ n := by
      rw [List.length_append]
      exact h
    simp only [overwrite, List.take_of_length_le hle, List.append_assoc, List.singleton_append]
  rw [ho, cstr_append_zero]

/-- A NUL put behind what has been read ends the string of the array. -/
theorem cstr_overwrite_put (b : Buf n) (hd : d.length < n) :
    cstr ((b.overwrite d).put d.length 0).bytes = cstr d := by
  obtain ⟨c, l, hl⟩ : ∃ c l, b.bytes.drop d.length = c :: l := by
    apply List.exists_cons_of_length_pos
    rw [List.length_drop, b.length_bytes]
    exact Nat.sub_pos_of_lt hd
  have hput : ((b.overwrite d).put d.length 0).bytes = d ++ 0 :: l := by
    change (d.take n ++ b.bytes.drop d.length).set d.length 0 = d ++ 0 :: l
    rw [List.take_of_length_le (Nat.le_of_lt hd), hl,
      List.set_append_right _ _ (Nat.le_refl _), Nat.sub_self]
    rfl
  rw [hput, cstr_append_zero]

/-- A read leaves what stands behind it. -/
theorem drop_overwrite (b : Buf n) (hd : d.length ≤ k) (hk : k ≤ n) :
    (b.overwrite d).bytes.drop k = b.bytes.drop k := by
  simp only [overwrite, List.take_of_length_le (Nat.le_trans hd hk)]
  rw [List.drop_append, List.drop_eq_nil_of_le hd, List.nil_append, List.drop_drop,
    Nat.add_sub_cancel' hd]

/-- Of two arrays the same bytes are read into, the strings differ where the bytes hold no NUL and
different strings stand behind them. -/
theorem cstr_overwrite_iff (b c : Buf n) (hd : d.length ≤ n) :
    cstr (b.overwrite d).bytes = cstr (c.overwrite d).bytes ↔
      0 ∈ d ∨ cstr (b.bytes.drop d.length) = cstr (c.bytes.drop d.length) := by
  simp only [overwrite, List.take_of_length_le hd]
  by_cases h : 0 ∈ d
  · rw [cstr_append_of_mem h, cstr_append_of_mem h]
    exact ⟨fun _ => .inl h, fun _ => rfl⟩
  · rw [cstr_append_of_notMem h, cstr_append_of_notMem h, List.append_cancel_left_eq]
    exact ⟨.inr, fun hor => hor.resolve_left h⟩

theorem overwrite_headD (b : Buf (n + 1)) (d : List UInt8) :
    (b.overwrite d).bytes.headD 0 = d.headD (b.bytes.headD 0) := by
  cases d with
  | nil => rw [overwrite_nil]; rfl
  | cons c d => rfl

end Buf

end LinuxIpc
