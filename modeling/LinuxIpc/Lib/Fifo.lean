import Mathlib.Data.List.Basic

namespace LinuxIpc
set_option autoImplicit true

/-- The bytes in a FIFO, in the pieces in which they were written. -/
abbrev Fifo := List (List UInt8)

namespace Fifo

/-- A write of no bytes leaves a FIFO alone. -/
def write (f : Fifo) (d : List UInt8) : Fifo := if d = [] then f else f ++ [d]

/-- A read of at most `cap` bytes that finds the first `k` pieces written; what does not fit
stays. -/
def read (cap k : Nat) (f : Fifo) : Option (List UInt8 × Fifo) :=
  if 0 < k ∧ k ≤ f.length then
    let d := (f.take k).flatten
    some (d.take cap, (if d.length ≤ cap then [] else [d.drop cap]) ++ f.drop k)
  else none

theorem write_nil (f : Fifo) : f.write [] = f := if_pos rfl

theorem write_of_ne (f : Fifo) (h : d ≠ []) : f.write d = f ++ [d] := if_neg h

theorem write_ne_nil (f : Fifo) (h : f ≠ [] ∨ d ≠ []) : f.write d ≠ [] := by
  by_cases hd : d = []
  · rw [hd, write_nil]
    exact h.resolve_right (not_not_intro hd)
  · rw [write_of_ne f hd]
    exact List.append_ne_nil_of_right_ne_nil f (List.cons_ne_nil d [])

theorem read_nil : read cap k [] = none := by
  apply if_neg
  rintro ⟨hk, hle⟩
  exact absurd hk (Nat.not_lt_of_le hle)

/-- A read from a FIFO with one piece that fits delivers it. -/
theorem read_singleton {d e : List UInt8} (h : read cap k [d] = some (e, f))
    (hd : d.length ≤ cap) : e = d ∧ f = [] := by
  simp only [read, Option.ite_none_right_eq_some, Option.some.injEq, Prod.mk.injEq] at h
  obtain ⟨⟨hk, hle⟩, he, hf⟩ := h
  obtain rfl : k = 1 := Nat.le_antisymm hle hk
  simp only [List.take_succ_cons, List.take_zero, List.flatten_singleton, List.drop_succ_cons,
    List.drop_zero, if_pos hd, List.nil_append] at he hf
  rw [List.take_of_length_le hd] at he
  exact ⟨he.symm, hf.symm⟩

end Fifo

end LinuxIpc
