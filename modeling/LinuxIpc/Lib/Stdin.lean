import Mathlib.Data.List.Basic

namespace LinuxIpc.Stdin
set_option autoImplicit true

variable {s l rest : List UInt8}

/-- What `fgets(b,n+1,stdin)` takes from the input, up to a newline, and what it leaves. -/
def fgets : Nat → List UInt8 → List UInt8 × List UInt8
  | 0, s => ([], s)
  | _, [] => ([], [])
  | n + 1, b :: s => if b = 10 then ([10], s) else (b :: (fgets n s).1, (fgets n s).2)

/-- What it can give someone who goes on typing. -/
def Piece (n : Nat) (l : List UInt8) : Prop := l ≠ [] ∧ l.length ≤ n ∧ 10 ∉ l.dropLast

instance (n : Nat) (l : List UInt8) : Decidable (Piece n l) := inferInstanceAs (Decidable (_ ∧ _))

/-- Nothing is lost. -/
theorem fgets_append (n : Nat) (s : List UInt8) : (fgets n s).1 ++ (fgets n s).2 = s := by
  induction n, s using fgets.induct with
  | case1 s => rfl
  | case2 n => cases n <;> rfl
  | case3 n s => rfl
  | case4 n b s hb ih => rw [fgets, if_neg hb, List.cons_append, ih]

theorem fgets_length (n : Nat) (s : List UInt8) : (fgets n s).1.length ≤ n := by
  induction n, s using fgets.induct with
  | case1 s => exact Nat.le_refl 0
  | case2 n => cases n <;> exact Nat.zero_le _
  | case3 n s => exact Nat.succ_le_succ (Nat.zero_le n)
  | case4 n b s hb ih =>
    rw [fgets, if_neg hb]
    exact Nat.succ_le_succ ih

theorem fgets_ne_nil (hn : n ≠ 0) (hs : s ≠ []) : (fgets n s).1 ≠ [] := by
  obtain ⟨m, rfl⟩ := Nat.exists_eq_succ_of_ne_zero hn
  cases s with
  | nil => exact (hs rfl).elim
  | cons b s =>
    rw [fgets]
    split <;> exact List.cons_ne_nil _ _

theorem fgets_piece (hn : n ≠ 0) (hs : s ≠ []) : Piece n (fgets n s).1 := by
  refine ⟨fgets_ne_nil hn hs, fgets_length n s, ?_⟩
  clear hn hs
  induction n, s using fgets.induct with
  | case1 s => exact List.not_mem_nil
  | case2 n => cases n <;> exact List.not_mem_nil
  | case3 n s => exact List.not_mem_nil
  | case4 n b s hb ih =>
    rw [fgets, if_neg hb]
    cases h : (fgets n s).1 with
    | nil => exact List.not_mem_nil
    | cons c l =>
      rw [h] at ih
      rw [List.dropLast_cons_cons, List.mem_cons, not_or]
      exact ⟨Ne.symm hb, ih⟩

theorem fgets_rest (hn : n ≠ 0) (hs : s ≠ []) : (fgets n s).2.length < s.length := by
  have hlen := congrArg List.length (fgets_append n s)
  rw [List.length_append] at hlen
  have hpos := List.length_pos_of_ne_nil (fgets_ne_nil hn hs)
  omega

/-- The input of someone who has typed some lines and then, without a newline, a last one. -/
def input (lines : List (List UInt8)) (last : List UInt8) : List UInt8 :=
  (lines.map (· ++ [10])).flatten ++ last

theorem input_nil : input [] last = last := rfl

theorem input_cons (l : List UInt8) (ls : List (List UInt8)) (last : List UInt8) :
    input (l :: ls) last = l ++ 10 :: input ls last := by
  simp only [input, List.map_cons, List.flatten_cons, List.append_assoc, List.cons_append,
    List.nil_append]

/-- A line that fits is taken with its newline. -/
theorem fgets_line (hl : 10 ∉ l) (hn : l.length < n) :
    fgets n (l ++ 10 :: rest) = (l ++ [10], rest) := by
  induction l generalizing n with
  | nil =>
    obtain ⟨m, rfl⟩ := Nat.exists_eq_succ_of_ne_zero (Nat.ne_of_gt hn)
    exact if_pos rfl
  | cons b l ih =>
    obtain ⟨m, rfl⟩ := Nat.exists_eq_succ_of_ne_zero (Nat.ne_zero_of_lt hn)
    rw [List.mem_cons, not_or] at hl
    obtain ⟨hb, hl⟩ := hl
    have hm := ih hl (Nat.lt_of_succ_lt_succ hn)
    rw [List.cons_append, fgets, if_neg (Ne.symm hb), hm]
    rfl

/-- Of a longer one as much as there is room for. -/
theorem fgets_full (hl : 10 ∉ l) (hn : l.length = n) (rest : List UInt8) :
    fgets n (l ++ rest) = (l, rest) := by
  induction l generalizing n with
  | nil => rw [← hn]; rfl
  | cons b l ih =>
    subst hn
    rw [List.mem_cons, not_or] at hl
    obtain ⟨hb, hl⟩ := hl
    rw [List.length_cons, List.cons_append, fgets, if_neg (Ne.symm hb), ih hl rfl]

/-- The last line may end without a newline. -/
theorem fgets_last (hl : 10 ∉ l) (hn : l.length ≤ n) : fgets n l = (l, []) := by
  induction l generalizing n with
  | nil => cases n <;> rfl
  | cons b l ih =>
    obtain ⟨m, rfl⟩ := Nat.exists_eq_succ_of_ne_zero (Nat.ne_zero_of_lt hn)
    rw [List.mem_cons, not_or] at hl
    obtain ⟨hb, hl⟩ := hl
    rw [fgets, if_neg (Ne.symm hb), ih hl (Nat.le_of_succ_le_succ hn)]

end LinuxIpc.Stdin
