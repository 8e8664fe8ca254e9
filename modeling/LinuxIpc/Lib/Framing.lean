import LinuxIpc.Lib.Buffer
import Mathlib.Data.List.Forall2

namespace LinuxIpc.Framing
set_option autoImplicit true

/-- One chunk for each string. It ends behind the NUL of the string or just in front of it, and the
NUL that is left begins the next chunk, whose own string is empty. With `true` such a NUL is still
to come. -/
inductive Cut : Bool → List (List UInt8) → List (List UInt8) → Prop
  | nil : Cut false [] []
  | whole : Cut false ls cs → Cut false (l :: ls) ((l ++ [0]) :: cs)
  | short : Cut true ls cs → Cut false (l :: ls) (l :: cs)
  | late_whole : Cut false ls cs → Cut true ([] :: ls) ([0, 0] :: cs)
  | late_short : Cut true ls cs → Cut true ([] :: ls) ([0] :: cs)

variable {c l s rest x : List UInt8} {lines cs : List (List UInt8)}

/-- C strings one after the other, each with its NUL. -/
def stream (lines : List (List UInt8)) : List UInt8 := (lines.map (· ++ [0])).flatten

theorem stream_cons (l : List UInt8) (ls : List (List UInt8)) :
    stream (l :: ls) = l ++ 0 :: stream ls := by
  rw [stream, List.map_cons, List.flatten_cons, List.append_assoc]
  rfl

/-- A chunk of a stream stops within the first string or reaches past its NUL. -/
theorem chunk_cases (h : c ++ rest = l ++ 0 :: s) :
    (∃ z, l = c ++ z ∧ rest = z ++ 0 :: s) ∨ ∃ y, c = l ++ 0 :: y ∧ s = y ++ rest := by
  rcases List.append_eq_append_iff.1 h with ⟨z, rfl, hz⟩ | ⟨y, rfl, hy⟩
  · exact .inl ⟨z, rfl, hz⟩
  · cases y with
    | nil => exact .inl ⟨[], by rw [List.append_nil, List.append_nil], hy.symm⟩
    | cons b y =>
      obtain ⟨rfl, rfl⟩ := List.cons.inj hy
      exact .inr ⟨y, rfl, rfl⟩

theorem cstr_chunk_le (h : c ++ rest = l ++ 0 :: s) (hl : 0 ∉ l) :
    (cstr c).length ≤ l.length := by
  rcases chunk_cases h with ⟨z, rfl, -⟩ | ⟨y, rfl, -⟩
  · have hc : 0 ∉ c := fun hc => hl (List.mem_append_left z hc)
    rw [cstr_of_notMem hc, List.length_append]
    exact Nat.le_add_right ..
  · rw [cstr_append_zero, cstr_of_notMem hl]

/-- Chunks that begin late stay late: a string that has been begun cannot be read as a whole, and
one that has been passed is not met again. -/
theorem not_late (hz : ∀ l ∈ lines, 0 ∉ l) (hc : ∀ c ∈ cs, c ≠ [])
    (hs : List.Forall₂ (fun c l => cstr c = l) cs lines) (hx : x ≠ []) :
    stream lines ≠ x ++ cs.flatten := by
  induction hs generalizing x with
  | nil =>
    intro h
    exact hx (List.append_eq_nil_iff.1 h.symm).1
  | @cons c l cs ls hcl hs ih =>
    intro h
    rw [stream_cons, List.flatten_cons] at h
    obtain ⟨hz, hzs⟩ := List.forall_mem_cons.1 hz
    obtain ⟨hc, hcs⟩ := List.forall_mem_cons.1 hc
    rcases chunk_cases h.symm with ⟨z, rfl, hrest⟩ | ⟨y, rfl, hrest⟩
    · have hle := cstr_chunk_le hrest fun h0 => hz (List.mem_append_right x h0)
      have hpos := List.length_pos_of_ne_nil hx
      rw [hcl, List.length_append] at hle
      omega
    · rw [← List.append_assoc] at hrest
      exact ih hzs hcs (fun hn => hc (List.append_eq_nil_iff.1 hn).2) hrest

/-- The NUL that is still to come. -/
def owed (late : Bool) : List UInt8 := if late then [0] else []

theorem Cut.strings (h : Cut late lines cs) (hz : ∀ l ∈ lines, 0 ∉ l) :
    List.Forall₂ (fun c l => cstr c = l) cs lines := by
  induction h with
  | nil => exact .nil
  | whole _ ih =>
    obtain ⟨hl, hls⟩ := List.forall_mem_cons.1 hz
    exact .cons (cstr_append_zero.trans (cstr_of_notMem hl)) (ih hls)
  | short _ ih =>
    obtain ⟨hl, hls⟩ := List.forall_mem_cons.1 hz
    exact .cons (cstr_of_notMem hl) (ih hls)
  | late_whole _ ih => exact .cons rfl (ih (List.forall_mem_cons.1 hz).2)
  | late_short _ ih => exact .cons rfl (ih (List.forall_mem_cons.1 hz).2)

/-- Chunks of the stream that are the strings as far as their first NULs make such a cut. -/
theorem cut_of_strings (hz : ∀ l ∈ lines, 0 ∉ l) (hc : ∀ c ∈ cs, c ≠ [])
    (hs : List.Forall₂ (fun c l => cstr c = l) cs lines)
    (h : cs.flatten = owed late ++ stream lines) : Cut late lines cs := by
  induction hs generalizing late with
  | nil =>
    cases late with
    | false => exact .nil
    | true => cases h
  | @cons c l cs ls hcl hs ih =>
    rw [stream_cons, List.flatten_cons] at h
    obtain ⟨hz, hzs⟩ := List.forall_mem_cons.1 hz
    obtain ⟨hc, hcs⟩ := List.forall_mem_cons.1 hc
    cases late with
    | false =>
      rcases chunk_cases h with ⟨z, rfl, hrest⟩ | ⟨y, rfl, hrest⟩
      · have h0 : 0 ∉ c := fun h0 => hz (List.mem_append_left z h0)
        rw [cstr_of_notMem h0] at hcl
        obtain rfl : z = [] := List.append_right_eq_self.1 hcl.symm
        rw [List.append_nil]
        exact .short (ih hzs hcs hrest)
      · cases y with
        | nil => exact .whole (ih hzs hcs hrest.symm)
        | cons b y => exact (not_late hzs hcs hs (List.cons_ne_nil b y) hrest).elim
    | true =>
      obtain ⟨b, c, rfl⟩ := List.exists_cons_of_ne_nil hc
      obtain ⟨rfl, hrest⟩ := List.cons.inj h
      obtain rfl : [] = l := hcl
      change c ++ cs.flatten = 0 :: stream ls at hrest
      cases c with
      | nil => exact .late_short (ih hzs hcs hrest)
      | cons b c =>
        obtain ⟨rfl, hback⟩ := List.cons.inj hrest
        cases c with
        | nil => exact .late_whole (ih hzs hcs hback)
        | cons b c => exact (not_late hzs hcs hs (List.cons_ne_nil b c) hback.symm).elim

/-- Where no chunk begins with a NUL the rest of the stream does not either. -/
theorem flatten_ne_zero_cons (h : ∀ c ∈ cs, cstr c ≠ []) : cs.flatten ≠ 0 :: x := by
  intro hx
  cases cs with
  | nil => cases hx
  | cons c cs =>
    have hc := h c List.mem_cons_self
    cases c with
    | nil => exact hc rfl
    | cons b c =>
      obtain ⟨rfl, -⟩ := List.cons.inj hx
      exact hc rfl

/-- Chunks longer than their strings by two bytes each are too long for a stream. -/
theorem length_stream_lt (h : List.Forall₂ (fun c l => l.length + 2 ≤ c.length) cs lines) :
    (stream lines).length + lines.length ≤ cs.flatten.length := by
  induction h with
  | nil => exact Nat.le_refl 0
  | cons hcl _ ih =>
    rw [stream_cons, List.flatten_cons, List.length_append, List.length_append, List.length_cons,
      List.length_cons]
    omega

end LinuxIpc.Framing
