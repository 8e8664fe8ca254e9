import LinuxIpc.UdpChat.Client
import LinuxIpc.UdpChat.Members

namespace LinuxIpc.UdpChat
set_option autoImplicit true

open Stdin (fgets input)

/-- The lines of an input; the last one counts where it is not empty. -/
def typed (lines : List (List UInt8)) (last : List UInt8) : List (List UInt8) :=
  if last = [] then lines else lines ++ [last]

/-- What the receiving client prints for the line `j`. Each message meets the server and that
client in some state. -/
def printedOf (src dst : SockaddrIn) (ps : List (Sent × Server × Msg)) (j : Nat) : List UInt8 :=
  ((ps.filter fun p => p.1.line = some j).flatMap fun p =>
    shown p.2.1 src dst p.2.2 p.1.msg).flatten

/-- Once all input has been read, every line has been printed as it was typed, whatever `msg` held
at first, by a client that is in the list of the server once. -/
def RoundTrip (src dst : SockaddrIn) (name : List UInt8) (lines : List (List UInt8))
    (last : List UInt8) : Prop :=
  ∀ init n ps, (input lines last).length ≤ n →
    ps.map Prod.fst = (begin init name (input lines last)).sends n →
    (∀ p ∈ ps, p.2.1.H.count dst = 1) →
    ∀ j l, (typed lines last)[j]? = some l → printedOf src dst ps j = l

/-- No text is sent for which no line was read. -/
def NoStray (name : List UInt8) (lines : List (List UInt8)) (last : List UInt8) : Prop :=
  ∀ init n, ∀ m ∈ (begin init name (input lines last)).sends n,
    m.msg.type = broadcast → m.line ≠ none

structure Clean (s : List UInt8) : Prop where
  zero : 0 ∉ s
  quit : ¬ ascii "quit" <:+: s

theorem Clean.part (h : Clean s) (hi : t <:+: s) : Clean t :=
  ⟨fun hz => h.zero (hi.subset hz), fun hq => h.quit (hq.trans hi)⟩

theorem dropLast_part (s : List UInt8) : s.dropLast <:+: s :=
  List.IsPrefix.isInfix <| List.dropLast_prefix s

theorem Clean.dropLast (h : Clean s) : Clean s.dropLast := h.part <| dropLast_part s

def texts (ms : List Sent) : List UInt8 := ms.flatMap fun m => m.msg.text

theorem texts_cons (m : Sent) (ms : List Sent) : texts (m :: ms) = m.msg.text ++ texts ms :=
  List.flatMap_cons

theorem texts_singleton (m : Sent) : texts [m] = m.msg.text := by
  rw [texts_cons]
  exact List.append_nil _

/-- The texts of the messages that were sent for the line `j`. -/
def textOf (j : Nat) (ms : List Sent) : List UInt8 :=
  texts (ms.filter fun m => m.line = some j)

theorem textOf_append (j : Nat) (ms ns : List Sent) :
    textOf j (ms ++ ns) = textOf j ms ++ textOf j ns := by
  rw [textOf, List.filter_append, texts, List.flatMap_append, textOf, textOf, texts, texts]

theorem textOf_eq (h : ∀ m ∈ ms, m.line = some j) :
    textOf j ms = texts ms := by
  rw [textOf, List.filter_eq_self.2 fun m hm => decide_eq_true (h m hm)]

theorem textOf_eq_nil (h : ∀ m ∈ ms, m.line ≠ some j) : textOf j ms = [] := by
  rw [textOf, List.filter_eq_nil_iff.2 fun m hm hl => h m hm (of_decide_eq_true hl)]
  rfl

theorem printedOf_eq (hne : src ≠ dst) (hdst : ∀ p ∈ ps, p.2.1.H.count dst = 1)
    (hB : ∀ m ∈ ps.map Prod.fst, m.line ≠ none → m.msg.type = broadcast) (j : Nat) :
    printedOf src dst ps j = textOf j (ps.map Prod.fst) := by
  induction ps with
  | nil => rfl
  | cons p ps ih =>
    obtain ⟨hd, hds⟩ := List.forall_mem_cons.1 hdst
    obtain ⟨hb, hbs⟩ := List.forall_mem_cons.1 hB
    have ih := ih hds hbs
    by_cases hl : p.1.line = some j
    · have hp := shown_broadcast p.2.1 p.2.2 (hb (by rw [hl]; nofun)) hd hne
      rw [printedOf, textOf, List.map_cons, List.filter_cons, List.filter_cons,
        if_pos (decide_eq_true hl), if_pos (decide_eq_true hl), List.flatMap_cons, texts_cons,
        hp, List.flatten_append]
      change p.1.msg.text ++ [] ++ printedOf src dst ps j = _
      rw [ih, List.append_nil]
      rfl
    · rw [printedOf, textOf, List.map_cons, List.filter_cons, List.filter_cons,
        if_neg (by rwa [decide_eq_true_eq]), if_neg (by rwa [decide_eq_true_eq])]
      exact ih

namespace Client

/-- Iterations that each read something. -/
inductive Reads : Client → List Sent → Client → Prop
  | nil : Reads c [] c
  | cons : Clean c.stdin → c.stdin ≠ [] → Reads c.turn.1 ms c' → Reads c (c.turn.2 :: ms) c'

variable {c : Client}

theorem read_of_ne (hne : c.stdin ≠ []) : c.read = ⟨(fgets 127 c.stdin).2,
    c.msg.readText (fgets 127 c.stdin).1,
    if 10 ∈ (fgets 127 c.stdin).1 then c.line + 1 else c.line⟩ := if_neg hne

theorem turn_stdin (c : Client) : c.turn.1.stdin = c.read.stdin := rfl

theorem turn_line (c : Client) : c.turn.1.line = c.read.line := rfl

theorem turn_text (c : Client) : c.turn.2.msg.text = (cstr c.read.msg.text.bytes).dropLast := by
  change Msg.text (Fields.msg _) = _
  rw [Fields.text_msg]
  exact c.read.msg.strip_text

theorem turn_type (h : ¬ ascii "quit" <:+: c.turn.2.msg.text) :
    c.turn.2.msg.type = broadcast := by
  have ht : c.turn.2.msg.text = cstr c.read.msg.strip.text.bytes := by
    rw [turn_text, Fields.strip_text]
  change (if (ascii "quit").isPrefixOf (cstr c.read.msg.strip.text.bytes) then quit
    else broadcast) = _
  rw [← ht, if_neg]
  intro hp
  exact h (List.isPrefixOf_iff_prefix.1 hp).isInfix

theorem sends_succ (h : c.turn.2.msg.type = broadcast) :
    c.sends (n + 1) = c.turn.2 :: c.turn.1.sends n := by
  rw [sends, if_neg]
  rw [h]
  decide

/-- An iteration that reads something sends it without its last byte. -/
theorem turn_reads (h : Clean c.stdin) (hne : c.stdin ≠ []) :
    c.turn.2.msg.type = broadcast ∧ c.turn.2.line = some c.line ∧
      c.turn.2.msg.text = (fgets 127 c.stdin).1.dropLast := by
  have hsplit := Stdin.fgets_append 127 c.stdin
  have hclean : Clean (fgets 127 c.stdin).1 := h.part ⟨[], _, hsplit⟩
  have ht : c.turn.2.msg.text = (fgets 127 c.stdin).1.dropLast := by
    rw [turn_text, read_of_ne hne, Fields.readText_text _ (Stdin.fgets_length ..) hclean.zero]
  refine ⟨turn_type ?_, if_neg hne, ht⟩
  rw [ht]
  exact hclean.dropLast.quit

theorem turn_clean (h : Clean c.stdin) : Clean c.turn.1.stdin := by
  rw [turn_stdin]
  by_cases hne : c.stdin = []
  · rw [read, if_pos hne]
    exact h
  · rw [read_of_ne hne]
    exact h.part ⟨(fgets 127 c.stdin).1, [], by rw [List.append_nil, Stdin.fgets_append]⟩

theorem line_le_turn (c : Client) : c.line ≤ c.turn.1.line := by
  rw [turn_line, read]
  split
  · exact Nat.le_refl _
  · dsimp only
    split
    · exact Nat.le_succ _
    · exact Nat.le_refl _

/-- What is sent for a line is a broadcast, and no line is gone back to. -/
theorem sends_of_mem (h : Clean c.stdin) (hm : m ∈ c.sends n) (hl : m.line = some j) :
    m.msg.type = broadcast ∧ c.line ≤ j := by
  induction n generalizing c with
  | zero => cases hm
  | succ n ih =>
    rw [sends] at hm
    rcases List.mem_cons.1 hm with rfl | hm
    · by_cases hne : c.stdin = []
      · have hn : c.turn.2.line = none := if_pos hne
        rw [hn] at hl
        cases hl
      · obtain ⟨hB, hline, -⟩ := turn_reads h hne
        rw [hline] at hl
        exact ⟨hB, Nat.le_of_eq (Option.some.inj hl)⟩
    · split at hm
      · cases hm
      · obtain ⟨hB, hle⟩ := ih (turn_clean h) hm
        exact ⟨hB, Nat.le_trans c.line_le_turn hle⟩

/-- Behind the end of the input no line is read. -/
theorem sends_end (h : c.stdin = []) (hm : m ∈ c.sends n) : m.line = none := by
  induction n generalizing c with
  | zero => cases hm
  | succ n ih =>
    rw [sends] at hm
    rcases List.mem_cons.1 hm with rfl | hm
    · exact if_pos h
    · split at hm
      · cases hm
      · refine ih ?_ hm
        rw [turn_stdin, read, if_pos h, h]

theorem turn_piece (h : Clean c.stdin) (hne : c.stdin ≠ [])
    (hf : fgets 127 c.stdin = (d, rest)) : c.turn.2.line = some c.line ∧
      c.turn.2.msg.text = d.dropLast ∧ c.turn.1.stdin = rest ∧
      c.turn.1.line = if 10 ∈ d then c.line + 1 else c.line := by
  obtain ⟨-, hline, htext⟩ := turn_reads h hne
  refine ⟨hline, by rw [htext, hf], ?_, ?_⟩
  · rw [turn_stdin, read_of_ne hne, hf]
  · rw [turn_line, read_of_ne hne, hf]

theorem Reads.clean (h : Reads c ms c') (hc : Clean c.stdin) : Clean c'.stdin := by
  induction h with
  | nil => exact hc
  | cons hc _ _ ih => exact ih (turn_clean hc)

theorem turn_length (hne : c.stdin ≠ []) : c.turn.1.stdin.length < c.stdin.length := by
  have hsplit := congrArg List.length (Stdin.fgets_append 127 c.stdin)
  have hpos := List.length_pos_of_ne_nil (Stdin.fgets_ne_nil (n := 127) (by decide) hne)
  rw [turn_stdin, read_of_ne hne]
  rw [List.length_append] at hsplit
  change (fgets 127 c.stdin).2.length < _
  omega

/-- So they are among any number that is enough for the input. -/
theorem Reads.sends (h : Reads c ms c') (hn : c.stdin.length ≤ n) :
    ∃ k, c.sends n = ms ++ c'.sends k ∧ c'.stdin.length ≤ k := by
  induction h generalizing n with
  | nil => exact ⟨n, rfl, hn⟩
  | @cons c ms c' hc hne _ ih =>
    have hlt := turn_length hne
    obtain ⟨n, rfl⟩ : ∃ k, n = k + 1 := ⟨n - 1, by omega⟩
    obtain ⟨k, hk, hle⟩ := ih (n := n) (by omega)
    refine ⟨k, ?_, hle⟩
    rw [sends_succ (turn_reads hc hne).1, hk]
    rfl

end Client

open Client (Reads)

variable {c : Client}

/-- A line that is longer than a piece loses one byte to each of its pieces but the last. -/
theorem reads_line (hc : Clean c.stdin) (h : c.stdin = l ++ 10 :: rest) (hl : 10 ∉ l) :
    ∃ (ms : List Sent) (c' : Client), Reads c ms c' ∧ c'.stdin = rest ∧
      c'.line = c.line + 1 ∧ (∀ m ∈ ms, m.line = some c.line) ∧
      (texts ms).length + ms.length = l.length + 1 ∧
      if l.length ≤ 126 then texts ms = l else 2 ≤ ms.length := by
  induction hk : l.length using Nat.strong_induction_on generalizing l c with
  | _ k ih =>
    subst hk
    have hne : c.stdin ≠ [] := by
      rw [h]
      exact List.append_ne_nil_of_right_ne_nil l (List.cons_ne_nil 10 rest)
    by_cases hshort : l.length ≤ 126
    · have hf : fgets 127 c.stdin = (l ++ [10], rest) := by
        rw [h]
        exact Stdin.fgets_line hl (Nat.lt_succ_of_le hshort)
      obtain ⟨hline, htext, hstdin, hnext⟩ := Client.turn_piece hc hne hf
      rw [List.dropLast_concat] at htext
      rw [if_pos (List.mem_append_right l (List.mem_singleton_self 10))] at hnext
      refine ⟨[c.turn.2], c.turn.1, .cons hc hne .nil, hstdin, hnext, ?_, ?_, ?_⟩
      · exact List.forall_mem_singleton.2 hline
      · rw [texts_singleton, htext, List.length_singleton]
      · rw [if_pos hshort, texts_singleton, htext]
    · have h10 : 10 ∉ l.take 127 := fun h10 => hl (List.mem_of_mem_take h10)
      have hfull : (l.take 127).length = 127 := by
        rw [List.length_take]
        omega
      have hf : fgets 127 c.stdin = (l.take 127, l.drop 127 ++ 10 :: rest) := by
        have hs := Stdin.fgets_full h10 hfull (l.drop 127 ++ 10 :: rest)
        rwa [← List.append_assoc, List.take_append_drop, ← h] at hs
      obtain ⟨hline, htext, hstdin, hnext⟩ := Client.turn_piece hc hne hf
      rw [if_neg h10] at hnext
      have hdrop : (l.drop 127).length < l.length := by
        rw [List.length_drop]
        omega
      obtain ⟨ms, c', hr, hs, hn, hall, hsum, hif⟩ := ih _ hdrop (Client.turn_clean hc) hstdin
        (fun h10 => hl (List.mem_of_mem_drop h10)) rfl
      rw [hnext] at hn hall
      have hpos : 1 ≤ ms.length := by
        split at hif
        · rw [hif] at hsum
          omega
        · omega
      refine ⟨c.turn.2 :: ms, c', .cons hc hne hr, hs, hn, ?_, ?_, ?_⟩
      · exact List.forall_mem_cons.2 ⟨hline, hall⟩
      · rw [texts_cons, List.length_append, htext, List.length_dropLast, hfull, List.length_cons]
        rw [List.length_drop] at hsum
        omega
      · rw [if_neg hshort, List.length_cons]
        omega

/-- A last line without a newline loses a byte of its own. -/
theorem reads_last (hc : Clean c.stdin) (hl : 10 ∉ c.stdin) (hne : c.stdin ≠ []) :
    ∃ (ms : List Sent) (c' : Client), Reads c ms c' ∧ c'.stdin = [] ∧
      (∀ m ∈ ms, m.line = some c.line) ∧ (texts ms).length < c.stdin.length := by
  induction hk : c.stdin.length using Nat.strong_induction_on generalizing c with
  | _ k ih =>
    subst hk
    have hpos := List.length_pos_of_ne_nil hne
    by_cases hshort : c.stdin.length ≤ 127
    · obtain ⟨hline, htext, hstdin, -⟩ :=
        Client.turn_piece hc hne (Stdin.fgets_last hl hshort)
      refine ⟨[c.turn.2], c.turn.1, .cons hc hne .nil, hstdin, ?_, ?_⟩
      · exact List.forall_mem_singleton.2 hline
      · rw [texts_singleton, htext, List.length_dropLast]
        omega
    · have h10 : 10 ∉ c.stdin.take 127 := fun h10 => hl (List.mem_of_mem_take h10)
      have hfull : (c.stdin.take 127).length = 127 := by
        rw [List.length_take]
        omega
      have hf : fgets 127 c.stdin = (c.stdin.take 127, c.stdin.drop 127) := by
        have hs := Stdin.fgets_full h10 hfull (c.stdin.drop 127)
        rwa [List.take_append_drop] at hs
      obtain ⟨hline, htext, hstdin, hnext⟩ := Client.turn_piece hc hne hf
      rw [if_neg h10] at hnext
      have hdrop : c.turn.1.stdin.length = c.stdin.length - 127 := by
        rw [hstdin, List.length_drop]
      obtain ⟨ms, c', hr, hs, hall, hlt⟩ := ih _ (by omega) (Client.turn_clean hc)
        (by rw [hstdin]; exact fun h10 => hl (List.mem_of_mem_drop h10))
        (List.ne_nil_of_length_pos (by omega)) rfl
      rw [hnext] at hall
      refine ⟨c.turn.2 :: ms, c', .cons hc hne hr, hs, List.forall_mem_cons.2 ⟨hline, hall⟩, ?_⟩
      rw [texts_cons, List.length_append, htext, List.length_dropLast, hfull]
      omega

theorem forall_getElem?_cons {P : Nat → List UInt8 → Prop} :
    (∀ j x, (l :: ls)[j]? = some x → P j x) ↔
      P 0 l ∧ ∀ j x, ls[j]? = some x → P (j + 1) x := by
  constructor
  · intro h
    exact ⟨h 0 l rfl, fun j x hx => h (j + 1) x hx⟩
  · rintro ⟨h0, hs⟩ j x hx
    cases j with
    | zero => exact Option.some.inj hx ▸ h0
    | succ j => exact hs j x hx

/-- The texts are the lines exactly if each line fits and ends in a newline. -/
theorem texts_iff (hc : Clean c.stdin) (h : c.stdin = input lines last)
    (hl : ∀ l ∈ lines, 10 ∉ l) (hlast : 10 ∉ last) (hn : c.stdin.length ≤ n) :
    (∀ j l, (typed lines last)[j]? = some l → textOf (c.line + j) (c.sends n) = l) ↔
      last = [] ∧ ∀ l ∈ lines, l.length ≤ 126 := by
  induction lines generalizing c n with
  | nil =>
    by_cases hempty : last = []
    · subst hempty
      exact ⟨fun _ => ⟨rfl, nofun⟩, fun _ => nofun⟩
    · rw [Stdin.input_nil] at h
      subst h
      obtain ⟨ms, c', hr, hs, hall, hlt⟩ := reads_last hc hlast hempty
      obtain ⟨k, hk, -⟩ := hr.sends hn
      constructor
      · intro hj
        have h0 := hj 0 c.stdin (by rw [typed, if_neg hempty]; rfl)
        rw [Nat.add_zero, hk, textOf_append, textOf_eq hall, textOf_eq_nil, List.append_nil] at h0
        · rw [h0] at hlt
          exact (Nat.lt_irrefl _ hlt).elim
        · intro m hm
          rw [Client.sends_end hs hm]
          nofun
      · rintro ⟨hnil, -⟩
        exact (hempty hnil).elim
  | cons l ls ih =>
    obtain ⟨hl, hls⟩ := List.forall_mem_cons.1 hl
    rw [Stdin.input_cons] at h
    obtain ⟨ms, c', hr, hs, hline, hall, hsum, hif⟩ := reads_line hc h hl
    obtain ⟨k, hk, hle⟩ := hr.sends hn
    have hc' := hr.clean hc
    have htyped : typed (l :: ls) last = l :: typed ls last := by
      unfold typed
      split <;> rfl
    have hfirst : textOf c.line (c'.sends k) = [] := by
      apply textOf_eq_nil
      intro m hm hml
      have hlt := (Client.sends_of_mem hc' hm hml).2
      rw [hline] at hlt
      exact Nat.not_succ_le_self _ hlt
    have hlater : ∀ j, textOf (c.line + (j + 1)) ms = [] := by
      intro j
      apply textOf_eq_nil
      intro m hm hml
      rw [hall m hm] at hml
      have := Option.some.inj hml
      omega
    have hl126 : texts ms = l ↔ l.length ≤ 126 := by
      by_cases hshort : l.length ≤ 126
      · rw [if_pos hshort] at hif
        exact iff_of_true hif hshort
      · rw [if_neg hshort] at hif
        refine iff_of_false ?_ hshort
        intro he
        rw [he] at hsum
        omega
    rw [htyped, forall_getElem?_cons, hk, List.forall_mem_cons]
    have ih := ih hc' hs hls hle
    simp only [hline, Nat.add_assoc, Nat.add_comm 1] at ih
    simp only [textOf_append, hlater, List.nil_append, Nat.add_zero, hfirst, List.append_nil,
      textOf_eq hall, hl126, ih]
    exact and_left_comm

/-- Behind the end of the input the last text is sent again. -/
theorem exists_stray (hc : Clean c.stdin) (ht : ¬ ascii "quit" <:+: cstr c.msg.text.bytes) :
    ∃ n, ∃ m ∈ c.sends n, m.msg.type = broadcast ∧ m.line = none := by
  induction hk : c.stdin.length using Nat.strong_induction_on generalizing c with
  | _ k ih =>
    subst hk
    by_cases hne : c.stdin = []
    · refine ⟨1, c.turn.2, List.mem_cons_self, Client.turn_type ?_, if_pos hne⟩
      rw [Client.turn_text, Client.read, if_pos hne]
      exact fun hq => ht (hq.trans <| dropLast_part _)
    · obtain ⟨hB, -, htext⟩ := Client.turn_reads hc hne
      have hnext : cstr c.turn.1.msg.text.bytes = c.turn.2.msg.text := (Fields.text_msg _).symm
      have hcalm : ¬ ascii "quit" <:+: cstr c.turn.1.msg.text.bytes := by
        rw [hnext, htext]
        have hclean : Clean (fgets 127 c.stdin).1 :=
          hc.part ⟨[], _, Stdin.fgets_append 127 c.stdin⟩
        exact hclean.dropLast.quit
      obtain ⟨n, m, hm, h⟩ := ih _ (Client.turn_length hne) (Client.turn_clean hc) hcalm rfl
      refine ⟨n + 1, m, ?_, h⟩
      rw [Client.sends_succ hB]
      exact List.mem_cons_of_mem _ hm

/-- A name that fits leaves a text that was empty so. -/
theorem readName_text (hn : name.length ≤ 31) :
    cstr (Fields.readName ⟨0, .zero 32, .zero 128⟩ (name ++ [10])).text.bytes = [] := by
  let b := (Buf.zero 160).overwrite (name ++ [10] ++ [0])
  have hb : b.bytes.drop 32 = List.replicate 128 0 := by
    have hlen : (name ++ [10]).length ≤ 32 := by
      rw [List.length_append]
      exact Nat.succ_le_succ hn
    rw [Buf.zero_overwrite (Nat.lt_of_le_of_lt hlen (by decide)), List.drop_append,
      List.drop_eq_nil_of_le hlen, List.nil_append, List.drop_replicate]
    congr 1
    omega
  change cstr ((b.bytes.set _ 0).drop 32) = []
  rw [List.drop_set, hb]
  split
  · rfl
  · rw [List.set_replicate_self]
    rfl

/-- The first half of what a chat should do holds for short lines that all end in a newline. The
second half never holds: at the end of its input the client does not stop sending. -/
theorem round_trip_iff (hne : src ≠ dst) (hname : name.length ≤ 31)
    (hc : Clean (input lines last)) (hl : ∀ l ∈ lines, 10 ∉ l) (hlast : 10 ∉ last) :
    (RoundTrip src dst name lines last ↔ last = [] ∧ ∀ l ∈ lines, l.length ≤ 126) ∧
    ¬ NoStray name lines last := by
  have hB : ∀ init n, ∀ m ∈ (begin init name (input lines last)).sends n, m.line ≠ none →
      m.msg.type = broadcast := by
    intro init n m hm hl
    obtain ⟨j, hj⟩ := Option.ne_none_iff_exists'.1 hl
    exact (Client.sends_of_mem hc hm hj).1
  constructor
  · constructor
    · intro h
      let init : Fields := ⟨0, .zero 32, .zero 128⟩
      let c := begin init name (input lines last)
      refine (texts_iff (c := c) hc rfl hl hlast (Nat.le_refl _)).1 ?_
      intro j l hj
      let ps := (c.sends c.stdin.length).map fun m =>
        (m, (⟨[dst], .zero _⟩ : Server), (.zero _ : Msg))
      have hps : ps.map Prod.fst = c.sends c.stdin.length := by
        rw [List.map_map]
        exact List.map_id _
      have hdst : ∀ p ∈ ps, p.2.1.H.count dst = 1 := by
        intro p hp
        obtain ⟨m, -, rfl⟩ := List.mem_map.1 hp
        exact List.count_singleton_self
      have hp := h init _ ps (Nat.le_refl _) hps hdst j l hj
      rw [printedOf_eq hne hdst (by rw [hps]; exact hB _ _), hps] at hp
      have hline : c.line + j = j := Nat.zero_add j
      rw [hline]
      exact hp
    · intro h init n ps hn hps hdst j l hj
      have ht := (texts_iff (c := begin init name (input lines last)) hc rfl hl hlast hn).2 h j l hj
      rw [printedOf_eq hne hdst (by rw [hps]; exact hB _ _), hps]
      have hline : (begin init name (input lines last)).line + j = j := Nat.zero_add j
      rw [hline] at ht
      exact ht
  · intro h
    let init : Fields := ⟨0, .zero 32, .zero 128⟩
    have ht : ¬ ascii "quit" <:+: cstr (begin init name (input lines last)).msg.text.bytes := by
      have htext : cstr (begin init name (input lines last)).msg.text.bytes = [] :=
        readName_text hname
      rw [htext]
      decide
    obtain ⟨n, m, hm, hBm, hl⟩ := exists_stray (c := begin init name (input lines last)) hc ht
    exact h init n m hm hBm hl

/-- Someone types `hi` and ends the input: the client goes on with an `h`. -/
theorem stray_sent : ¬ (RoundTrip anna ben [97] [[104, 105]] [] ∧ NoStray [97] [[104, 105]] []) := by
  rintro ⟨-, h⟩
  let init : Fields := ⟨0, .zero 32, .zero 128⟩
  have hs : ((begin init [97] (input [[104, 105]] [])).sends 2).map
      (fun m => (m.msg.type, m.msg.text, m.line)) =
      [(broadcast, [104, 105], some 0), (broadcast, [104], none)] := by decide
  have hm : (broadcast, [104], none) ∈ ((begin init [97] (input [[104, 105]] [])).sends 2).map
      fun m => (m.msg.type, m.msg.text, m.line) := by
    rw [hs]
    exact List.mem_cons_of_mem _ (List.mem_singleton_self _)
  obtain ⟨m, hm, he⟩ := List.mem_map.1 hm
  obtain ⟨hB, he⟩ := Prod.mk.inj he
  exact h init 2 m hm hB (Prod.mk.inj he).2

theorem round_trip_iff_hi : (RoundTrip anna ben [97] [[104, 105]] [] ↔
      ([] : List UInt8) = [] ∧ ∀ l ∈ [([104, 105] : List UInt8)], l.length ≤ 126) ∧
    ¬ NoStray [97] [[104, 105]] [] := by
  refine round_trip_iff ?_ ?_ ⟨?_, ?_⟩ ?_ ?_ <;> decide

end LinuxIpc.UdpChat
