import LinuxIpc.UdpChat.RoundTrip

namespace LinuxIpc.UdpChat
set_option autoImplicit true

open Stdin (fgets input)

/-- `msg.name` of a message that has arrived; where `name[32]` is full, the string goes on in
`text`. -/
def Msg.name (m : Msg) : List UInt8 := cstr (m.bytes.drop 1)

/-- What a client at `dst` prints for `from %s> %s`, as `shown` for its second half. -/
def shownFrom (s : Server) (src dst : SockaddrIn) (own m : Msg) :
    List (List UInt8 × List UInt8) :=
  ((receive s ⟨m.bytes, src⟩).2.filter fun e => e.dst = dst).flatMap fun e =>
    let msg := own.overwrite e.msg.bytes
    if Msg.type msg = broadcast then [(Msg.name msg, Msg.text msg)] else []

theorem shownFrom_broadcast (s : Server) (own : Msg) (hm : m.type = broadcast)
    (hne : src ≠ dst) :
    shownFrom s src dst own m = List.replicate (s.H.count dst) (m.name, m.text) := by
  rw [shownFrom, receive_broadcast s src hm, sendOthers_filter, if_neg hne]
  induction s.H.count dst with
  | zero => rfl
  | succ n ih =>
    rw [List.replicate_succ, List.replicate_succ, List.flatMap_cons, ih]
    change (if Msg.type (own.overwrite m.bytes) = broadcast then
      [(Msg.name (own.overwrite m.bytes), Msg.text (own.overwrite m.bytes))] else []) ++ _ = _
    rw [Msg.overwrite_msg, if_pos hm]
    rfl

/-- A line of at most `n` characters. -/
def IsLine (n : Nat) (l : List UInt8) : Prop := 10 ∉ l ∧ l.length ≤ n

instance (n : Nat) (l : List UInt8) : Decidable (IsLine n l) :=
  inferInstanceAs (Decidable (_ ∧ _))

/-- What the typed name has left in `name[32]`; `cut` tells that the strip of an empty text has put
a NUL at its end. -/
def NameIn (name : List UInt8) (cut : Bool) (b : Buf 32) : Prop :=
  if name.length ≤ 31 then ∃ r, b.bytes = name ++ 0 :: r
  else b.bytes = if cut then name.take 31 ++ [0] else name.take 32

/-- A name that fits is found again; any other is if the text goes on with the rest of it. -/
theorem NameIn.cstr_iff (h : NameIn name cut b) (h0 : 0 ∉ name) (text : List UInt8) :
    cstr (b.bytes ++ text) = name ↔
      name.length ≤ 31 ∨ cut = false ∧ name.drop 32 = cstr text := by
  unfold NameIn at h
  split at h
  · rename_i hlen
    obtain ⟨r, hr⟩ := h
    refine iff_of_true ?_ (.inl hlen)
    rw [hr, List.append_assoc, List.cons_append, cstr_append_zero, cstr_of_notMem h0]
  · rename_i hlen
    have h31 : 0 ∉ name.take 31 := fun hm => h0 (List.mem_of_mem_take hm)
    have h32 : 0 ∉ name.take 32 := fun hm => h0 (List.mem_of_mem_take hm)
    rw [or_iff_right hlen, h]
    cases cut with
    | true =>
      refine iff_of_false (fun he => hlen ?_) (fun hf => nomatch hf.1)
      rw [if_pos rfl, List.append_assoc, List.singleton_append, cstr_append_zero,
        cstr_of_notMem h31] at he
      rw [← he, List.length_take]
      exact Nat.min_le_left 31 _
    | false =>
      rw [if_neg nofun, cstr_append_of_notMem h32, eq_self, true_and]
      constructor
      · intro he
        have hs := (List.take_append_drop 32 name).trans he.symm
        exact List.append_cancel_left hs
      · intro he
        rw [← he, List.take_append_drop]

/-- The NUL that a strip of an empty text puts before it. -/
theorem NameIn.put (h : NameIn name cut b) : NameIn name true (b.put 31 0) := by
  unfold NameIn at h ⊢
  split at h
  · rename_i hlen
    obtain ⟨r, hr⟩ := h
    rw [if_pos hlen]
    change ∃ r', b.bytes.set 31 0 = name ++ 0 :: r'
    rw [hr, List.set_append_right _ _ hlen]
    cases 31 - name.length with
    | zero => exact ⟨r, rfl⟩
    | succ k => exact ⟨r.set k 0, rfl⟩
  · rename_i hlen
    rw [if_neg hlen]
    change b.bytes.set 31 0 = name.take 31 ++ [0]
    have h31 : (name.take 31).length = 31 := by
      rw [List.length_take]
      omega
    obtain ⟨y, hy⟩ : ∃ y, b.bytes = name.take 31 ++ [y] := by
      cases cut with
      | true => exact ⟨0, h⟩
      | false => exact ⟨_, h.trans (List.take_succ_eq_append_getElem (Nat.lt_of_not_le hlen))⟩
    rw [hy, List.set_append_right _ _ (Nat.le_of_eq h31), h31]
    rfl

/-- `fgets` and the strip of its newline leave the name, wherever it ends. -/
theorem nameIn_begin (init : Fields) (h0 : 0 ∉ name) (hname : IsLine 62 name)
    (stdin : List UInt8) : NameIn name false (begin init name stdin).msg.name := by
  obtain ⟨-, hlen⟩ := hname
  let b : Buf 160 := ⟨init.name.bytes ++ init.text.bytes, by
    rw [List.length_append, init.name.length_bytes, init.text.length_bytes]⟩
  have hz : 0 ∉ name ++ [10] := by
    intro hm
    rcases List.mem_append.1 hm with hm | hm
    · exact h0 hm
    · exact absurd (List.mem_singleton.1 hm) (by decide)
  have hshort : (name ++ [10]).length < 160 := by
    rw [List.length_append, List.length_singleton]
    omega
  have hc : (cstr (b.overwrite (name ++ [10] ++ [0])).bytes).length - 1 = name.length := by
    rw [b.cstr_overwrite hshort, cstr_of_notMem hz, List.length_append]
    rfl
  obtain ⟨r, hr⟩ : ∃ r, (b.overwrite (name ++ [10] ++ [0])).bytes = name ++ 10 :: r := by
    have hle : (name ++ [10] ++ [0]).length ≤ 160 := by
      rw [List.length_append]
      exact hshort
    refine ⟨0 :: b.bytes.drop (name ++ [10] ++ [0]).length, ?_⟩
    change (name ++ [10] ++ [0]).take 160 ++ _ = _
    rw [List.take_of_length_le hle, List.append_assoc, List.append_assoc]
    rfl
  have hb : ((b.overwrite (name ++ [10] ++ [0])).put name.length 0).bytes = name ++ 0 :: r := by
    change (b.overwrite (name ++ [10] ++ [0])).bytes.set name.length 0 = _
    rw [hr, List.set_append_right _ _ (Nat.le_refl _), Nat.sub_self]
    rfl
  have hfield : (begin init name stdin).msg.name.bytes = (name ++ 0 :: r).take 32 := by
    change ((b.overwrite (name ++ [10] ++ [0])).put
      ((cstr (b.overwrite (name ++ [10] ++ [0])).bytes).length - 1) 0).bytes.take 32 = _
    rw [hc, hb]
  unfold NameIn
  rw [hfield]
  split
  · rename_i h31
    have hpos : 32 - name.length = (31 - name.length) + 1 := by omega
    rw [List.take_append, List.take_of_length_le (by omega), hpos, List.take_succ_cons]
    exact ⟨_, rfl⟩
  · rename_i h31
    exact List.take_append_of_le_length (by omega)

/-- The strip finds an empty text where the line begins with a NUL. -/
theorem cstr_line_eq_nil : cstr (l ++ [10]) = [] ↔ l.head? = some 0 := by
  cases l with
  | nil => exact iff_of_false (by decide) nofun
  | cons b l =>
    rw [List.cons_append, cstr, List.takeWhile_cons]
    by_cases hb : b = 0
    · simp [hb]
    · simp [hb]

/-- A line is sent whole exactly where it holds no NUL. -/
theorem cstr_line_dropLast : (cstr (l ++ [10])).dropLast = l ↔ 0 ∉ l := by
  by_cases h0 : 0 ∈ l
  · refine iff_of_false (fun he => ?_) (not_not_intro h0)
    rw [cstr_append_of_mem h0] at he
    have hlen := congrArg List.length he
    have hle : (cstr l).length ≤ l.length := (List.takeWhile_prefix _).length_le
    have hpos := List.length_pos_of_mem h0
    rw [List.length_dropLast] at hlen
    omega
  · refine iff_of_true ?_ h0
    rw [cstr_append_of_notMem h0]
    exact List.dropLast_concat

namespace Client

variable {c : Client}

/-- What an iteration that reads a line makes of it. -/
structure Took (name l rest : List UInt8) (cut : Bool) (c : Client) (m : Sent) (c' : Client) :
    Prop where
  stdin : c'.stdin = rest
  next : c'.line = c.line + 1
  line : m.line = some c.line
  text_iff : m.msg.text = l ↔ 0 ∉ l
  name_iff : m.msg.name = name ↔ name.length ≤ 31 ∨ cut = false ∧ name.drop 32 = m.msg.text
  field : NameIn name cut c'.msg.name

theorem turn_took (hl : IsLine 126 l) (hs : c.stdin = l ++ 10 :: rest) (h0 : 0 ∉ name)
    (h : NameIn name cut c.msg.name) :
    Took name l rest (cut || l.head? == some 0) c c.turn.2 c.turn.1 := by
  have hne : c.stdin ≠ [] := by
    rw [hs]
    exact List.append_ne_nil_of_right_ne_nil l (List.cons_ne_nil 10 rest)
  have hf : fgets 127 c.stdin = (l ++ [10], rest) := by
    rw [hs]
    exact Stdin.fgets_line hl.1 (Nat.lt_succ_of_le hl.2)
  have hread : c.read = ⟨rest, c.msg.readText (l ++ [10]), c.line + 1⟩ := by
    rw [read_of_ne hne, hf]
    exact congrArg (Client.mk _ _) (if_pos (List.mem_append_right l (List.mem_singleton_self 10)))
  have htext : cstr (c.msg.readText (l ++ [10])).text.bytes = cstr (l ++ [10]) := by
    apply Buf.cstr_overwrite
    rw [List.length_append]
    exact Nat.lt_succ_of_le (Nat.succ_le_succ hl.2)
  have hfield : NameIn name (cut || l.head? == some 0) c.turn.1.msg.name := by
    change NameIn name _ c.read.msg.strip.name
    rw [hread, Fields.strip, htext]
    split
    · rename_i hlen
      have hhead := cstr_line_eq_nil.1 (List.eq_nil_of_length_eq_zero hlen)
      rw [hhead, beq_self_eq_true, Bool.or_true]
      exact h.put
    · rename_i k hlen
      have hhead : l.head? ≠ some 0 := fun hh => by
        rw [cstr_line_eq_nil.2 hh] at hlen
        cases hlen
      rw [beq_eq_false_iff_ne.2 hhead, Bool.or_false]
      exact h
  constructor
  case stdin => rw [turn_stdin, hread]
  case next => rw [turn_line, hread]
  case line => exact if_neg hne
  case text_iff =>
    rw [turn_text, hread, htext]
    exact cstr_line_dropLast
  case name_iff =>
    have ht : c.turn.2.msg.text = cstr c.turn.1.msg.text.bytes := Fields.text_msg _
    rw [ht]
    exact hfield.cstr_iff h0 _
  case field => exact hfield

/-- No line is gone back to. -/
theorem le_line (hm : m ∈ c.sends n) (hj : m.line = some j) : c.line ≤ j := by
  induction n generalizing c with
  | zero => cases hm
  | succ n ih =>
    rw [sends] at hm
    rcases List.mem_cons.1 hm with rfl | hm
    · change (if c.stdin = [] then none else some c.line) = some j at hj
      split at hj
      · cases hj
      · exact Nat.le_of_eq (Option.some.inj hj)
    · split at hm
      · cases hm
      · exact Nat.le_trans c.line_le_turn (ih hm)

/-- What is sent for a line shows it, and the name, under what the lines up to it allow. -/
theorem sends_took (ht : ∀ l ∈ lines, IsLine 126 l) (h0 : 0 ∉ name)
    (hs : c.stdin = input lines []) (h : NameIn name cut c.msg.name) (hm : m ∈ c.sends n)
    (hj : m.line = some (c.line + j)) (hl : lines[j]? = some l) :
    (m.msg.text = l ↔ 0 ∉ l) ∧ (m.msg.name = name ↔ name.length ≤ 31 ∨
      (cut || (lines.take (j + 1)).any fun e => e.head? == some 0) = false ∧
        name.drop 32 = m.msg.text) := by
  induction lines generalizing c n j cut with
  | nil => cases hl
  | cons e lines ih =>
    obtain ⟨he, ht⟩ := List.forall_mem_cons.1 ht
    have took := turn_took he (hs.trans (Stdin.input_cons e lines [])) h0 h
    cases n with
    | zero => cases hm
    | succ n =>
      rw [sends] at hm
      rcases List.mem_cons.1 hm with rfl | hm
      · obtain rfl : j = 0 := by
          have hline := Option.some.inj (took.line.symm.trans hj)
          omega
        obtain rfl := Option.some.inj hl
        refine ⟨took.text_iff, ?_⟩
        rw [took.name_iff, List.take_succ_cons, List.take_zero, List.any_cons, List.any_nil,
          Bool.or_false]
      · split at hm
        · cases hm
        have hle := le_line hm hj
        rw [took.next] at hle
        obtain ⟨j, rfl⟩ : ∃ i, j = i + 1 := ⟨j - 1, by omega⟩
        have hj' : m.line = some (c.turn.1.line + j) := by
          rw [hj, took.next]
          congr 1
          omega
        obtain ⟨htext, hname⟩ := ih ht took.stdin took.field hm hj' hl
        refine ⟨htext, ?_⟩
        rw [hname, List.take_succ_cons, List.any_cons, Bool.or_assoc]

end Client

/-- The lines up to one without a NUL begin with none if those before it do not. -/
theorem any_take_succ {lines : List (List UInt8)} (hl : lines[j]? = some l) (h0 : 0 ∉ l) :
    ((lines.take (j + 1)).any fun e => e.head? == some 0) = false ↔
      ∀ e ∈ lines.take j, e.head? ≠ some (0 : UInt8) := by
  have hhead : l.head? ≠ some 0 := fun hh => h0 (List.mem_of_mem_head? hh)
  have hsplit : lines.take (j + 1) = lines.take j ++ [l] := by
    rw [List.take_add_one, hl]
    rfl
  rw [hsplit, List.any_append, List.any_cons, List.any_nil, beq_eq_false_iff_ne.2 hhead,
    Bool.or_false, Bool.or_false, List.any_eq_false]
  simp only [beq_iff_eq, ne_eq]

/-- Each client that the server relays the message to prints the name and the line. -/
def Decoded (name l : List UInt8) (m : Msg) : Prop :=
  ∀ s src dst own, src ≠ dst → dst ∈ s.H → ∀ x ∈ shownFrom s src dst own m, x = (name, l)

theorem decoded_iff_eq (hB : m.type = broadcast) :
    Decoded name l m ↔ m.name = name ∧ m.text = l := by
  rw [← Prod.mk.injEq]
  constructor
  · intro h
    have hx := h ⟨[ben], .zero _⟩ anna ben (.zero _) (by decide) (List.mem_singleton_self ben)
    rw [shownFrom_broadcast _ _ hB (by decide)] at hx
    exact hx _ (List.mem_replicate.2 ⟨by decide, rfl⟩)
  · intro h s src dst own hne hdst x hx
    rw [shownFrom_broadcast s own hB hne] at hx
    exact (List.mem_replicate.1 hx).2.trans h

/-- A message shows the name and the line as they were typed where the line holds no NUL, and the
name fits `name[32]` or the line is the rest of it, with no line before it that begins with a
NUL. -/
theorem decoded_iff (hname : IsLine 62 name) (h0 : 0 ∉ name) (ht : ∀ l ∈ lines, IsLine 126 l)
    (hm : m ∈ (begin init name (input lines [])).sends n) (hB : m.msg.type = broadcast)
    (hj : m.line = some j) (hl : lines[j]? = some l) :
    Decoded name l m.msg ↔
      0 ∉ l ∧ (name.length ≤ 31 ∨ name.drop 32 = l ∧ ∀ e ∈ lines.take j, e.head? ≠ some 0) := by
  have hline : m.line = some ((begin init name (input lines [])).line + j) := by
    change m.line = some (0 + j)
    rw [Nat.zero_add, hj]
  obtain ⟨htext, hcut⟩ := Client.sends_took ht h0 rfl (nameIn_begin init h0 hname _) hm hline hl
  rw [decoded_iff_eq hB, and_comm, htext]
  refine and_congr_right fun hz => ?_
  rw [hcut, Bool.false_or, any_take_succ hl hz, htext.2 hz, and_comm]

/-- What the child sends for one line, with `msg` zeroed at first. -/
def sendsOne (name l : List UInt8) : List Sent :=
  (begin ⟨0, .zero 32, .zero 128⟩ name (input [l] [])).sends 1

theorem decoded_iff_hi : ∃ m ∈ sendsOne (ascii "anna") (ascii "hi"),
    Decoded (ascii "anna") (ascii "hi") m.msg := by
  have hlines : ∀ l ∈ [ascii "hi"], IsLine 126 l := by decide
  refine ⟨_, List.mem_cons_self, (decoded_iff (n := 1) (j := 0) ?_ ?_ hlines
    List.mem_cons_self ?_ ?_ rfl).2 ?_⟩ <;> decide

/-- A name that fills `name[32]`. -/
def longName : List UInt8 := ascii "anna-anna-anna-anna-anna-anna-an"

/-- The text is printed as part of the name, too. -/
theorem not_decoded : ¬ ∀ name l, IsLine 62 name → 0 ∉ name → IsLine 126 l → 0 ∉ l →
    ∀ m ∈ sendsOne name l, m.msg.type = broadcast → Decoded name l m.msg := by
  intro h
  have hd := h longName (ascii "hi") (by decide) (by decide) (by decide) (by decide) _
    List.mem_cons_self (by decide)
  exact absurd ((decoded_iff_eq (by decide)).1 hd).1 (by decide)

end LinuxIpc.UdpChat
