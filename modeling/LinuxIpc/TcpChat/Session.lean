import LinuxIpc.Lib.Framing
import LinuxIpc.TcpChat.Serial

namespace LinuxIpc.TcpChat
set_option autoImplicit true

open Framing (Cut owed stream)

/-- What is passed to `broadcast` for one connection until it disconnects. Each result of `recv`
stands with what is behind the strings when it comes. -/
def texts (cl : Client) (behind : List UInt8) (rs : List (List UInt8 × Behind)) :
    List (List UInt8) :=
  loginNotice cl behind :: rs.map fun (d, b) => chatLine cl d b

/-- No result of `recv` is longer than what `buf` has left behind the prefix. -/
def Fits (cl : Client) (r : List UInt8 × Behind) : Prop :=
  r.1.length ≤ 1024 - (linePrefix cl r.2.name).length

/-- The stream of a client, each line with its NUL, as the server gets it: what arrives for the
name, and the later results of `recv`, none longer than is ever asked for. -/
structure Segments (name : List UInt8) (lines : List (List UInt8)) (first : List UInt8)
    (cs : List (List UInt8)) : Prop where
  typed : ∀ l ∈ name :: lines, 0 ∉ l
  name_le : name.length ≤ 39
  stream : first ++ cs.flatten = Framing.stream (name :: lines)
  first_ne : first ≠ []
  first_le : first.length ≤ 40
  rest_ne : ∀ c ∈ cs, c ≠ []
  rest_le : ∀ c ∈ cs, c.length ≤ 1022 - (cstr first).length

/-- After the login notice the others are sent each line under the name, whatever is in the slot
that the name is received into, and whatever stands behind the strings. -/
def Delivered (name : List UInt8) (lines : List (List UInt8)) (first : List UInt8)
    (cs : List (List UInt8)) : Prop :=
  ∀ (t : Table) (cfd : Int) (behind : List UInt8) (rs : List (List UInt8 × Behind)),
    rs.map Prod.fst = cs → (∀ r ∈ rs, Fits (t.entry cfd first) r) →
    (texts (t.entry cfd first) behind rs).tail = lines.map (name ++ ascii " :" ++ ·)

section Shown

variable {cl : Client} {b : Behind} {d s : List UInt8}

theorem linePrefix_length (hn : cl.nick b.name = s) :
    (linePrefix cl b.name).length = s.length + 2 := by
  rw [linePrefix, hn, List.length_append]
  rfl

theorem chatLine_nick (hn : cl.nick b.name = s) (hs : s.length ≤ 1022)
    (hd : d.length ≤ 1022 - s.length) : chatLine cl d b = s ++ ascii " :" ++
      cstr (d ++ List.replicate (1022 - s.length - d.length) 0 ++ b.buf) := by
  have hp := linePrefix_length hn
  have hroom : 1024 - (linePrefix cl b.name).length - d.length = 1022 - s.length - d.length := by
    omega
  rw [chatLine_eq (by omega) (by omega), hroom, linePrefix, hn]

/-- A string that ends in `buf` is what was received up to its first NUL. -/
theorem chatLine_closed (hn : cl.nick b.name = s) (hs : s.length ≤ 1022)
    (hd : d.length ≤ 1022 - s.length) (h : 0 ∉ d → d.length < 1022 - s.length) :
    chatLine cl d b = s ++ ascii " :" ++ cstr d := by
  rw [chatLine_nick hn hs hd, List.append_assoc d]
  congr 1
  by_cases h0 : 0 ∈ d
  · exact cstr_append_of_mem h0
  · obtain ⟨k, hk⟩ : ∃ k, 1022 - s.length - d.length = k + 1 :=
      Nat.exists_eq_succ_of_ne_zero (Nat.sub_ne_zero_of_lt (h h0))
    rw [hk, List.replicate_succ, List.cons_append, cstr_append_zero]

theorem chatLine_open (hn : cl.nick b.name = s) (hs : s.length ≤ 1022) (h0 : 0 ∉ d)
    (hd : d.length = 1022 - s.length) :
    chatLine cl d b = s ++ ascii " :" ++ (d ++ cstr b.buf) := by
  rw [chatLine_nick hn hs (Nat.le_of_eq hd), hd, Nat.sub_self, List.replicate_zero,
    List.append_nil, cstr_append_of_notMem h0]

/-- Where the name is shown and each result gives its line, the lines come out as typed. -/
theorem texts_tail {rs : List (List UInt8 × Behind)} (hn : ∀ r ∈ rs, cl.nick r.2.name = name)
    (hle : name.length ≤ 39) (hfit : ∀ r ∈ rs, Fits cl r)
    (hroom : ∀ c ∈ rs.map Prod.fst, 0 ∉ c → c.length < 1022 - name.length)
    (hall : List.Forall₂ (fun c l => cstr c = l) (rs.map Prod.fst) lines) :
    (texts cl behind rs).tail = lines.map (name ++ ascii " :" ++ ·) := by
  have hcs : rs.map (fun (d, b) => chatLine cl d b) =
      (rs.map Prod.fst).map (name ++ ascii " :" ++ cstr ·) := by
    rw [List.map_map]
    apply List.map_congr_left
    intro r hr
    have hr' := hfit r hr
    have hp := linePrefix_length (hn r hr)
    have hm := hroom r.1 (List.mem_map_of_mem hr)
    exact chatLine_closed (hn r hr) (by omega) (by rw [Fits] at hr'; omega) hm
  rw [texts, List.tail_cons, hcs, ← List.forall₂_eq_eq_eq, List.forall₂_map_left_iff,
    List.forall₂_map_right_iff]
  exact hall.imp fun c l hcl => by rw [hcl]

end Shown

section Slots

variable {t : Table} {f : Int} {first z name : List UInt8}

/-- The name field of a new entry, and behind what has arrived the bytes of the one before. -/
theorem entry_bytes (h : first.length ≤ 40) : (t.entry f first).name.bytes =
    first ++ (t.client t.cnt).name.bytes.drop first.length := by
  simp only [Table.entry, Buf.overwrite, List.take_of_length_le h]

/-- A name that arrives with its NUL is shown. -/
theorem nick_of_whole (hz : 0 ∉ name) (h : (name ++ 0 :: z).length ≤ 40) (b : List UInt8) :
    (t.entry f (name ++ 0 :: z)).nick b = name := by
  rw [Client.nick, entry_bytes h, List.append_assoc, List.append_assoc, List.cons_append,
    cstr_append_zero, cstr_of_notMem hz]

/-- Without it the string goes on with what was in the slot. -/
theorem nick_of_part (h0 : 0 ∉ first) (h : first.length ≤ 40) (b : List UInt8) :
    (t.entry f first).nick b =
      first ++ cstr ((t.client t.cnt).name.bytes.drop first.length ++ b) := by
  rw [Client.nick, entry_bytes h, List.append_assoc, cstr_append_of_notMem h0]

/-- If nothing follows once, the byte behind is a NUL and nothing ever does. -/
theorem nick_of_tight (h0 : 0 ∉ first) (h : first.length ≤ 39)
    (hb : ((t.entry f first).nick b).length ≤ first.length) (b' : List UInt8) :
    (t.entry f first).nick b' = first := by
  obtain ⟨x, l, hl⟩ : ∃ x l, (t.client t.cnt).name.bytes.drop first.length = x :: l := by
    apply List.exists_cons_of_length_pos
    rw [List.length_drop, Buf.length_bytes]
    omega
  rw [nick_of_part h0 (Nat.le_succ_of_le h), hl] at hb ⊢
  have hx : x = 0 := by
    by_contra hne
    have hcons : cstr (x :: l ++ b) = x :: cstr (l ++ b) :=
      List.takeWhile_cons_of_pos (decide_eq_true hne)
    rw [hcons, List.length_append, List.length_cons] at hb
    omega
  rw [hx]
  exact List.append_nil first

/-- A slot that nobody has used. -/
theorem nick_unused (h0 : 0 ∉ first) (h : first.length ≤ 39) (b : List UInt8) :
    (Table.empty.entry f first).nick b = first := by
  have hdrop : (Table.empty.client Table.empty.cnt).name.bytes.drop first.length =
      0 :: List.replicate (39 - first.length) 0 := by
    change (List.replicate 40 0).drop first.length = _
    rw [List.drop_replicate, ← List.replicate_succ]
    congr 1
    omega
  rw [nick_of_part h0 (Nat.le_succ_of_le h), hdrop]
  exact List.append_nil first

/-- A slot that makes the name longer by a byte. -/
def used (first : List UInt8) : Table := ⟨fun _ => ⟨0, (Buf.zero 40).overwrite (first ++ [1])⟩, 0⟩

theorem nick_used (h0 : 0 ∉ first) (h : first.length ≤ 39) :
    ((used first).entry f first).nick [] = first ++ [1] := by
  have hlen : (first ++ [1]).length = first.length + 1 := List.length_append
  have hle : (first ++ [1]).length ≤ 40 := hlen ▸ Nat.succ_le_succ h
  have hdrop : ((used first).client (used first).cnt).name.bytes.drop first.length =
      1 :: List.replicate (39 - first.length) 0 := by
    change ((first ++ [1]).take 40 ++ (List.replicate 40 0).drop (first ++ [1]).length).drop _ = _
    rw [List.take_of_length_le hle, List.drop_replicate, hlen, List.append_assoc, List.drop_left,
      Nat.add_comm, ← Nat.sub_sub]
    rfl
  rw [nick_of_part h0 (Nat.le_succ_of_le h), hdrop, List.append_nil]
  congr 1
  cases 39 - first.length <;> rfl

end Slots

/-- Where the name is shown as `s`, no result fills `buf` without a NUL, and the texts are equal
line by line. -/
theorem Delivered.shown {t : Table} {b : List UInt8} (hd : Delivered name lines first cs)
    (hn : (t.entry f first).nick b = s) (hs : s.length ≤ 1022)
    (hfit : ∀ c ∈ cs, c.length ≤ 1022 - s.length) :
    (∀ c ∈ cs, 0 ∉ c → c.length < 1022 - s.length) ∧
    List.Forall₂ (fun c l => s ++ ascii " :" ++ cstr c = name ++ ascii " :" ++ l) cs lines := by
  have hmap (buf : List UInt8) : cs.map (fun c => chatLine (t.entry f first) c ⟨b, buf⟩) =
      lines.map (name ++ ascii " :" ++ ·) := by
    have hcs : (cs.map fun c => (c, (⟨b, buf⟩ : Behind))).map Prod.fst = cs := by
      rw [List.map_map]
      exact List.map_id cs
    have hb := hd t f [] (cs.map fun c => (c, ⟨b, buf⟩)) hcs ?_
    · rwa [texts, List.tail_cons, List.map_map] at hb
    · intro r hr
      obtain ⟨c, hc, rfl⟩ := List.mem_map.1 hr
      have hp : (linePrefix (t.entry f first) b).length = s.length + 2 :=
        linePrefix_length (b := ⟨b, buf⟩) hn
      have hle := hfit c hc
      change c.length ≤ 1024 - (linePrefix (t.entry f first) b).length
      omega
  have hclosed : ∀ c ∈ cs, 0 ∉ c → c.length < 1022 - s.length := by
    intro c hc h0
    by_contra hlt
    have hlen : c.length = 1022 - s.length := Nat.le_antisymm (hfit c hc) (Nat.le_of_not_lt hlt)
    -- two things that may stand behind `buf` would make two lines of it
    have he := List.map_inj_left.1 ((hmap [1]).trans (hmap [2]).symm) c hc
    rw [chatLine_open hn hs h0 hlen, chatLine_open hn hs h0 hlen, List.append_cancel_left_eq,
      List.append_cancel_left_eq] at he
    have hne : cstr [1] ≠ cstr [2] := by decide
    exact hne he
  refine ⟨hclosed, ?_⟩
  have hcs : cs.map (fun c => chatLine (t.entry f first) c ⟨b, []⟩) =
      cs.map (s ++ ascii " :" ++ cstr ·) :=
    List.map_congr_left fun c hc => chatLine_closed hn hs (hfit c hc) (hclosed c hc)
  have hall := hcs.symm.trans (hmap [])
  rwa [← List.forall₂_eq_eq_eq, List.forall₂_map_left_iff, List.forall₂_map_right_iff] at hall

theorem separator_split (h : ascii " :" ++ t = x ++ (ascii " :" ++ line)) :
    (x = [] ∧ t = line) ∨ ∃ r, x = ascii " :" ++ r ∧ t = r ++ ascii " :" ++ line := by
  have hsep : ascii " :" = [32, 58] := rfl
  rw [hsep] at h ⊢
  cases x with
  | nil => exact .inl ⟨rfl, List.append_cancel_left h⟩
  | cons a x =>
    cases x with
    | nil =>
      -- the colon would have to be the space
      simp only [List.cons_append, List.nil_append, List.cons.injEq] at h
      exact absurd h.2.1 (by decide)
    | cons b r =>
      simp only [List.cons_append, List.nil_append, List.cons.injEq] at h
      obtain ⟨rfl, rfl, rfl⟩ := h
      refine .inr ⟨r, rfl, ?_⟩
      rw [List.append_assoc]
      rfl

section Cuts

variable {name first z : List UInt8} {lines cs : List (List UInt8)}

/-- A name that arrives in two has a result as long as any can be, so that only a slot without
other bytes is left for it. -/
theorem Delivered.tight (hd : Delivered (first ++ z) lines first cs)
    (h : Segments (first ++ z) lines first cs) (hcs : cs ≠ []) (h0 : 0 ∉ first)
    (hle : first.length ≤ 39) : ∃ c ∈ cs, c.length = 1022 - first.length := by
  by_contra hnone
  have hmax : ∀ c ∈ cs, c.length ≤ 1022 - first.length := by
    intro c hc
    have hc := h.rest_le c hc
    rwa [cstr_of_notMem h0] at hc
  have hfit : ∀ c ∈ cs, c.length ≤ 1022 - (first ++ [1]).length := by
    intro c hc
    have hne : c.length ≠ 1022 - first.length := fun he => hnone ⟨c, hc, he⟩
    have hle := hmax c hc
    rw [List.length_append, List.length_singleton]
    omega
  obtain ⟨-, hplain⟩ := hd.shown (f := 0) (nick_unused h0 hle []) (by omega) hmax
  obtain ⟨-, hlonger⟩ := hd.shown (f := 0) (nick_used h0 hle)
    (by rw [List.length_append, List.length_singleton]; omega) hfit
  obtain ⟨c, cs, rfl⟩ := List.exists_cons_of_ne_nil hcs
  cases hplain with
  | cons hp _ =>
    cases hlonger with
    | cons hl _ =>
      have he := hl.trans hp.symm
      simp only [List.append_assoc, List.append_cancel_left_eq] at he
      exact absurd (List.cons.inj he).1 (by decide)

/-- The separator would have to stand in the name, and what is left of the name behind it before
each of the lines. -/
theorem part_before (hz : z ≠ []) (h : List.Forall₂
      (fun c l => first ++ ascii " :" ++ cstr c = first ++ z ++ ascii " :" ++ l) cs lines) :
    List.Forall₂ (fun c l => ∃ r, z = ascii " :" ++ r ∧ cstr c = r ++ ascii " :" ++ l)
      cs lines := by
  apply h.imp
  intro c l he
  simp only [List.append_assoc, List.append_cancel_left_eq] at he
  rcases separator_split he with ⟨hnil, -⟩ | ⟨r, hr, hc⟩
  · exact absurd hnil hz
  · exact ⟨r, hr, hc⟩

theorem cstr_separator_ne (h : cstr c = r ++ ascii " :" ++ l) : cstr c ≠ [] := by
  rw [h]
  apply List.append_ne_nil_of_left_ne_nil
  exact List.append_ne_nil_of_right_ne_nil r (by decide)

theorem length_separator_le (h : cstr c = r ++ ascii " :" ++ l) :
    r.length + l.length + 2 ≤ c.length := by
  have hle : (cstr c).length ≤ c.length := (List.takeWhile_prefix _).length_le
  have hlen : (ascii " :").length = 2 := rfl
  rw [h, List.length_append, List.length_append, hlen] at hle
  omega

/-- The results would have to be longer than the stream. -/
theorem Segments.not_part (h : Segments (first ++ z) lines first cs) (hz : z ≠ [])
    (hrest : cs.flatten = z ++ 0 :: Framing.stream lines)
    (htight : ∃ c ∈ cs, c.length = 1022 - first.length) : ¬ List.Forall₂
      (fun c l => first ++ ascii " :" ++ cstr c = first ++ z ++ ascii " :" ++ l) cs lines := by
  intro hall
  have hname := h.name_le
  rw [List.length_append] at hname
  have hz0 : 0 ∉ z := fun hm =>
    h.typed _ List.mem_cons_self (List.mem_append_right first hm)
  cases part_before hz hall with
  | nil => exact List.append_ne_nil_of_left_ne_nil hz _ hrest.symm
  | @cons c l cs lines hcl hmore =>
    obtain ⟨r, hr, hc⟩ := hcl
    have hboth : List.Forall₂ (fun c l => cstr c ≠ [] ∧ l.length + 2 ≤ c.length) cs lines := by
      apply hmore.imp
      rintro c l ⟨r, -, hc⟩
      have hle := length_separator_le hc
      exact ⟨cstr_separator_ne hc, by omega⟩
    obtain ⟨hne, hlong⟩ := (List.forall₂_and_left _ _).1 hboth
    have hzero (x : List UInt8) : cs.flatten ≠ 0 :: x := Framing.flatten_ne_zero_cons hne
    -- the first line is empty, and what was left of the name is just the separator
    have hle := Framing.cstr_chunk_le hrest hz0
    have hlen : (ascii " :").length = 2 := rfl
    have hrz := congrArg List.length hr
    have hcz := congrArg List.length hc
    simp only [List.length_append, hlen] at hrz hcz
    obtain rfl : l = [] := List.eq_nil_of_length_eq_zero (by omega)
    rcases Framing.chunk_cases hrest with ⟨x, rfl, hx⟩ | ⟨y, rfl, hy⟩
    · have hcc := length_separator_le hc
      rw [List.length_append] at hrz
      obtain rfl : x = [] := List.eq_nil_of_length_eq_zero (by
        have hnil : ([] : List UInt8).length = 0 := rfl
        omega)
      exact hzero _ hx
    · rw [Framing.stream_cons, List.nil_append] at hy
      cases y with
      | nil => exact hzero _ hy.symm
      | cons b y =>
        obtain ⟨rfl, hback⟩ := List.cons.inj hy
        change Framing.stream lines = y ++ cs.flatten at hback
        have hshort := Framing.length_stream_lt hlong
        rw [hback, List.length_append] at hshort
        obtain rfl : lines = [] := List.eq_nil_of_length_eq_zero (by omega)
        cases hmore
        obtain ⟨c, hc, htight⟩ := htight
        obtain rfl := List.mem_singleton.1 hc
        obtain rfl : y = [] := (List.append_eq_nil_iff.1 hback.symm).1
        simp only [List.length_append, List.length_cons, List.length_nil] at htight
        omega

theorem Segments.cs_ne (h : Segments (first ++ z) lines first cs)
    (hrest : cs.flatten = z ++ 0 :: Framing.stream lines) : cs ≠ [] := by
  rintro rfl
  exact List.append_ne_nil_of_right_ne_nil z (List.cons_ne_nil 0 _) hrest.symm

/-- A name that arrives without its NUL arrives whole. -/
theorem Delivered.cut_of_part (hd : Delivered (first ++ z) lines first cs)
    (h : Segments (first ++ z) lines first cs)
    (hrest : cs.flatten = z ++ 0 :: Framing.stream lines) :
    z = [] ∧ (∀ c ∈ cs, 0 ∉ c → c.length < 1022 - first.length) ∧
      (∃ c ∈ cs, c.length = 1022 - first.length) ∧ Cut true lines cs := by
  have h0 : 0 ∉ first := fun hm =>
    h.typed _ List.mem_cons_self (List.mem_append_left z hm)
  have hle := h.name_le
  rw [List.length_append] at hle
  have hmax : ∀ c ∈ cs, c.length ≤ 1022 - first.length := by
    intro c hc
    have hc := h.rest_le c hc
    rwa [cstr_of_notMem h0] at hc
  have htight := hd.tight h (h.cs_ne hrest) h0 (by omega)
  obtain ⟨hroom, hall⟩ := hd.shown (f := 0) (nick_unused h0 (by omega) []) (by omega) hmax
  obtain rfl : z = [] := by
    by_contra hne
    exact h.not_part hne hrest htight hall
  rw [List.append_nil] at hall
  have hstr := hall.imp fun c l he => List.append_cancel_left he
  have hz : ∀ l ∈ lines, 0 ∉ l := fun l hl => h.typed l (List.mem_cons_of_mem _ hl)
  exact ⟨rfl, hroom, htight, Framing.cut_of_strings hz h.rest_ne hstr hrest⟩

/-- With its NUL it arrives alone. -/
theorem Delivered.cut_of_whole (hd : Delivered name lines (name ++ 0 :: z) cs)
    (h : Segments name lines (name ++ 0 :: z) cs) (hrest : Framing.stream lines = z ++ cs.flatten) :
    z = [] ∧ (∀ c ∈ cs, 0 ∉ c → c.length < 1022 - name.length) ∧ Cut false lines cs := by
  have h0 : 0 ∉ name := h.typed name List.mem_cons_self
  have hle := h.name_le
  have hmax : ∀ c ∈ cs, c.length ≤ 1022 - name.length := by
    intro c hc
    have hc := h.rest_le c hc
    rwa [cstr_append_zero, cstr_of_notMem h0] at hc
  obtain ⟨hroom, hall⟩ := hd.shown (t := .empty) (f := 0)
    (nick_of_whole h0 h.first_le []) (by omega) hmax
  have hstr := hall.imp fun c l he => List.append_cancel_left he
  have hz : ∀ l ∈ lines, 0 ∉ l := fun l hl => h.typed l (List.mem_cons_of_mem _ hl)
  obtain rfl : z = [] := by
    by_contra hne
    exact Framing.not_late hz h.rest_ne hstr hne hrest
  exact ⟨rfl, hroom, Framing.cut_of_strings hz h.rest_ne hstr hrest.symm⟩

end Cuts

/-- The lines come out as typed exactly if the name arrives with its NUL and each line in a result
of its own, none of which fills `buf` without a NUL. The name may come without its NUL where one of
the results is so long that it can only be asked for behind a name that ends with it. -/
theorem delivered_iff (h : Segments name lines first cs) : Delivered name lines first cs ↔
    (∀ c ∈ cs, 0 ∉ c → c.length < 1022 - name.length) ∧
    (first = name ++ [0] ∧ Cut false lines cs ∨
      first = name ∧ (∃ c ∈ cs, c.length = 1022 - name.length) ∧ Cut true lines cs) := by
  have hz : 0 ∉ name := h.typed name List.mem_cons_self
  have hzs : ∀ l ∈ lines, 0 ∉ l := fun l hl => h.typed l (List.mem_cons_of_mem _ hl)
  have hle := h.name_le
  constructor
  · intro hd
    have hs := h.stream
    rw [Framing.stream_cons] at hs
    rcases Framing.chunk_cases hs with ⟨z, rfl, hrest⟩ | ⟨y, rfl, hrest⟩
    · obtain ⟨rfl, hroom, hcut⟩ := hd.cut_of_part h hrest
      rw [List.append_nil]
      exact ⟨hroom, .inr ⟨rfl, hcut⟩⟩
    · obtain ⟨rfl, hroom, hcut⟩ := hd.cut_of_whole h hrest
      exact ⟨hroom, .inl ⟨rfl, hcut⟩⟩
  · rintro ⟨hroom, ⟨rfl, hcut⟩ | ⟨rfl, ⟨c, hc, htight⟩, hcut⟩⟩ t cfd behind rs rfl hfit
    · exact texts_tail (fun r _ => nick_of_whole hz h.first_le r.2.name) hle hfit hroom
        (hcut.strings hzs)
    · obtain ⟨r₀, hr₀, rfl⟩ := List.mem_map.1 hc
      have hfits := hfit r₀ hr₀
      rw [Fits, linePrefix_length rfl] at hfits
      have hshown := nick_of_tight (b := r₀.2.name) (t := t) (f := cfd) hz hle (by omega)
      exact texts_tail (fun r _ => hshown r.2.name) hle hfit hroom (hcut.strings hzs)

/-- A line that arrives together with the name is lost. -/
theorem not_delivered : Segments [97] [[98]] [97, 0, 98, 0] [] ∧
    ¬ Delivered [97] [[98]] [97, 0, 98, 0] [] := by
  constructor
  · exact ⟨by decide, by decide, rfl, nofun, by decide, nofun, nofun⟩
  · intro h
    cases h .empty 4 [] [] rfl nofun

/-- The name and the lines come one by one, one of them in two parts with its NUL in front of an
empty line. -/
theorem delivered_iff_parts : Delivered [97] [[98], [99], []] [97, 0] [[98, 0], [99], [0, 0]] := by
  have hs : Segments [97] [[98], [99], []] [97, 0] [[98, 0], [99], [0, 0]] :=
    ⟨by decide, by decide, rfl, nofun, by decide, by decide, by decide⟩
  refine (delivered_iff hs).2 ⟨by decide, .inl ⟨rfl, ?_⟩⟩
  exact .whole (.short (.late_whole .nil))

end LinuxIpc.TcpChat
