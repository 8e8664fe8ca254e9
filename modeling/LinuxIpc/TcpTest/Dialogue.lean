import LinuxIpc.Lib.Buffer
import LinuxIpc.Lib.Stdin
import LinuxIpc.Lib.Transition

namespace LinuxIpc.TcpTest
set_option autoImplicit true

/-- The servers; a handler is a thread of `s1.c` in `fun`, or a child of `s.c` in its loop. -/
inductive Server where
  | s
  | s1
  deriving DecidableEq, Repr

/-- Where the loop of `c.c` stands, or that of a handler. -/
inductive Pc where
  | fgets
  | read
  -- `quit` has been typed
  | left
  | killed
  deriving DecidableEq, Repr

def Pc.gone : Pc → Bool
  | .left | .killed => true
  | _ => false

/-- Whether the connection is closed at the server's end. In `s.c` it is not, as its `close(fd)` is
not given `client_sock`: `fd` is 0 in the child, and its process id in the parent. -/
def Server.closed : Server → Pc → Bool
  | .s, _ => false
  | .s1, pc => pc.gone

/-- `c.c`. Recorded are the lines it has written and the strings of `printf("server:%s\n",buf)`. -/
structure Client where
  pc : Pc
  buf : Buf 1024
  said : List (List UInt8)
  heard : List (List UInt8)

/-- A handler, which clears its `buf` before each use. Recorded are the lines it has written and the
strings of `printf("client %d:%s\n",client_sock,buf)`. -/
structure Handler where
  pc : Pc
  said : List (List UInt8)
  heard : List (List UInt8)

/-- The two ends of a connection and the bytes on their way in it. -/
structure St where
  client : Client
  up : List UInt8
  down : List UInt8
  handler : Handler

inductive Act where
  -- a line is typed, and a write to a socket that the other end has closed may kill
  | say (l : List UInt8) (killed : Bool)
  | answer (l : List UInt8) (killed : Bool)
  -- the number of bytes that `read` delivers, none where it fails, and what stands behind `buf`
  | hear (k : Nat) (beyond : List UInt8)
  | serve (k : Nat) (beyond : List UInt8)
  deriving DecidableEq, Repr

/-- What `fgets(buf,sizeof(buf),stdin)` gives. With a NUL at its start, `buf[strlen(buf)-1]` would
be a byte before the array. -/
def Line (l : List UInt8) : Prop := Stdin.Piece 1023 l ∧ cstr l ≠ []

instance (l : List UInt8) : Decidable (Line l) := inferInstanceAs (Decidable (_ ∧ _))

/-- `fgets` and `buf[strlen(buf)-1]='\0';` -/
def typed (b : Buf 1024) (l : List UInt8) : Buf 1024 :=
  let b := b.overwrite (l ++ [0])
  b.put ((cstr b.bytes).length - 1) 0

def lower (b : UInt8) : UInt8 := if 65 ≤ b ∧ b ≤ 90 then b + 32 else b

/-- `strncasecmp(buf,"quit",4)==0` -/
def quits (b : Buf 1024) : Bool := ((cstr b.bytes).take 4).map lower = ascii "quit"

/-- `write(sock,buf,sizeof(buf));` and the test of `buf`. -/
def Client.say (c : Client) (l : List UInt8) : Client :=
  { c with
    pc := if quits (typed c.buf l) then .left else .read
    buf := typed c.buf l
    said := c.said ++ [cstr (typed c.buf l).bytes] }

/-- `read(sock,buf,sizeof(buf));` and the `printf`. -/
def Client.hear (c : Client) (d beyond : List UInt8) : Client :=
  { c with
    pc := .fgets
    buf := c.buf.overwrite d
    heard := c.heard ++ [cstr ((c.buf.overwrite d).bytes ++ beyond)] }

def Handler.serve (h : Handler) (d beyond : List UInt8) : Handler :=
  { h with
    pc := .fgets
    heard := h.heard ++ [cstr (((Buf.zero 1024).overwrite d).bytes ++ beyond)] }

/-- `k` bytes are there to be read, or none will come any more. -/
def Arrived (k : Nat) (stream : List UInt8) (closed : Bool) : Prop :=
  k ≤ 1024 ∧ k ≤ stream.length ∧ (k = 0 → stream = [] ∧ closed = true)

instance (k : Nat) (stream : List UInt8) (closed : Bool) : Decidable (Arrived k stream closed) :=
  inferInstanceAs (Decidable (_ ∧ _))

def step (server : Server) (s : St) : Act → Option St
  | .say l killed =>
    if s.client.pc = .fgets ∧ Line l ∧ (killed = true → server.closed s.handler.pc = true) then
      if killed then
        some { s with client.pc := .killed, client.buf := typed s.client.buf l }
      else
        some { s with
          client := s.client.say l
          up := s.up ++ (typed s.client.buf l).bytes }
    else none
  | .answer l killed =>
    if s.handler.pc = .fgets ∧ Line l ∧ (killed = true → s.client.pc.gone = true) then
      let buf := typed (.zero 1024) l
      if quits buf then some { s with handler.pc := .left }
      else if killed then some { s with handler.pc := .killed }
      else
        some { s with
          handler.pc := .read
          handler.said := s.handler.said ++ [cstr buf.bytes]
          down := s.down ++ (cstr buf.bytes ++ [0]) }
    else none
  | .hear k beyond =>
    if s.client.pc = .read ∧ Arrived k s.down (server.closed s.handler.pc) then
      some { s with client := s.client.hear (s.down.take k) beyond, down := s.down.drop k }
    else none
  | .serve k beyond =>
    if s.handler.pc = .read ∧ Arrived k s.up s.client.pc.gone then
      some { s with handler := s.handler.serve (s.up.take k) beyond, up := s.up.drop k }
    else none

def start : St := ⟨⟨.fgets, .zero 1024, [], []⟩, [], [], ⟨.read, [], []⟩⟩

def sys (server : Server) : Sys St Act := ⟨(· = start), step server⟩

/-- Whoever reads gets all that is there, as far as it asks for it. -/
def Whole (s : St) : Act → Prop
  | .hear k _ => k = min 1024 s.down.length
  | .serve k _ => k = min 1024 s.up.length
  | .say _ _ | .answer _ _ => True

instance (s : St) : (a : Act) → Decidable (Whole s a)
  | .hear _ _ => inferInstanceAs (Decidable (_ = _))
  | .serve _ _ => inferInstanceAs (Decidable (_ = _))
  | .say _ _ => .isTrue trivial
  | .answer _ _ => .isTrue trivial

/-- Each end shows what the other one has said, line by line. When a handler of `s1.c` has left, the
client takes its own lines for what the server says, and when the client has left, the handler is
shown empty ones. While both are there and it is the client's turn, nothing is missing. -/
structure Faithful (server : Server) (s : St) : Prop where
  heard : ∀ i x, s.client.heard[i]? = some x → s.handler.said[i]? = some x ∨
    server = .s1 ∧ s.handler.pc = .left ∧ s.handler.said.length ≤ i ∧ s.client.said[i]? = some x
  shown : ∀ i x, s.handler.heard[i]? = some x → s.client.said[i]? = some x ∨
    s.client.pc = .left ∧ s.client.said.length ≤ i ∧ x = []
  turn : s.client.pc = .fgets → s.handler.pc = .read →
    s.client.heard = s.handler.said ∧ s.handler.heard = s.client.said

/-- The strip takes the newline, or the last byte of a line that does not fit. -/
theorem cstr_typed (b : Buf 1024) (hl : Line l) : cstr (typed b l).bytes = (cstr l).dropLast := by
  have hlt : l.length < 1024 := Nat.lt_succ_of_le hl.1.2.1
  have hstr := b.cstr_overwrite hlt
  obtain ⟨k, hk⟩ := Nat.exists_eq_succ_of_ne_zero (Nat.ne_of_gt (List.length_pos_of_ne_nil hl.2))
  have hput := (b.overwrite (l ++ [0])).cstr_put (k := k) (by rw [hstr, hk])
  rw [typed, hstr, hk, ← hstr]
  exact hput

theorem cstr_typed_length (b : Buf 1024) (hl : Line l) :
    (cstr (typed b l).bytes).length < 1023 := by
  have hle : (cstr l).length ≤ l.length := (List.takeWhile_prefix _).length_le
  have hlt : l.length ≤ 1023 := hl.1.2.1
  have hpos := List.length_pos_of_ne_nil hl.2
  rw [cstr_typed b hl, List.length_dropLast]
  omega

theorem zero_mem_typed (b : Buf 1024) (hl : Line l) : 0 ∈ (typed b l).bytes :=
  Buf.zero_mem _ (Nat.lt_succ_of_lt (cstr_typed_length b hl))

/-- A reply that is read as a whole. -/
theorem cstr_hear (b : Buf 1024) (hx : x.length < 1023) (h0 : 0 ∉ x) (beyond : List UInt8) :
    cstr ((b.overwrite (x ++ [0])).bytes ++ beyond) = x := by
  have hstr := b.cstr_overwrite (Nat.lt_succ_of_lt hx)
  have hmem : 0 ∈ (b.overwrite (x ++ [0])).bytes := by
    apply Buf.zero_mem
    rw [hstr, cstr_of_notMem h0]
    exact Nat.lt_succ_of_lt hx
  rw [cstr_append_of_mem hmem, hstr, cstr_of_notMem h0]

/-- An array of the client that is read as a whole. -/
theorem cstr_serve (b : Buf 1024) (h0 : 0 ∈ b.bytes) (beyond : List UInt8) :
    cstr (((Buf.zero 1024).overwrite b.bytes).bytes ++ beyond) = cstr b.bytes := by
  rw [Buf.overwrite_full _ b.length_bytes, cstr_append_of_mem h0]

theorem cstr_nothing (b : Buf 1024) (h0 : 0 ∈ b.bytes) (beyond : List UInt8) :
    cstr ((b.overwrite []).bytes ++ beyond) = cstr b.bytes := by
  rw [Buf.overwrite_nil, cstr_append_of_mem h0]

/-- The client has sent what is in its array, and before that `pre`. -/
structure Sent (c : Client) (pre : List (List UInt8)) : Prop where
  said : c.said = pre ++ [cstr c.buf.bytes]
  zero : 0 ∈ c.buf.bytes

/-- How far the two have come. -/
inductive Phase (server : Server) (s : St) : Prop
  | typing : s.client.pc = .fgets → s.handler.pc = .read → s.up = [] → s.down = [] →
      s.client.heard = s.handler.said → s.handler.heard = s.client.said →
      s.client.said.length = s.handler.said.length → Phase server s
  | asked : s.client.pc = .read → s.handler.pc = .read → s.up = s.client.buf.bytes → s.down = [] →
      s.client.heard = s.handler.said → Sent s.client s.handler.heard →
      s.handler.heard.length = s.handler.said.length → Phase server s
  | shown : s.client.pc = .read → s.handler.pc = .fgets → s.up = [] → s.down = [] →
      s.client.heard = s.handler.said → s.handler.heard = s.client.said →
      Sent s.client pre → pre.length = s.handler.said.length → Phase server s
  | told : s.client.pc = .read → s.handler.pc = .read → s.up = [] → s.down = x ++ [0] →
      x.length < 1023 → 0 ∉ x → s.handler.said = s.client.heard ++ [x] →
      s.handler.heard = s.client.said → s.client.said.length = s.handler.said.length →
      Phase server s
  -- the handler has left, and the client talks to itself
  | alone : s.handler.pc = .left → s.down = [] → (server = .s → own = []) →
      s.handler.heard <+: s.client.said → s.client.heard = s.handler.said ++ own →
      pre.length = s.handler.said.length →
      (s.client.pc = .fgets ∨ s.client.pc = .killed) ∧ s.client.said = pre ++ own ∨
        (s.client.pc = .read ∨ s.client.pc = .left) ∧ Sent s.client (pre ++ own) → Phase server s
  -- the client has left
  | deserted : s.client.pc = .left → s.client.heard <+: s.handler.said →
      s.handler.pc = .read ∧ s.up = s.client.buf.bytes ∧ Sent s.client s.handler.heard ∨
        s.up = [] ∧ s.handler.heard = s.client.said ++ List.replicate n [] → Phase server s

theorem Phase.start : Phase server start := .typing rfl rfl rfl rfl rfl rfl rfl

theorem Sent.say (c : Client) (hl : Line l) : Sent (c.say l) c.said := ⟨rfl, zero_mem_typed _ hl⟩

theorem Phase.say (h : Phase server s) (hpc : s.client.pc = .fgets) (hl : Line l) :
    Phase server { s with
      client := s.client.say l
      up := s.up ++ (typed s.client.buf l).bytes } := by
  have hsent := Sent.say s.client hl
  have hnext : (s.client.say l).pc = .left ∨ (s.client.say l).pc = .read := by
    rw [Client.say]
    dsimp only
    split
    · exact .inl rfl
    · exact .inr rfl
  cases h with
  | typing _ hh hup hdown hheard hshown hlen =>
    rcases hnext with hn | hn
    · refine .deserted hn (hheard ▸ List.prefix_rfl) (.inl ⟨hh, ?_, ?_⟩) (n := 0)
      · change s.up ++ _ = _
        rw [hup]
        rfl
      · exact hshown ▸ hsent
    · refine .asked hn hh ?_ hdown hheard (hshown ▸ hsent) (hshown ▸ hlen)
      change s.up ++ _ = _
      rw [hup]
      rfl
  | alone hh hdown hnone hpre hheard hlen hcase =>
    rename_i own pre
    have hsaid : s.client.said = pre ++ own := by
      rcases hcase with ⟨-, hsaid⟩ | ⟨hc, -⟩
      · exact hsaid
      · rw [hpc] at hc
        rcases hc with hc | hc <;> cases hc
    refine .alone hh hdown hnone (hpre.trans (List.prefix_append ..)) hheard hlen
      (.inr ⟨hnext.symm, ?_⟩)
    exact hsaid ▸ hsent
  | asked hc => cases hpc.symm.trans hc
  | shown hc => cases hpc.symm.trans hc
  | told hc => cases hpc.symm.trans hc
  | deserted hc => cases hpc.symm.trans hc

theorem Server.not_closed (server : Server) (h : pc.gone = false) : server.closed pc = false := by
  cases server with
  | s => rfl
  | s1 => exact h

/-- Only a handler that has left makes the client's write fail. -/
theorem Phase.kill_client (h : Phase server s) (hpc : s.client.pc = .fgets)
    (hk : server.closed s.handler.pc = true) (b : Buf 1024) :
    Phase server { s with client.pc := .killed, client.buf := b } := by
  cases h with
  | typing _ hh =>
    rw [hh, server.not_closed rfl] at hk
    cases hk
  | alone hh hdown hnone hpre hheard hlen hcase =>
    rcases hcase with ⟨-, hsaid⟩ | ⟨hc, -⟩
    · exact .alone hh hdown hnone hpre hheard hlen (.inl ⟨.inr rfl, hsaid⟩)
    · rw [hpc] at hc
      rcases hc with hc | hc <;> cases hc
  | asked hc => cases hpc.symm.trans hc
  | shown hc => cases hpc.symm.trans hc
  | told hc => cases hpc.symm.trans hc
  | deserted hc => cases hpc.symm.trans hc

theorem Phase.leave (h : Phase server s) (hpc : s.handler.pc = .fgets) :
    Phase server { s with handler.pc := .left } := by
  cases h with
  | typing _ hh => cases hpc.symm.trans hh
  | asked _ hh => cases hpc.symm.trans hh
  | shown hc hh hup hdown hheard hshown hsent hlen =>
    rename_i pre
    have hown : s.client.heard = s.handler.said ++ [] := by rw [List.append_nil, hheard]
    have hsent' : Sent s.client (pre ++ []) := (List.append_nil pre).symm ▸ hsent
    exact .alone rfl hdown (fun _ => rfl) (hshown ▸ List.prefix_rfl) hown hlen
      (.inr ⟨.inl hc, hsent'⟩)
  | told _ hh => cases hpc.symm.trans hh
  | alone hh => cases hpc.symm.trans hh
  | deserted hc hpre hcase =>
    rcases hcase with ⟨hh, -⟩ | hcase
    · cases hpc.symm.trans hh
    · exact .deserted hc hpre (.inr hcase)

theorem Phase.answer (h : Phase server s) (hpc : s.handler.pc = .fgets) (hx : x.length < 1023)
    (h0 : 0 ∉ x) : Phase server { s with
      handler.pc := .read
      handler.said := s.handler.said ++ [x]
      down := s.down ++ (x ++ [0]) } := by
  cases h with
  | typing _ hh => cases hpc.symm.trans hh
  | asked _ hh => cases hpc.symm.trans hh
  | shown hc hh hup hdown hheard hshown hsent hlen =>
    refine .told hc rfl hup ?_ hx h0 ?_ hshown ?_
    · change s.down ++ _ = _
      rw [hdown]
      rfl
    · change s.handler.said ++ [x] = s.client.heard ++ [x]
      rw [hheard]
    · change s.client.said.length = (s.handler.said ++ [x]).length
      rw [hsent.said, List.length_append, List.length_append, hlen]
      rfl
  | told _ hh => cases hpc.symm.trans hh
  | alone hh => cases hpc.symm.trans hh
  | deserted hc hpre hcase =>
    rcases hcase with ⟨hh, -⟩ | hcase
    · cases hpc.symm.trans hh
    · exact .deserted hc (hpre.trans (List.prefix_append ..)) (.inr hcase)

theorem Phase.kill_handler (h : Phase server s) (hpc : s.handler.pc = .fgets)
    (hk : s.client.pc.gone = true) : Phase server { s with handler.pc := .killed } := by
  cases h with
  | typing _ hh => cases hpc.symm.trans hh
  | asked _ hh => cases hpc.symm.trans hh
  | shown hc => rw [hc] at hk; cases hk
  | told _ hh => cases hpc.symm.trans hh
  | alone hh => cases hpc.symm.trans hh
  | deserted hc hpre hcase =>
    rcases hcase with ⟨hh, -⟩ | hcase
    · cases hpc.symm.trans hh
    · exact .deserted hc hpre (.inr hcase)

/-- Where nothing is on its way, a read waits for the other end to leave. -/
theorem Arrived.of_nil {stream : List UInt8} (ha : Arrived k stream closed) (hs : stream = []) :
    k = 0 ∧ closed = true := by
  have hk : k = 0 := by
    have hle := ha.2.1
    rw [hs] at hle
    exact Nat.le_zero.1 hle
  exact ⟨hk, (ha.2.2 hk).2⟩

theorem Phase.hear (h : Phase server s) (hpc : s.client.pc = .read)
    (ha : Arrived k s.down (server.closed s.handler.pc)) (hk : k = min 1024 s.down.length)
    (beyond : List UInt8) :
    Phase server { s with
      client := s.client.hear (s.down.take k) beyond
      down := s.down.drop k } := by
  cases h with
  | typing hc => cases hpc.symm.trans hc
  | asked _ hh _ hdown =>
    have hg := (ha.of_nil hdown).2
    rw [hh, server.not_closed rfl] at hg
    cases hg
  | shown _ hh _ hdown =>
    have hg := (ha.of_nil hdown).2
    rw [hh, server.not_closed rfl] at hg
    cases hg
  | told hc hh hup hdown hx h0 hsaid hshown hlen =>
    rename_i x
    have hfull : k = (x ++ [0]).length := by
      rw [hk, hdown]
      apply Nat.min_eq_right
      rw [List.length_append]
      exact Nat.le_of_lt (Nat.succ_lt_succ hx)
    refine .typing rfl hh hup ?_ ?_ hshown hlen
    · change s.down.drop k = []
      rw [hdown, hfull, List.drop_length]
    · change s.client.heard ++ [_] = s.handler.said
      rw [hsaid, hdown, hfull, List.take_length, cstr_hear _ hx h0]
  | alone hh hdown hnone hpre hheard hlen hcase =>
    rename_i own pre
    obtain ⟨rfl, hclosed⟩ := ha.of_nil hdown
    have hsent : Sent s.client (pre ++ own) := by
      rcases hcase with ⟨hc, -⟩ | ⟨-, hsent⟩
      · rw [hpc] at hc
        rcases hc with hc | hc <;> cases hc
      · exact hsent
    have hown : (s.client.hear (s.down.take 0) beyond).heard =
        s.handler.said ++ (own ++ [cstr s.client.buf.bytes]) := by
      change s.client.heard ++ [cstr ((s.client.buf.overwrite []).bytes ++ beyond)] = _
      rw [cstr_nothing _ hsent.zero, hheard, List.append_assoc]
    refine .alone hh hdown ?_ hpre hown hlen (.inl ⟨.inl rfl, ?_⟩)
    · rintro rfl
      cases hclosed
    exact hsent.said.trans (List.append_assoc ..)
  | deserted hc => cases hpc.symm.trans hc

theorem Phase.serve (h : Phase server s) (hpc : s.handler.pc = .read)
    (ha : Arrived k s.up s.client.pc.gone) (hk : k = min 1024 s.up.length) (beyond : List UInt8) :
    Phase server { s with handler := s.handler.serve (s.up.take k) beyond, up := s.up.drop k } := by
  have hfull (hup : s.up = s.client.buf.bytes) : s.up.take k = s.client.buf.bytes ∧
      s.up.drop k = [] := by
    have hlen := s.client.buf.length_bytes
    rw [hup, hlen] at hk
    rw [hup, hk]
    exact ⟨List.take_of_length_le (Nat.le_of_eq hlen), List.drop_eq_nil_of_le (Nat.le_of_eq hlen)⟩
  cases h with
  | typing hc _ hup =>
    have hg := (ha.of_nil hup).2
    rw [hc] at hg
    cases hg
  | asked hc hh hup hdown hheard hsent hlen =>
    obtain ⟨htake, hdrop⟩ := hfull hup
    refine .shown hc rfl hdrop hdown hheard ?_ hsent hlen
    change s.handler.heard ++ [_] = _
    rw [htake, cstr_serve _ hsent.zero, hsent.said]
  | shown _ hh => cases hpc.symm.trans hh
  | told hc _ hup =>
    have hg := (ha.of_nil hup).2
    rw [hc] at hg
    cases hg
  | alone hh => cases hpc.symm.trans hh
  | deserted hc hpre hcase =>
    rcases hcase with ⟨-, hup, hsent⟩ | ⟨hup, hheard⟩
    · obtain ⟨htake, hdrop⟩ := hfull hup
      refine .deserted hc hpre (.inr ⟨hdrop, ?_⟩) (n := 0)
      change s.handler.heard ++ [_] = s.client.said ++ []
      rw [htake, cstr_serve _ hsent.zero, hsent.said, List.append_nil]
    · rename_i n
      obtain ⟨rfl, -⟩ := ha.of_nil hup
      refine .deserted hc hpre (.inr ⟨hup, ?_⟩) (n := n + 1)
      change s.handler.heard ++ [cstr ((Buf.overwrite (.zero 1024) []).bytes ++ beyond)] = _
      have h0 : (0 : UInt8) ∈ (Buf.zero 1024).bytes := List.mem_replicate.2 ⟨by decide, rfl⟩
      rw [cstr_nothing _ h0, hheard, List.append_assoc, List.replicate_succ']
      rfl

theorem Phase.step (h : Phase server s) (hw : Whole s a) (ht : TcpTest.step server s a = some t) :
    Phase server t := by
  cases a with
  | say l killed =>
    obtain ⟨⟨hpc, hl, hk⟩, ht⟩ := Option.ite_none_right_eq_some.1 ht
    cases killed with
    | true =>
      obtain rfl := Option.some.inj ht
      exact h.kill_client hpc (hk rfl) _
    | false =>
      obtain rfl := Option.some.inj ht
      exact h.say hpc hl
  | answer l killed =>
    obtain ⟨⟨hpc, hl, hk⟩, ht⟩ := Option.ite_none_right_eq_some.1 ht
    dsimp only at ht
    split at ht
    · obtain rfl := Option.some.inj ht
      exact h.leave hpc
    · cases killed with
      | true =>
        obtain rfl := Option.some.inj ht
        exact h.kill_handler hpc (hk rfl)
      | false =>
        obtain rfl := Option.some.inj ht
        exact h.answer hpc (cstr_typed_length _ hl) fun h0 => ne_zero_of_mem_cstr h0 rfl
  | hear k beyond =>
    obtain ⟨⟨hpc, ha⟩, rfl⟩ := of_guard ht
    exact h.hear hpc ha hw beyond
  | serve k beyond =>
    obtain ⟨⟨hpc, ha⟩, rfl⟩ := of_guard ht
    exact h.serve hpc ha hw beyond

theorem getElem?_longer {l l' : List α} {i : Nat} (h : l <+: l') (hx : l[i]? = some x) :
    l'[i]? = some x := by
  obtain ⟨hi, rfl⟩ := List.getElem?_eq_some_iff.1 hx
  exact List.prefix_iff_getElem?.1 h i hi

theorem Phase.heard (h : Phase server s) (hx : s.client.heard[i]? = some x) :
    s.handler.said[i]? = some x ∨
      server = .s1 ∧ s.handler.pc = .left ∧ s.handler.said.length ≤ i ∧
        s.client.said[i]? = some x := by
  cases h with
  | typing _ _ _ _ hheard => exact .inl (hheard ▸ hx)
  | asked _ _ _ _ hheard => exact .inl (hheard ▸ hx)
  | shown _ _ _ _ hheard => exact .inl (hheard ▸ hx)
  | told _ _ _ _ _ _ hsaid => exact .inl (getElem?_longer ⟨_, hsaid.symm⟩ hx)
  | deserted _ hpre => exact .inl (getElem?_longer hpre hx)
  | alone hh _ hnone _ hheard hlen hcase =>
    rename_i own pre
    rw [hheard] at hx
    by_cases hi : i < s.handler.said.length
    · rw [List.getElem?_append_left hi] at hx
      exact .inl hx
    · have hle := Nat.le_of_not_lt hi
      have hserver : server = .s1 := by
        cases server with
        | s =>
          rw [hnone rfl, List.append_nil, List.getElem?_eq_none hle] at hx
          cases hx
        | s1 => rfl
      rw [List.getElem?_append_right hle, ← hlen, ← List.getElem?_append_right (hlen ▸ hle)] at hx
      refine .inr ⟨hserver, hh, hle, ?_⟩
      rcases hcase with ⟨-, hsaid⟩ | ⟨-, hsent⟩
      · rw [hsaid]
        exact hx
      · exact getElem?_longer ⟨_, hsent.said.symm⟩ hx

theorem Phase.shows (h : Phase server s) (hx : s.handler.heard[i]? = some x) :
    s.client.said[i]? = some x ∨ s.client.pc = .left ∧ s.client.said.length ≤ i ∧ x = [] := by
  cases h with
  | typing _ _ _ _ _ hshown => exact .inl (hshown ▸ hx)
  | asked _ _ _ _ _ hsent => exact .inl (getElem?_longer ⟨_, hsent.said.symm⟩ hx)
  | shown _ _ _ _ _ hshown => exact .inl (hshown ▸ hx)
  | told _ _ _ _ _ _ _ hshown => exact .inl (hshown ▸ hx)
  | alone _ _ _ hpre => exact .inl (getElem?_longer hpre hx)
  | deserted hc _ hcase =>
    rcases hcase with ⟨-, -, hsent⟩ | ⟨-, hheard⟩
    · exact .inl (getElem?_longer ⟨_, hsent.said.symm⟩ hx)
    · rw [hheard] at hx
      by_cases hi : i < s.client.said.length
      · rw [List.getElem?_append_left hi] at hx
        exact .inl hx
      · have hle := Nat.le_of_not_lt hi
        rw [List.getElem?_append_right hle] at hx
        exact .inr ⟨hc, hle, (List.mem_replicate.1 (List.mem_of_getElem? hx)).2⟩

theorem dialogue_faithful (hs : (sys server).ReachableIf Whole s) : Faithful server s := by
  have h : Phase server s := by
    apply hs.invariant
    · rintro s rfl
      exact .start
    · intro s a t h hw ht
      exact h.step hw ht
  refine ⟨fun i x => h.heard, fun i x => h.shows, ?_⟩
  intro hc hh
  cases h with
  | typing _ _ _ _ hheard hshown => exact ⟨hheard, hshown⟩
  | asked hc' => cases hc.symm.trans hc'
  | shown hc' => cases hc.symm.trans hc'
  | told hc' => cases hc.symm.trans hc'
  | alone hh' => cases hh.symm.trans hh'
  | deserted hc' => cases hc.symm.trans hc'

/-- The client asks, is answered and quits, and the handler is shown an empty line after that. -/
def visit : List Act :=
  [.say (ascii "hi\n") false, .serve 1024 [], .answer (ascii "yes\n") false, .hear 4 [],
    .say (ascii "Quit\n") false, .serve 1024 [], .answer (ascii "bye\n") false, .serve 0 []]

theorem dialogue_faithful_visit : ∃ s, (sys .s1).runIf Whole visit start = some s ∧
    s.client.heard = [ascii "yes"] ∧ s.handler.heard = [ascii "hi", ascii "Quit", []] ∧
    Faithful .s1 s := by
  have hr : ((sys .s1).runIf Whole visit start).map (fun s => (s.client.heard, s.handler.heard)) =
      some ([ascii "yes"], [ascii "hi", ascii "Quit", []]) := by decide +kernel
  obtain ⟨s, hs, he⟩ := Option.map_eq_some_iff.1 hr
  obtain ⟨hheard, hshown⟩ := Prod.mk.inj he
  exact ⟨s, hs, hheard, hshown, dialogue_faithful (.runIf (.init rfl) hs)⟩

/-- While the client waits, there is something to read on one side or a reply to come. -/
def UnderWay (s : St) : Prop :=
  s.client.pc = .read → s.up ≠ [] ∨ s.down ≠ [] ∨ s.handler.pc ≠ .read

def rank (s : St) : Nat :=
  2 * s.up.length + (if s.handler.pc = .fgets then 1 else 0) +
    if s.client.pc = .read then 1 else 0

theorem underWay_step (ht : step server s a = some t) : UnderWay t := by
  cases a with
  | say l killed =>
    obtain ⟨⟨hpc, hl, -⟩, ht⟩ := Option.ite_none_right_eq_some.1 ht
    cases killed with
    | true =>
      obtain rfl := Option.some.inj ht
      intro hc
      cases hc
    | false =>
      obtain rfl := Option.some.inj ht
      intro _
      left
      apply List.append_ne_nil_of_right_ne_nil
      exact List.ne_nil_of_mem (zero_mem_typed _ hl)
  | answer l killed =>
    obtain ⟨-, ht⟩ := Option.ite_none_right_eq_some.1 ht
    dsimp only at ht
    split at ht
    · obtain rfl := Option.some.inj ht
      exact fun _ => .inr (.inr nofun)
    · cases killed with
      | true =>
        obtain rfl := Option.some.inj ht
        exact fun _ => .inr (.inr nofun)
      | false =>
        obtain rfl := Option.some.inj ht
        exact fun _ => .inr (.inl (List.append_ne_nil_of_right_ne_nil _
          (List.append_ne_nil_of_right_ne_nil _ (List.cons_ne_nil _ _))))
  | hear k beyond =>
    obtain ⟨-, rfl⟩ := of_guard ht
    intro hc
    cases hc
  | serve k beyond =>
    obtain ⟨-, rfl⟩ := of_guard ht
    exact fun _ => .inr (.inr nofun)

theorem arrived_one {stream : List UInt8} (hs : stream ≠ []) : Arrived 1 stream closed :=
  ⟨by decide, List.length_pos_of_ne_nil hs, nofun⟩

theorem arrived_zero {stream : List UInt8} (hs : stream = []) (hc : closed = true) :
    Arrived 0 stream closed :=
  ⟨Nat.zero_le _, Nat.zero_le _, fun _ => ⟨hs, hc⟩⟩

theorem UnderWay.exists_step (h : UnderWay s) (hc : s.client.pc = .read) :
    ∃ a t, TcpTest.step .s1 s a = some t := by
  by_cases hdown : s.down = []
  · cases hh : s.handler.pc with
    | fgets =>
      have hg : s.handler.pc = .fgets ∧ Line [97, 10] ∧
          (false = true → s.client.pc.gone = true) := ⟨hh, by decide, nofun⟩
      refine ⟨.answer [97, 10] false, ?_⟩
      rw [TcpTest.step, if_pos hg]
      dsimp only
      split
      · exact ⟨_, rfl⟩
      · exact ⟨_, rfl⟩
    | read =>
      have hup : s.up ≠ [] := (h hc).resolve_right fun hr => hr.elim (· hdown) (· hh)
      exact ⟨.serve 1 [], _, if_pos ⟨hh, arrived_one hup⟩⟩
    | left =>
      exact ⟨.hear 0 [], _, if_pos ⟨hc, arrived_zero hdown (by rw [hh]; rfl)⟩⟩
    | killed =>
      exact ⟨.hear 0 [], _, if_pos ⟨hc, arrived_zero hdown (by rw [hh]; rfl)⟩⟩
  · exact ⟨.hear 1 [], _, if_pos ⟨hc, arrived_one hdown⟩⟩

theorem rank_step (hc : s.client.pc = .read) (ht : TcpTest.step server s a = some t) :
    rank t < rank s := by
  cases a with
  | say l killed =>
    obtain ⟨⟨hpc, -⟩, -⟩ := Option.ite_none_right_eq_some.1 ht
    cases hpc.symm.trans hc
  | answer l killed =>
    obtain ⟨⟨hh, -⟩, ht⟩ := Option.ite_none_right_eq_some.1 ht
    have hs : rank s = 2 * s.up.length + 1 + 1 := by rw [rank, if_pos hh, if_pos hc]
    have hlt (pc : Pc) (hpc : pc ≠ .fgets) (said : List (List UInt8)) (down : List UInt8) :
        rank { s with handler.pc := pc, handler.said := said, down := down } < rank s := by
      rw [hs, rank]
      dsimp only
      rw [if_neg hpc, if_pos hc]
      exact Nat.lt_succ_self _
    dsimp only at ht
    split at ht
    · obtain rfl := Option.some.inj ht
      exact hlt .left nofun _ _
    · cases killed with
      | true =>
        obtain rfl := Option.some.inj ht
        exact hlt .killed nofun _ _
      | false =>
        obtain rfl := Option.some.inj ht
        exact hlt .read nofun _ _
  | hear k beyond =>
    obtain ⟨-, rfl⟩ := of_guard ht
    rw [rank, rank, if_pos hc]
    exact Nat.lt_succ_self _
  | serve k beyond =>
    obtain ⟨⟨hh, -, hle, hzero⟩, rfl⟩ := of_guard ht
    have hk : k ≠ 0 := by
      intro hk
      have hg := (hzero hk).2
      rw [hc] at hg
      cases hg
    have hh' : s.handler.pc ≠ .fgets := by
      rw [hh]
      nofun
    rw [rank, rank, if_neg hh', if_pos hc]
    change 2 * (s.up.drop k).length + 1 + _ < _
    rw [List.length_drop]
    omega

theorem underWay_of_reachable (hs : (sys server).Reachable s) : UnderWay s := by
  apply hs.invariant
  · rintro s rfl hc
    cases hc
  · intro s a t _ _ ht
    exact underWay_step ht

/-- However the streams are cut, a client of `s1.c` does not wait for good: there comes to be
something for it to read, or the other end is closed. -/
theorem inevitable_turn (hs : (sys .s1).Reachable s) :
    (sys .s1).Inevitable (fun t => t.client.pc ≠ .read) s := by
  apply Sys.Inevitable.of_wellFounded (S := sys .s1) (I := UnderWay)
    (InvImage.wf rank Nat.lt_wfRel.wf)
  · intro s h hg
    exact h.exists_step (not_not.1 hg)
  · intro s a t _ hg ht
    exact ⟨underWay_step ht, rank_step (not_not.1 hg) ht⟩
  · exact underWay_of_reachable hs

/-- The handler gets half of what the client has written. -/
theorem inevitable_turn_cut : ∃ s, (sys .s1).run [.say (ascii "hi\n") false, .serve 512 []] start =
    some s ∧ s.client.pc = .read ∧ (sys .s1).Inevitable (fun t => t.client.pc ≠ .read) s := by
  have hr : ((sys .s1).run [.say (ascii "hi\n") false, .serve 512 []] start).map
      (fun s => s.client.pc) = some .read := by decide +kernel
  obtain ⟨s, hs, hc⟩ := Option.map_eq_some_iff.1 hr
  exact ⟨s, hs, hc, inevitable_turn (.of_run rfl hs)⟩

/-- The handler has gone without an answer. -/
structure Forsaken (s : St) : Prop where
  client : s.client.pc = .read
  handler : s.handler.pc.gone = true
  down : s.down = []

theorem Forsaken.gone (h : Forsaken s) (hh : s.handler.pc = pc) : pc.gone = true := hh ▸ h.handler

theorem Forsaken.no_step (h : Forsaken s) : TcpTest.step .s s a ≠ some t := by
  intro ht
  cases a with
  | say l killed =>
    obtain ⟨⟨hc, -⟩, -⟩ := Option.ite_none_right_eq_some.1 ht
    cases hc.symm.trans h.client
  | answer l killed =>
    obtain ⟨⟨hh, -⟩, -⟩ := Option.ite_none_right_eq_some.1 ht
    cases h.gone hh
  | hear k beyond =>
    obtain ⟨⟨-, ha⟩, -⟩ := of_guard ht
    cases (ha.of_nil h.down).2
  | serve k beyond =>
    obtain ⟨⟨hh, -⟩, -⟩ := of_guard ht
    cases h.gone hh

theorem Forsaken.not_inevitable (h : Forsaken s) :
    ¬ (sys .s).Inevitable (fun t => t.client.pc ≠ .read) s := by
  intro hi
  obtain ⟨t, ht, hg⟩ := hi.reaches (I := Forsaken) h fun s a t h ht => (h.no_step ht).elim
  exact hg ht.client

theorem quit_typed :
    Line (ascii "quit\n") ∧ quits (typed (.zero 1024) (ascii "quit\n")) = true := by
  decide +kernel

/-- A handler that is about to answer may quit instead. -/
theorem not_inevitable_of_fgets (hc : s.client.pc = .read) (hh : s.handler.pc = .fgets)
    (hdown : s.down = []) : ¬ (sys .s).Inevitable (fun t => t.client.pc ≠ .read) s := by
  intro hi
  have hg : s.handler.pc = .fgets ∧ Line (ascii "quit\n") ∧
      (false = true → s.client.pc.gone = true) := ⟨hh, quit_typed.1, nofun⟩
  have ht : TcpTest.step .s s (.answer (ascii "quit\n") false) =
      some { s with handler.pc := .left } := by
    rw [TcpTest.step, if_pos hg]
    dsimp only
    rw [if_pos quit_typed.2]
  have hf : Forsaken { s with handler.pc := .left } := ⟨hc, rfl, hdown⟩
  exact hf.not_inevitable (hi.step (a := Act.answer (ascii "quit\n") false) (not_not.2 hc) ht)

/-- What is on its way to a client stays there while it does not read. -/
theorem down_step (hdown : s.down ≠ []) (ht : TcpTest.step server s a = some t)
    (hc : t.client.pc = .read) : t.down ≠ [] := by
  cases a with
  | say l killed =>
    obtain ⟨-, ht⟩ := Option.ite_none_right_eq_some.1 ht
    cases killed with
    | true =>
      obtain rfl := Option.some.inj ht
      exact hdown
    | false =>
      obtain rfl := Option.some.inj ht
      exact hdown
  | answer l killed =>
    obtain ⟨-, ht⟩ := Option.ite_none_right_eq_some.1 ht
    dsimp only at ht
    split at ht
    · obtain rfl := Option.some.inj ht
      exact hdown
    · cases killed with
      | true =>
        obtain rfl := Option.some.inj ht
        exact hdown
      | false =>
        obtain rfl := Option.some.inj ht
        exact List.append_ne_nil_of_left_ne_nil hdown _
  | hear k beyond =>
    obtain ⟨-, rfl⟩ := of_guard ht
    cases hc
  | serve k beyond =>
    obtain ⟨-, rfl⟩ := of_guard ht
    exact hdown

/-- A client of `s.c` that waits is sure not to wait for good exactly when something is on its
way, for the connection stays open when the handler quits. -/
theorem turn_iff (hs : (sys .s).Reachable s) (hc : s.client.pc = .read) :
    (sys .s).Inevitable (fun t => t.client.pc ≠ .read) s ↔ s.down ≠ [] := by
  constructor
  · intro hi hdown
    cases hh : s.handler.pc with
    | fgets => exact not_inevitable_of_fgets hc hh hdown hi
    | read =>
      have hup : s.up ≠ [] := by
        rcases underWay_of_reachable hs hc with hup | hd | hr
        · exact hup
        · exact (hd hdown).elim
        · exact (hr hh).elim
      have ht : TcpTest.step .s s (.serve 1 []) =
          some { s with handler := s.handler.serve (s.up.take 1) [], up := s.up.drop 1 } :=
        if_pos ⟨hh, arrived_one hup⟩
      have hi' := hi.step (a := Act.serve 1 []) (not_not.2 hc) ht
      exact absurd hi' (not_inevitable_of_fgets hc rfl hdown)
    | left => exact Forsaken.not_inevitable ⟨hc, by rw [hh]; rfl, hdown⟩ hi
    | killed => exact Forsaken.not_inevitable ⟨hc, by rw [hh]; rfl, hdown⟩ hi
  · intro hdown
    apply Sys.Inevitable.of_wellFounded (S := sys .s)
      (I := fun s => s.client.pc = .read → s.down ≠ []) (InvImage.wf rank Nat.lt_wfRel.wf)
    · intro s h hg
      have hc := not_not.1 hg
      exact ⟨.hear 1 [], _, if_pos ⟨hc, arrived_one (h hc)⟩⟩
    · intro s a t h hg ht
      have hc := not_not.1 hg
      exact ⟨down_step (h hc) ht, rank_step hc ht⟩
    · exact fun _ => hdown

/-- The handler quits instead of answering the first line. -/
theorem turn_iff_quit : ∃ s, (sys .s).run
    [.say (ascii "hi\n") false, .serve 1024 [], .answer (ascii "quit\n") false] start = some s ∧
    s.client.pc = .read ∧ ¬ (sys .s).Inevitable (fun t => t.client.pc ≠ .read) s := by
  have hr : ((sys .s).run
      [.say (ascii "hi\n") false, .serve 1024 [], .answer (ascii "quit\n") false] start).map
      (fun s => (s.client.pc, s.down)) = some (.read, []) := by decide +kernel
  obtain ⟨s, hs, he⟩ := Option.map_eq_some_iff.1 hr
  obtain ⟨hc, hdown⟩ := Prod.mk.inj he
  exact ⟨s, hs, hc, fun hi => (turn_iff (.of_run rfl hs) hc).1 hi hdown⟩

end LinuxIpc.TcpTest
