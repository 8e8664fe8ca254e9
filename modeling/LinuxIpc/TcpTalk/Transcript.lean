import LinuxIpc.Lib.Buffer
import LinuxIpc.Lib.Stdin
import LinuxIpc.Lib.Transition

namespace LinuxIpc.TcpTalk
set_option autoImplicit true

def MAXDATASIZE : Nat := 256

/-- Where `95c.c` or `95s.c` stands: before the name has been sent or received, in its `select`
loop, or at `exit(0)`. -/
inductive Phase where
  | name
  | loop
  | done
  deriving DecidableEq, Repr

/-- `95c.c` -/
structure Client where
  name : Buf MAXDATASIZE
  send_str : Buf MAXDATASIZE
  phase : Phase

/-- `95s.c`; `file` is what it has written to name.txt, and `printed` the two strings of each
`printf("%s:%s\n",buff,buf)`. -/
structure Server where
  buf : Buf 256
  buff : Buf 256
  send_str : Buf 256
  phase : Phase
  file : List UInt8
  printed : List (List UInt8 × List UInt8)

/-- The two ends and the bytes on their way to the server. Recorded are the lines that the client
has sent, and the indices at which the server has stored a NUL behind what it received. -/
structure St where
  client : Client
  wire : List UInt8
  server : Server
  lines : List (List UInt8)
  stores : List Nat

inductive Act where
  -- the client's `scanf("%s",name)`
  | name (d : List UInt8)
  -- a line is typed at the client, or at the server
  | type (l : List UInt8)
  | reply (l : List UInt8)
  -- the server's `recv` returns `n`
  | recv (n : Nat)
  | eof
  -- `FD_ISSET(client_fd,&efd_set)`
  | except
  deriving DecidableEq, Repr

/-- `fgets(send_str,256,stdin); send_str[strlen(send_str)-1] = '\0';` -/
def typed (send_str : Buf 256) (l : List UInt8) : Buf 256 :=
  let b := send_str.overwrite (l ++ [0])
  b.put ((cstr b.bytes).length - 1) 0

/-- `strncmp("quit",send_str,4) == 0` -/
def quits (send_str : Buf 256) : Bool := (ascii "quit").isPrefixOf (cstr send_str.bytes)

/-- What `recv` has stored, with the NUL behind it; where that falls outside of the array there is
no saying what it hits. -/
def received (b : Buf 256) (d : List UInt8) : Buf 256 := (b.overwrite d).put d.length 0

def Server.recv (v : Server) (d : List UInt8) : Server :=
  match v.phase with
  | .name =>
    let buff := received v.buff d
    { v with buff := buff, phase := .loop, file := v.file ++ cstr buff.bytes ++ [10] }
  | .loop =>
    let buf := received v.buf d
    { v with buf := buf, printed := v.printed ++ [(cstr v.buff.bytes, cstr buf.bytes)] }
  | .done => v

/-- One end does one thing that its `select` has found ready. What the server sends to the client
is left out. -/
def step (s : St) : Act → Option St
  | .name d =>
    if s.client.phase = .name ∧ d ≠ [] ∧ d.length ≤ 255 ∧ 0 ∉ d then
      let name := s.client.name.overwrite (d ++ [0])
      some { s with
        client.name := name
        client.phase := .loop
        wire := s.wire ++ cstr name.bytes }
    else none
  | .type l =>
    if s.client.phase = .loop ∧ Stdin.Piece 255 l then
      let send_str := typed s.client.send_str l
      if quits send_str then
        some { s with client.send_str := send_str, client.phase := .done }
      else
        some { s with
          client.send_str := send_str
          wire := s.wire ++ cstr send_str.bytes
          lines := s.lines ++ [cstr send_str.bytes] }
    else none
  | .reply l =>
    if s.server.phase = .loop ∧ Stdin.Piece 255 l then
      let send_str := typed s.server.send_str l
      some { s with
        server.send_str := send_str
        server.phase := if quits send_str then .done else .loop }
    else none
  | .recv n =>
    if s.server.phase ≠ .done ∧ 0 < n ∧ n ≤ MAXDATASIZE ∧ n ≤ s.wire.length then
      some { s with
        wire := s.wire.drop n
        server := s.server.recv (s.wire.take n)
        stores := s.stores ++ [n] }
    else none
  | .eof =>
    if s.server.phase = .loop ∧ s.client.phase = .done ∧ s.wire = [] then
      some { s with server.phase := .done }
    else none
  | .except => if s.server.phase = .loop then some { s with server.phase := .done } else none

/-- No array is initialised, and name.txt is recorded from here on. -/
structure Fresh (s : St) : Prop where
  client : s.client.phase = .name
  wire : s.wire = []
  server : s.server.phase = .name
  file : s.server.file = []
  printed : s.server.printed = []
  lines : s.lines = []
  stores : s.stores = []

def sys : Sys St Act := ⟨Fresh, step⟩

/-- The name as the client sends it. -/
def St.name (s : St) : List UInt8 := cstr s.client.name.bytes

/-- Each NUL falls inside of the array. Once the name has been received it stands in name.txt, and
the texts printed are the lines sent, up to what is still on its way. -/
structure Faithful (s : St) : Prop where
  stores : ∀ n ∈ s.stores, n < 256
  file : s.server.phase ≠ .name → s.server.file = s.name ++ [10]
  texts : s.server.phase ≠ .name →
    (s.server.printed.map Prod.snd).flatten ++ s.wire = s.lines.flatten

/-- A `recv` leaves room for the NUL, and the first one returns the name. -/
def Whole (s : St) : Act → Prop
  | .recv n => n < 256 ∧ (s.server.phase = .name → n = s.name.length)
  | .name _ | .type _ | .reply _ | .eof | .except => True

instance (s : St) (a : Act) : Decidable (Whole s a) := by
  cases a <;> unfold Whole <;> infer_instance

/-- What holds however the stream is cut. -/
structure Inv (s : St) : Prop where
  unnamed : s.client.phase = .name → s.server.phase = .name ∧ s.wire = [] ∧ s.lines = []
  ahead : s.server.phase = .name → s.client.phase ≠ .name → s.wire = s.name ++ s.lines.flatten
  unread : s.server.phase = .name →
    s.server.file = [] ∧ s.server.printed = [] ∧ s.stores = []
  wire : 0 ∉ s.wire

/-- What has gone wrong for good. -/
def Spoilt (s : St) : Prop :=
  (∃ n ∈ s.stores, 256 ≤ n) ∨ s.server.phase ≠ .name ∧ s.server.file ≠ s.name ++ [10]

theorem zero_notMem_cstr (d : List UInt8) : 0 ∉ cstr d := fun h => ne_zero_of_mem_cstr h rfl

theorem Fresh.inv (h : Fresh s) : Inv s := by
  constructor
  case unnamed => exact fun _ => ⟨h.server, h.wire, h.lines⟩
  case ahead => exact fun _ hc => (hc h.client).elim
  case unread => exact fun _ => ⟨h.file, h.printed, h.stores⟩
  case wire =>
    rw [h.wire]
    exact List.not_mem_nil

theorem Fresh.faithful (h : Fresh s) : Faithful s := by
  constructor
  case stores =>
    rw [h.stores]
    exact nofun
  case file => exact fun hs => (hs h.server).elim
  case texts => exact fun hs => (hs h.server).elim

theorem Inv.named (h : Inv s) (hs : s.server.phase ≠ .name) : s.client.phase ≠ .name :=
  fun hc => hs (h.unnamed hc).1

theorem Inv.named_of_wire (h : Inv s) (hn : 0 < n) (hle : n ≤ s.wire.length) :
    s.client.phase ≠ .name := by
  intro hc
  rw [(h.unnamed hc).2.1] at hle
  exact absurd (Nat.lt_of_lt_of_le hn hle) (Nat.lt_irrefl 0)

theorem Inv.begun (hc : s.client.phase ≠ .name) (hs : s.server.phase ≠ .name) (hw : 0 ∉ s.wire) :
    Inv s :=
  ⟨fun h => (hc h).elim, fun h => (hs h).elim, fun h => (hs h).elim, hw⟩

theorem recv_phase (v : Server) (d : List UInt8) (h : v.phase ≠ .done) :
    (v.recv d).phase = .loop := by
  unfold Server.recv
  split
  · rfl
  · assumption
  · contradiction

theorem ne_name {p : Phase} (h : p = .loop) : p ≠ .name := by
  rw [h]
  nofun

theorem Inv.step (h : Inv s) (ht : step s a = some t) : Inv t := by
  cases a with
  | name d =>
    obtain ⟨⟨hc, -⟩, rfl⟩ := of_guard ht
    obtain ⟨hs, hw, hl⟩ := h.unnamed hc
    constructor
    case unnamed => exact nofun
    case ahead =>
      intro _ _
      dsimp only
      rw [hw, hl, List.flatten_nil, List.nil_append, List.append_nil]
      rfl
    case unread => exact fun _ => h.unread hs
    case wire =>
      dsimp only
      rw [hw, List.nil_append]
      exact zero_notMem_cstr _
  | type l =>
    obtain ⟨⟨hc, -⟩, ht⟩ := Option.ite_none_right_eq_some.1 ht
    have hne : s.client.phase ≠ .name := by
      rw [hc]
      nofun
    split at ht
    · obtain rfl := Option.some.inj ht
      exact ⟨nofun, fun hs _ => h.ahead hs hne, h.unread, h.wire⟩
    · obtain rfl := Option.some.inj ht
      refine ⟨fun hn => (hne hn).elim, fun hs _ => ?_, h.unread, ?_⟩
      · dsimp only
        rw [h.ahead hs hne, List.flatten_append, List.flatten_singleton, List.append_assoc]
        rfl
      · dsimp only
        rw [List.mem_append, not_or]
        exact ⟨h.wire, zero_notMem_cstr _⟩
  | reply l =>
    obtain ⟨⟨hs, -⟩, rfl⟩ := of_guard ht
    refine .begun (h.named (ne_name hs)) ?_ h.wire
    dsimp only
    split <;> nofun
  | recv n =>
    obtain ⟨⟨hd, hn, -, hle⟩, rfl⟩ := of_guard ht
    refine .begun (h.named_of_wire hn hle) (ne_name (recv_phase _ _ hd)) fun hz => ?_
    exact h.wire (List.mem_of_mem_drop hz)
  | eof =>
    obtain ⟨⟨hs, -⟩, rfl⟩ := of_guard ht
    exact .begun (h.named (ne_name hs)) nofun h.wire
  | except =>
    obtain ⟨hs, rfl⟩ := of_guard ht
    exact .begun (h.named (ne_name hs)) nofun h.wire

theorem received_cstr (b : Buf 256) (hz : 0 ∉ d) (hd : d.length < 256) :
    cstr (received b d).bytes = d :=
  (b.cstr_overwrite_put hd).trans (cstr_of_notMem hz)

theorem Faithful.stored (h : Faithful s) (hlt : n < 256) : ∀ m ∈ s.stores ++ [n], m < 256 := by
  intro m hm
  rcases List.mem_append.1 hm with hm | hm
  · exact h.stores m hm
  · rw [List.mem_singleton.1 hm]
    exact hlt

theorem Faithful.first (h : Faithful s) (hi : Inv s) (hc : s.client.phase ≠ .name)
    (hs : s.server.phase = .name) (hn : n = s.name.length) (hlt : n < 256) :
    Faithful { s with
      wire := s.wire.drop n
      server := s.server.recv (s.wire.take n)
      stores := s.stores ++ [n] } := by
  subst hn
  have hw := hi.ahead hs hc
  obtain ⟨hfile, hprinted, -⟩ := hi.unread hs
  have htake : s.wire.take s.name.length = s.name := by rw [hw, List.take_left]
  have hdrop : s.wire.drop s.name.length = s.lines.flatten := by rw [hw, List.drop_left]
  constructor
  case stores => exact h.stored hlt
  case file =>
    intro _
    have hz : 0 ∉ s.name := zero_notMem_cstr _
    rw [htake]
    change (s.server.recv s.name).file = s.name ++ [10]
    rw [Server.recv, hs]
    dsimp only
    rw [hfile, received_cstr _ hz hlt, List.nil_append]
  case texts =>
    intro _
    rw [htake, hdrop]
    change ((s.server.recv s.name).printed.map Prod.snd).flatten ++ _ = _
    rw [Server.recv, hs]
    dsimp only
    rw [hprinted, List.map_nil, List.flatten_nil, List.nil_append]

theorem Faithful.later (h : Faithful s) (hi : Inv s) (hs : s.server.phase = .loop)
    (hle : n ≤ s.wire.length) (hlt : n < 256) :
    Faithful { s with
      wire := s.wire.drop n
      server := s.server.recv (s.wire.take n)
      stores := s.stores ++ [n] } := by
  have hz : 0 ∉ s.wire.take n := fun hm => hi.wire (List.mem_of_mem_take hm)
  have hlen : (s.wire.take n).length < 256 := by
    rw [List.length_take_of_le hle]
    exact hlt
  constructor
  case stores => exact h.stored hlt
  case file =>
    intro _
    change (s.server.recv (s.wire.take n)).file = _
    rw [Server.recv, hs]
    exact h.file (ne_name hs)
  case texts =>
    intro _
    change ((s.server.recv (s.wire.take n)).printed.map Prod.snd).flatten ++ s.wire.drop n = _
    rw [Server.recv, hs]
    dsimp only
    rw [List.map_append, List.flatten_append, List.map_singleton, List.flatten_singleton,
      received_cstr _ hz hlen, List.append_assoc, List.take_append_drop, h.texts (ne_name hs)]

theorem Faithful.step (h : Faithful s) (hi : Inv s) (hw : Whole s a)
    (ht : TcpTalk.step s a = some t) : Faithful t := by
  cases a with
  | name d =>
    obtain ⟨⟨hc, -⟩, rfl⟩ := of_guard ht
    have hs := (hi.unnamed hc).1
    exact ⟨h.stores, fun hne => (hne hs).elim, fun hne => (hne hs).elim⟩
  | type l =>
    obtain ⟨⟨hc, -⟩, ht⟩ := Option.ite_none_right_eq_some.1 ht
    split at ht
    · obtain rfl := Option.some.inj ht
      exact ⟨h.stores, h.file, h.texts⟩
    · obtain rfl := Option.some.inj ht
      refine ⟨h.stores, h.file, fun hs => ?_⟩
      dsimp only
      rw [← List.append_assoc, h.texts hs, List.flatten_append, List.flatten_singleton]
  | reply l =>
    obtain ⟨⟨hs, -⟩, rfl⟩ := of_guard ht
    exact ⟨h.stores, fun _ => h.file (ne_name hs), fun _ => h.texts (ne_name hs)⟩
  | recv n =>
    obtain ⟨⟨hd, hn, -, hle⟩, rfl⟩ := of_guard ht
    cases hs : s.server.phase with
    | name => exact h.first hi (hi.named_of_wire hn hle) hs (hw.2 hs) hw.1
    | loop => exact h.later hi hs hle hw.1
    | done => exact (hd hs).elim
  | eof =>
    obtain ⟨⟨hs, -⟩, rfl⟩ := of_guard ht
    exact ⟨h.stores, fun _ => h.file (ne_name hs), fun _ => h.texts (ne_name hs)⟩
  | except =>
    obtain ⟨hs, rfl⟩ := of_guard ht
    exact ⟨h.stores, fun _ => h.file (ne_name hs), fun _ => h.texts (ne_name hs)⟩

/-- A `recv` that fills the array, or is not the name, spoils the transcript. -/
theorem Inv.spoilt (h : Inv s) (hw : ¬ Whole s a) (ht : TcpTalk.step s a = some t) : Spoilt t := by
  cases a with
  | recv n =>
    obtain ⟨⟨hd, hn, -, hle⟩, rfl⟩ := of_guard ht
    by_cases hlt : n < 256
    · obtain ⟨hs, hne⟩ : s.server.phase = .name ∧ n ≠ s.name.length := by
        by_contra hcon
        exact hw ⟨hlt, fun hs => not_not.1 fun hne => hcon ⟨hs, hne⟩⟩
      refine .inr ⟨ne_name (recv_phase _ _ hd), fun hfile => hne ?_⟩
      have hz : 0 ∉ s.wire.take n := fun hm => h.wire (List.mem_of_mem_take hm)
      have hlen : (s.wire.take n).length = n := List.length_take_of_le hle
      have hfits : (s.wire.take n).length < 256 := by rwa [hlen]
      change (s.server.recv (s.wire.take n)).file = s.name ++ [10] at hfile
      rw [Server.recv, hs] at hfile
      dsimp only at hfile
      rw [(h.unread hs).1, received_cstr _ hz hfits, List.nil_append] at hfile
      rw [← List.append_cancel_right hfile, hlen]
    · exact .inl ⟨n, List.mem_append_right _ (List.mem_singleton_self n), Nat.le_of_not_lt hlt⟩
  | name d => exact (hw trivial).elim
  | type l => exact (hw trivial).elim
  | reply l => exact (hw trivial).elim
  | eof => exact (hw trivial).elim
  | except => exact (hw trivial).elim

theorem Spoilt.step (h : Spoilt s) (hi : Inv s) (ht : TcpTalk.step s a = some t) : Spoilt t := by
  cases a with
  | name d =>
    obtain ⟨⟨hc, -⟩, rfl⟩ := of_guard ht
    exact .inl (h.resolve_right fun hs => hs.1 (hi.unnamed hc).1)
  | type l =>
    obtain ⟨-, ht⟩ := Option.ite_none_right_eq_some.1 ht
    split at ht
    · obtain rfl := Option.some.inj ht
      exact h
    · obtain rfl := Option.some.inj ht
      exact h
  | reply l =>
    obtain ⟨⟨hs, -⟩, rfl⟩ := of_guard ht
    refine h.imp id fun hf => ⟨?_, hf.2⟩
    dsimp only
    split <;> nofun
  | recv n =>
    obtain ⟨⟨hd, -⟩, rfl⟩ := of_guard ht
    rcases h with ⟨m, hm, hge⟩ | ⟨hs, hf⟩
    · exact .inl ⟨m, List.mem_append_left _ hm, hge⟩
    · refine .inr ⟨ne_name (recv_phase _ _ hd), ?_⟩
      change (s.server.recv (s.wire.take n)).file ≠ s.name ++ [10]
      unfold Server.recv
      split
      · contradiction
      · exact hf
      · exact hf
  | eof =>
    obtain ⟨-, rfl⟩ := of_guard ht
    exact h.imp id fun hf => ⟨nofun, hf.2⟩
  | except =>
    obtain ⟨-, rfl⟩ := of_guard ht
    exact h.imp id fun hf => ⟨nofun, hf.2⟩

theorem Spoilt.not_faithful (h : Spoilt s) : ¬ Faithful s := by
  intro hf
  rcases h with ⟨n, hn, hge⟩ | ⟨hs, hne⟩
  · exact absurd (hf.stores n hn) (Nat.not_lt_of_le hge)
  · exact hne (hf.file hs)

theorem Faithful.iff (h : Faithful s) (hi : Inv s) (hr : sys.run as s = some t) :
    Faithful t ↔ sys.Along Whole as s := by
  have hrun : sys.Along Whole as s ∧ (Inv t ∧ Faithful t) ∨
      ¬ sys.Along Whole as s ∧ (Inv t ∧ Spoilt t) := by
    refine Sys.along_or (G := Whole) (I := fun t => Inv t ∧ Faithful t)
      (B := fun t => Inv t ∧ Spoilt t) ?_ ?_ ?_ ⟨hi, h⟩ hr
    · intro s a t hs hw hu
      exact ⟨hs.1.step hu, hs.2.step hs.1 hw hu⟩
    · intro s a t hs hw hu
      exact ⟨hs.1.step hu, hs.1.spoilt hw hu⟩
    · intro s a t hs hu
      exact ⟨hs.1.step hu, hs.2.step hs.1 hu⟩
  rcases hrun with ⟨ha, -, ht⟩ | ⟨ha, -, ht⟩
  · exact ⟨fun _ => ha, fun _ => ht⟩
  · exact ⟨fun hf => (ht.not_faithful hf).elim, fun hb => (ha hb).elim⟩

/-- The transcript of a run is faithful exactly if the first `recv` returned the name and each of
them left room for the NUL. -/
theorem transcript_iff (h : Fresh s) (hr : sys.run as s = some t) :
    Faithful t ↔ sys.Along Whole as s := h.faithful.iff h.inv hr

def zeroed : St :=
  ⟨⟨.zero 256, .zero 256, .name⟩, [], ⟨.zero 256, .zero 256, .zero 256, .name, [], []⟩, [], []⟩

theorem zeroed_fresh : Fresh zeroed := ⟨rfl, rfl, rfl, rfl, rfl, rfl, rfl⟩

/-- The client has sent "ann" and "hi"; the empty line is what `scanf` has left of the first one. -/
def greeting : List Act := [.name (ascii "ann"), .type [10], .type (ascii "hi\n")]

/-- The server finds the name and the line together. -/
theorem not_transcript : ∃ as s, sys.run as zeroed = some s ∧ s.wire = [] ∧ ¬ Faithful s := by
  have hr : ((sys.run (greeting ++ [.recv 5]) zeroed).map fun s =>
      (s.wire, s.server.phase, s.server.file, s.name)) =
      some ([], .loop, ascii "annhi\n", ascii "ann") := by decide +kernel
  obtain ⟨s, hs, he⟩ := Option.map_eq_some_iff.1 hr
  simp only [Prod.mk.injEq] at he
  obtain ⟨hw, hphase, hfile, hname⟩ := he
  refine ⟨_, s, hs, hw, fun hf => ?_⟩
  have hwritten := hf.file (ne_name hphase)
  rw [hfile, hname] at hwritten
  exact absurd hwritten (by decide)

theorem transcript_iff_greeting : ∃ s,
    sys.run (greeting ++ [.recv 3, .recv 1, .recv 1]) zeroed = some s ∧ Faithful s ∧
      s.server.printed = [(ascii "ann", ascii "h"), (ascii "ann", ascii "i")] := by
  have hr : ((sys.run (greeting ++ [.recv 3, .recv 1, .recv 1]) zeroed).map fun s =>
      s.server.printed) = some [(ascii "ann", ascii "h"), (ascii "ann", ascii "i")] := by
    decide +kernel
  obtain ⟨s, hs, he⟩ := Option.map_eq_some_iff.1 hr
  exact ⟨s, hs, (transcript_iff zeroed_fresh hs).2 (by decide +kernel), he⟩

end LinuxIpc.TcpTalk
