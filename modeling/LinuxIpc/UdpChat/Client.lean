import LinuxIpc.Lib.Stdin
import LinuxIpc.UdpChat.Server
import Mathlib.Data.List.Infix

namespace LinuxIpc.UdpChat
set_option autoImplicit true

/-- `MSG` by its fields. -/
structure Fields where
  type : UInt8
  name : Buf 32
  text : Buf 128

namespace Fields

/-- The bytes that `sendto` takes. -/
def msg (f : Fields) : Msg where
  bytes := f.type :: (f.name.bytes ++ f.text.bytes)
  length_bytes := by
    rw [List.length_cons, List.length_append, f.name.length_bytes, f.text.length_bytes]
    rfl

/-- `fgets(msg.name,64,stdin); msg.name[strlen(msg.name) - 1] = '\0';` for the line `d`, which may
run on into `text`. -/
def readName (f : Fields) (d : List UInt8) : Fields :=
  let both : Buf 160 := ⟨f.name.bytes ++ f.text.bytes, by
    rw [List.length_append, f.name.length_bytes, f.text.length_bytes]⟩
  let b := both.overwrite (d ++ [0])
  let b := b.put ((cstr b.bytes).length - 1) 0
  { f with
    name := ⟨b.bytes.take 32, by rw [List.length_take, b.length_bytes]; rfl⟩
    text := ⟨b.bytes.drop 32, by rw [List.length_drop, b.length_bytes]⟩ }

/-- `fgets(msg.text,N,stdin)` where it gives `d`. -/
def readText (f : Fields) (d : List UInt8) : Fields :=
  { f with text := f.text.overwrite (d ++ [0]) }

/-- `msg.text[strlen(msg.text) - 1] = '\0';` Before an empty text stands the last byte of `name`. -/
def strip (f : Fields) : Fields :=
  match (cstr f.text.bytes).length with
  | 0 => { f with name := f.name.put 31 0 }
  | k + 1 => { f with text := f.text.put k 0 }

end Fields

/-- The child process, with what is left of its input; `line` records the number of ends of lines
that it has read. -/
structure Client where
  stdin : List UInt8
  msg : Fields
  line : Nat

/-- A message sent to the server. Recorded is the line that was read for it, if one was. -/
structure Sent where
  msg : Msg
  line : Option Nat

namespace Client

/-- At the end of the input `fgets` leaves `text` as it is. -/
def read (c : Client) : Client :=
  if c.stdin = [] then c
  else
    let (d, rest) := Stdin.fgets 127 c.stdin
    ⟨rest, c.msg.readText d, if 10 ∈ d then c.line + 1 else c.line⟩

/-- One iteration of the input loop. -/
def turn (c : Client) : Client × Sent :=
  let msg := c.read.msg.strip
  let type := if (ascii "quit").isPrefixOf (cstr msg.text.bytes) then quit else broadcast
  ({ c.read with msg := { msg with type } },
    ⟨Fields.msg { msg with type }, if c.stdin = [] then none else some c.line⟩)

/-- What `n` iterations send; the loop ends with a quit. -/
def sends : Nat → Client → List Sent
  | 0, _ => []
  | n + 1, c => c.turn.2 :: if c.turn.2.msg.type = quit then [] else c.turn.1.sends n

end Client

/-- The child when the name has been typed and the login sent; what `msg` held before is not
known. -/
def begin (init : Fields) (name stdin : List UInt8) : Client :=
  ⟨stdin, { init.readName (name ++ [10]) with type := login }, 0⟩

/-- `msg.text` of a message that has arrived. -/
def Msg.text (m : Msg) : List UInt8 := cstr (m.bytes.drop 33)

/-- What a client at `dst` prints behind `from %s> ` when a message comes from `src`: the server
relays it, and the client, whose `msg` is `own`, receives it. -/
def shown (s : Server) (src dst : SockaddrIn) (own : Msg) (m : Msg) : List (List UInt8) :=
  ((receive s ⟨m.bytes, src⟩).2.filter fun e => e.dst = dst).flatMap fun e =>
    let msg := own.overwrite e.msg.bytes
    if Msg.type msg = broadcast then [Msg.text msg] else []

theorem Fields.text_msg (f : Fields) : f.msg.text = cstr f.text.bytes := by
  change cstr ((f.name.bytes ++ f.text.bytes).drop 32) = _
  rw [List.drop_left' f.name.length_bytes]

/-- The strip takes the last byte, whatever it is. -/
theorem Fields.strip_text (f : Fields) :
    cstr f.strip.text.bytes = (cstr f.text.bytes).dropLast := by
  unfold strip
  split
  · rename_i h
    rw [List.eq_nil_of_length_eq_zero h]
    rfl
  · rename_i k h
    exact f.text.cstr_put h

theorem Fields.readText_text (f : Fields) (hd : d.length ≤ 127) (hz : 0 ∉ d) :
    cstr (f.readText d).text.bytes = d := by
  rw [readText, Buf.cstr_overwrite _ (Nat.lt_succ_of_le hd), cstr_of_notMem hz]

theorem sendOthers_filter (msg : Msg) (x y : SockaddrIn) (H : List SockaddrIn) :
    (sendOthers msg x H).filter (fun e => e.dst = y) =
      List.replicate (if x = y then 0 else H.count y) ⟨msg, y⟩ := by
  rw [← sendsTo_sendOthers msg x y H, sendsTo, List.eq_replicate_iff, List.countP_eq_length_filter]
  refine ⟨rfl, ?_⟩
  intro e he
  obtain ⟨he, hd⟩ := List.mem_filter.1 he
  have hm : ∀ H, e ∈ sendOthers msg x H → e.msg = msg := by
    intro H he
    induction H with
    | nil => cases he
    | cons z H ih =>
      rw [sendOthers] at he
      split at he
      · exact ih he
      · rcases List.mem_cons.1 he with rfl | he
        · rfl
        · exact ih he
  cases e
  obtain rfl := hm H he
  obtain rfl := of_decide_eq_true hd
  rfl

/-- A message of full size takes the place of what was there. -/
theorem Msg.overwrite_msg (own m : Msg) : own.overwrite m.bytes = m :=
  Buf.eq_of_bytes (own.overwrite_full m.length_bytes)

theorem receive_broadcast (s : Server) (src : SockaddrIn) (hm : m.type = broadcast) :
    (receive s ⟨m.bytes, src⟩).2 = sendOthers m src s.H := by
  change (dispatch s.H (s.msg.overwrite m.bytes) src).2 = _
  rw [Msg.overwrite_msg, dispatch, if_neg (by rw [hm]; decide), if_pos hm]
  rfl

/-- A full-size broadcast is printed as it was sent, by each other member once. -/
theorem shown_broadcast (s : Server) (own : Msg) (hm : m.type = broadcast)
    (hdst : s.H.count dst = 1) (hne : src ≠ dst) : shown s src dst own m = [m.text] := by
  rw [shown, receive_broadcast s src hm, sendOthers_filter, if_neg hne, hdst]
  change (if Msg.type (own.overwrite m.bytes) = broadcast then [Msg.text (own.overwrite m.bytes)]
    else []) ++ [] = _
  rw [Msg.overwrite_msg, if_pos hm, List.append_nil]

end LinuxIpc.UdpChat
