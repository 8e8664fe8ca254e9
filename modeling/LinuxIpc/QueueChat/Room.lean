import LinuxIpc.Lib.Buffer
import LinuxIpc.Lib.MsgQueue
import LinuxIpc.Lib.Transition
import Mathlib.Logic.Function.Basic

namespace LinuxIpc.QueueChat
set_option autoImplicit true

open Function (update)

/-- `struct msg`. -/
structure Msgbuf where
  mtype : Int
  name : Buf 10
  mtext : Buf 100

/-- A message in the queue: its type and the 100 bytes that `msgsnd(msgpid,&m,100,0)` takes.
Recorded are who typed it and a number that no other typed message has. -/
structure Msg (ι : Type) where
  mtype : Int
  body : Buf 100
  id : Nat
  author : ι
  deriving DecidableEq

/-- The first 100 of the 110 bytes behind `mtype`. -/
def Msgbuf.body (b : Msgbuf) : Buf 100 where
  bytes := (b.name.bytes ++ b.mtext.bytes).take 100
  length_bytes := by
    rw [List.length_take, List.length_append, b.name.length_bytes, b.mtext.length_bytes]
    rfl

/-- What `msgrcv` stores; the last ten bytes of `mtext` stay. -/
def Msgbuf.store (b : Msgbuf) (mtype : Int) (body : Buf 100) : Msgbuf :=
  ⟨mtype, b.name.overwrite (body.bytes.take 10), b.mtext.overwrite (body.bytes.drop 10)⟩

/-- The C string at `name`, which goes on in `mtext` where `name` holds no NUL. -/
def Msgbuf.string (b : Msgbuf) : List UInt8 := cstr (b.name.bytes ++ b.mtext.bytes)

theorem Msgbuf.body_bytes (b : Msgbuf) :
    b.body.bytes = (b.name.bytes ++ b.mtext.bytes).take 100 := rfl

theorem Msgbuf.store_name (b : Msgbuf) (t : Int) (d : Buf 100) :
    (b.store t d).name.bytes = d.bytes.take 10 := by
  apply Buf.overwrite_full
  rw [List.length_take, d.length_bytes]
  rfl

theorem Msgbuf.store_mtext (b : Msgbuf) (t : Int) (d : Buf 100) :
    (b.store t d).mtext.bytes = d.bytes.drop 10 ++ b.mtext.bytes.drop 90 := by
  have hlen : (d.bytes.drop 10).length ≤ 100 := by
    rw [List.length_drop, d.length_bytes]
    decide
  simp only [store, Buf.overwrite, List.take_of_length_le hlen, List.length_drop, d.length_bytes]

/-- What has been received is sent on as it was. -/
theorem Msgbuf.store_body (b : Msgbuf) (t : Int) (d : Buf 100) : (b.store t d).body = d := by
  apply Buf.eq_of_bytes
  rw [body_bytes, store_name, store_mtext, ← List.append_assoc, List.take_append_drop]
  exact List.take_left' d.length_bytes

theorem Msgbuf.body_name (b : Msgbuf) : b.body.bytes.take 10 = b.name.bytes := by
  rw [body_bytes, List.take_take]
  exact List.take_left' b.name.length_bytes

/-- The string at `name` begins with what has been received. -/
theorem Msgbuf.store_string (b : Msgbuf) (t : Int) (d : Buf 100) :
    (b.store t d).string = cstr (d.bytes ++ b.mtext.bytes.drop 90) := by
  rw [string, store_name, store_mtext, ← List.append_assoc, List.take_append_drop]

/-- The participants, with what they enter at the start. `name` is what `scanf("%s",&msgs.name)`
leaves in the 110 bytes from `name` on, where a long name runs on into `mtext`; the child keeps
them as they are then. -/
structure Room (ι : Type) where
  group : ι → Int
  name : ι → Buf 110
  ends : ∀ p, 0 ∈ (name p).bytes

/-- A name that ends in the 10 bytes of its field. -/
def Room.Short (R : Room ι) (p : ι) : Prop := (cstr (R.name p).bytes).length ≤ 9

theorem Room.Short.zero_mem {R : Room ι} (h : R.Short p) : 0 ∈ (R.name p).bytes.take 10 := by
  by_contra h0
  have hs : cstr (R.name p).bytes =
      (R.name p).bytes.take 10 ++ cstr ((R.name p).bytes.drop 10) := by
    rw [← cstr_append_of_notMem h0, List.take_append_drop]
  have hlen : ((R.name p).bytes.take 10).length = 10 := by
    rw [List.length_take, (R.name p).length_bytes]
    rfl
  rw [Short, hs, List.length_append, hlen] at h
  omega

/-- Such a name is all in the first ten bytes. -/
theorem Room.Short.cstr_append {R : Room ι} (h : R.Short p) (l : List UInt8) :
    cstr ((R.name p).bytes.take 10 ++ l) = cstr (R.name p).bytes := by
  have hs := cstr_append_of_mem (l := (R.name p).bytes.drop 10) h.zero_mem
  rw [List.take_append_drop] at hs
  rw [cstr_append_of_mem h.zero_mem, hs]

theorem Room.notMem_of_not_short {R : Room ι} (h : ¬ R.Short p) :
    0 ∉ (R.name p).bytes.take 10 := by
  intro h0
  obtain ⟨front, back, hb⟩ := List.append_of_mem h0
  have hlen := congrArg List.length hb
  rw [List.length_take, (R.name p).length_bytes, List.length_append, List.length_cons] at hlen
  apply h
  rw [Short, ← List.take_append_drop 10 (R.name p).bytes, cstr_append_of_mem h0, hb,
    cstr_append_zero]
  have hle : (cstr front).length ≤ front.length := (List.takeWhile_prefix _).length_le
  omega

/-- The parent process: in its loop, asking in `fun_ctrl_c`, or ended. -/
inductive Sender where
  | loop
  | confirm
  | left
  deriving DecidableEq, Repr

/-- The child process; `own` records the message that it found to be its own and has still to put
back. -/
structure Receiver (ι : Type) where
  msgr : Msgbuf
  own : Option (Nat × ι)

/-- `printf("From %s: %s",msgr.name,msgr.mtext)` for the message `msg`. -/
structure Printed (ι : Type) where
  reader : ι
  msg : Msg ι
  name : List UInt8
  text : List UInt8

structure St (ι : Type) where
  queue : List (Msg ι)
  msgs : ι → Msgbuf
  sender : ι → Sender
  recv : ι → Receiver ι
  sent : List (Msg ι)
  printed : List (Printed ι)

inductive Act (ι : Type) where
  -- `fgets` gives a piece of the input, and it is sent
  | send (p : ι) (piece : List UInt8)
  -- the answer to the question of `fun_ctrl_c`
  | confirm (p : ι) (a : UInt8)
  | receive (p : ι)
  | resend (p : ι)

/-- What `fgets(msgs.mtext,100,stdin)` can give. -/
def Piece (l : List UInt8) : Prop := l ≠ [] ∧ l.length ≤ 99 ∧ 10 ∉ l.dropLast

instance (l : List UInt8) : Decidable (Piece l) := inferInstanceAs (Decidable (_ ∧ _))

section
variable {ι : Type} [DecidableEq ι]

/-- The message that the receiver of `p` is to put back. -/
def Receiver.held (r : Receiver ι) : Option (Msg ι) :=
  r.own.map fun (id, author) => ⟨r.msgr.mtype, r.msgr.body, id, author⟩

def St.message (s : St ι) (p : ι) : Msg ι :=
  ⟨(s.msgs p).mtype, (s.msgs p).body, s.sent.length, p⟩

/-- `fgets` into `mtext`. -/
def St.type (s : St ι) (p : ι) (piece : List UInt8) : St ι := { s with
  msgs := update s.msgs p { s.msgs p with mtext := (s.msgs p).mtext.overwrite (piece ++ [0]) } }

/-- `msgsnd` refuses types below 1. -/
def St.send (s : St ι) (p : ι) : St ι :=
  if 1 ≤ (s.msgs p).mtype then
    { s with
      queue := s.queue ++ [s.message p]
      sent := s.sent ++ [s.message p]
      sender := update s.sender p
        (if cstr (s.msgs p).mtext.bytes = ascii "886...\n" then .confirm else .loop) }
  else s

/-- `name` ends within its 110 bytes, so `strcmp` looks at no byte behind those of `msgr`. -/
def St.take (s : St ι) (p : ι) (name : Buf 110) (m : Msg ι) (rest : List (Msg ι)) : St ι :=
  let msgr := (s.recv p).msgr.store m.mtype m.body
  if msgr.string = cstr name.bytes then
    { s with
      queue := rest
      recv := update s.recv p ⟨msgr, some (m.id, m.author)⟩ }
  else
    { s with
      queue := rest
      recv := update s.recv p ⟨msgr, none⟩
      printed := s.printed ++ [⟨p, m, msgr.string, cstr msgr.mtext.bytes⟩] }

def step (R : Room ι) (s : St ι) : Act ι → Option (St ι)
  | .send p piece =>
    if s.sender p = .loop ∧ Piece piece then some ((s.type p piece).send p) else none
  | .confirm p a =>
    if s.sender p = .confirm then
      some { s with sender := update s.sender p (if a = 121 then .left else .loop) }
    else none
  | .receive p =>
    if (s.recv p).own = none then
      (MsgQueue.receive Msg.mtype (R.group p) s.queue).map fun (m, rest) =>
        s.take p (R.name p) m rest
    else none
  | .resend p => (s.recv p).held.map fun m => { s with
      queue := if 1 ≤ m.mtype then s.queue ++ [m] else s.queue
      recv := update s.recv p ⟨(s.recv p).msgr, none⟩ }

/-- The queue is empty at first; what `mtext` and `msgr` hold is not known. -/
structure Init (R : Room ι) (s : St ι) : Prop where
  queue : s.queue = []
  mtype : ∀ p, (s.msgs p).mtype = R.group p
  name : ∀ p, (s.msgs p).name.bytes = (R.name p).bytes.take 10
  sender : ∀ p, s.sender p = .loop
  own : ∀ p, (s.recv p).own = none
  sent : s.sent = []
  printed : s.printed = []

def sys (R : Room ι) : Sys (St ι) (Act ι) := ⟨Init R, step R⟩

end

/-- Distinct names of at most nine bytes, and positive group numbers. -/
structure Room.Proper (R : Room ι) : Prop where
  positive : ∀ p, 0 < R.group p
  length : ∀ p, (cstr (R.name p).bytes).length ≤ 9
  distinct : ∀ p q, cstr (R.name p).bytes = cstr (R.name q).bytes → p = q

end LinuxIpc.QueueChat
