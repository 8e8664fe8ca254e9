import LinuxIpc.Lib.Transition
import LinuxIpc.TcpChat.Table

namespace LinuxIpc.TcpChat
set_option autoImplicit true

open Function (update)

/-- Where a call of `broadcast` stands, one statement that touches the table a step. -/
inductive Bcast.Pc where
  | lock
  | test (i : Nat)
  | cmp (i : Nat)
  | send (i : Nat)
  | unlock
  deriving DecidableEq, Repr

structure Bcast where
  pc : Bcast.Pc
  msg : List UInt8
  c : Client

/-- The accept loop, between two statements that touch the table. -/
inductive Main where
  | accept
  | recvName (cfd : Int)
  | setCfd (cfd : Int)
  | notice (cfd : Int)
  -- the arguments of `broadcast(buf,client[cnt])`
  | call (cfd : Int) (buf : List UInt8)
  | bcast (cfd : Int) (b : Bcast)
  | create (cfd : Int)
  | count (cfd : Int)

/-- A thread running `pthread_run`. -/
inductive Handler.Pc where
  | absent
  -- `arg` is `&client[slot]` and not read yet
  | start (slot : Nat)
  | recv (cl : Client)
  | relay (cl : Client) (b : Bcast)
  | test (cl : Client) (i : Nat)
  | cmp (cl : Client) (i : Nat)
  | move (cl : Client) (i : Nat)
  | uncount (cl : Client)
  | bye (cl : Client) (b : Bcast)
  | close (cl : Client)
  | done

/-- `conn` records the connection a handler was created for; the code keeps no such thing. -/
structure Handler where
  conn : Int
  pc : Handler.Pc

/-- `live` records the connections accepted and not departed, and `created` how many handlers
there are. -/
structure Core where
  tbl : Table
  main : Main
  handler : Nat → Handler
  created : Nat
  live : List Int

/-- The mutex is held by `main` (0) or by handler `h` (`h + 1`), and only `broadcast` takes it.
`behind` is what a string that is not ended in its array goes on with. -/
structure St extends Core where
  mutex : Option Nat
  sent : List (Int × List UInt8)
  behind : Behind

inductive Act where
  | accept (cfd : Int)
  -- the bytes of the name `recv`; none when it fails or finds the end of the stream
  | recvName (d : List UInt8)
  -- the next statement of `main`, with `send` or `pthread_create` succeeding or not
  | main (ok : Bool)
  -- a `recv` in handler `h`; no bytes when its result is at most 0
  | recv (h : Nat) (d : List UInt8)
  | handler (h : Nat) (ok : Bool)
  -- something else comes to stand behind the name fields and `buf`
  | memory (b : Behind)
  deriving DecidableEq, Repr

/-- One statement of `broadcast` in party `me`, and where the call stands after it. -/
def St.bcast (s : St) (me : Nat) (ok : Bool) (b : Bcast) : Option (St × Option Bcast) :=
  match b.pc with
  | .lock =>
    if s.mutex = none then some ({ s with mutex := some me }, some { b with pc := .test 0 })
    else none
  | .test i => some (s, some { b with pc := if i < s.tbl.cnt then .cmp i else .unlock })
  | .cmp i => some (s, some { b with
      pc := if (s.tbl.client i).cfd ≠ b.c.cfd then .send i else .test (i + 1) })
  | .send i =>
    some ({ s with sent := s.sent ++ [((s.tbl.client i).cfd, b.msg)] },
      some { b with pc := if ok then .test (i + 1) else .unlock })
  | .unlock => some ({ s with mutex := none }, none)

def St.setMain (s : St) (m : Main) : St := { s with main := m }

def St.setPc (s : St) (h : Nat) (pc : Handler.Pc) : St :=
  { s with handler := update s.handler h { s.handler h with pc := pc } }

def St.stepMain (s : St) (ok : Bool) : Option St :=
  match s.main with
  | .setCfd cfd => some { s.setMain (.notice cfd) with tbl := s.tbl.setCfd cfd }
  | .notice cfd => some (s.setMain (.call cfd (loginNotice (s.tbl.client s.tbl.cnt) s.behind.name)))
  | .call cfd buf => some (s.setMain (.bcast cfd ⟨.lock, buf, s.tbl.client s.tbl.cnt⟩))
  | .bcast cfd b => (s.bcast 0 ok b).map fun (s, b) =>
      s.setMain (match b with | some b => .bcast cfd b | none => .create cfd)
  | .create cfd =>
    if ok then
      some { s.setMain (.count cfd) with
        handler := update s.handler s.created ⟨cfd, .start s.tbl.cnt⟩
        created := s.created + 1 }
    else some (s.setMain (.count cfd))
  | .count _ => some { s.setMain .accept with tbl := { s.tbl with cnt := succ64 s.tbl.cnt } }
  | .accept | .recvName _ => none

def St.stepHandler (s : St) (h : Nat) (ok : Bool) : Option St :=
  match (s.handler h).pc with
  | .start slot => some (s.setPc h (.recv (s.tbl.client slot)))
  | .relay cl b => (s.bcast (h + 1) ok b).map fun (s, b) =>
      s.setPc h (match b with | some b => .relay cl b | none => .recv cl)
  | .test cl i =>
    some (s.setPc h (if i < s.tbl.cnt then .cmp cl i
      else .bye cl ⟨.lock, linePrefix cl s.behind.name, cl⟩))
  | .cmp cl i =>
    some (s.setPc h (if (s.tbl.client i).cfd = cl.cfd then .move cl i else .test cl (i + 1)))
  | .move cl i => some { s.setPc h (.uncount cl) with tbl := s.tbl.moveLast i }
  | .uncount cl => some { s.setPc h (.bye cl ⟨.lock, leaveNotice cl s.behind.name, cl⟩) with
      tbl := { s.tbl with cnt := pred64 s.tbl.cnt } }
  | .bye cl b => (s.bcast (h + 1) ok b).map fun (s, b) =>
      s.setPc h (match b with | some b => .bye cl b | none => .close cl)
  | .close cl => some { s.setPc h .done with live := s.live.filter (· ≠ cl.cfd) }
  | .absent | .recv _ | .done => none

/-- `accept` gives a descriptor that is not open; at most `MAX` clients are there at a time. -/
def step (s : St) : Act → Option St
  | .accept cfd =>
    match s.main with
    | .accept =>
      if cfd ∉ s.live ∧ s.live.length < MAX then
        some { s.setMain (.recvName cfd) with live := cfd :: s.live }
      else none
    | _ => none
  | .recvName d =>
    match s.main with
    | .recvName cfd => some { s.setMain (.setCfd cfd) with tbl := s.tbl.recvName d }
    | _ => none
  | .main ok => s.stepMain ok
  | .recv h d =>
    match (s.handler h).pc with
    | .recv cl =>
      some (s.setPc h (if d = [] then .test cl 0
        else .relay cl ⟨.lock, chatLine cl d s.behind, cl⟩))
    | _ => none
  | .handler h ok => s.stepHandler h ok
  | .memory b => some { s with behind := b }

def start : St := ⟨⟨.empty, .accept, fun _ => ⟨0, .absent⟩, 0, []⟩, none, [], ⟨[], []⟩⟩

def sys : Sys St Act := ⟨(· = start), step⟩

def Main.idle : Main → Bool
  | .accept => true
  | _ => false

def Handler.Pc.idle : Handler.Pc → Bool
  | .absent | .start _ | .recv _ | .relay .. | .done => true
  | _ => false

/-- No accept iteration and no departure is half done. -/
def Quiet (s : Core) : Prop :=
  s.main.idle = true ∧ ∀ h < s.created, (s.handler h).pc.idle = true

instance (s : Core) : Decidable (Quiet s) := inferInstanceAs (Decidable (_ ∧ _))

/-- `client[0..cnt)` holds the descriptor of every accepted and not departed connection exactly
once and no other. -/
def Exact (s : Core) : Prop := s.tbl.fds.Nodup ∧ ∀ f, f ∈ s.tbl.fds ↔ f ∈ s.live

end LinuxIpc.TcpChat
