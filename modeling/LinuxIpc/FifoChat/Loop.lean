import LinuxIpc.Lib.Buffer
import LinuxIpc.Lib.Stdin
import LinuxIpc.Lib.Transition
import Mathlib.Logic.Function.Basic

namespace LinuxIpc.FifoChat
set_option autoImplicit true

open Function (update)

inductive Prog where
  | pls
  | pzs
  deriving DecidableEq, Repr

def Prog.peer : Prog → Prog
  | .pls => .pzs
  | .pzs => .pls

/-- A byte in a FIFO; `start` records that a typed line that starts with `exit` begins with it. -/
structure Byte where
  val : UInt8
  start : Bool
  deriving DecidableEq, Repr

/-- Where a program is in its loop. -/
inductive Pc where
  | select
  -- the FIFO is ready, and perhaps the input as well
  | read (stdin : Bool)
  | fgets
  -- whether `str` was typed in this iteration
  | test (typed : Bool)
  | left (typed : Bool)
  -- by SIGPIPE
  | killed
  deriving DecidableEq, Repr

/-- The end is closed: the program has left its loop or was killed. -/
def Pc.gone : Pc → Bool
  | .left _ | .killed => true
  | _ => false

/-- Recorded are whether the next piece typed begins a line, and whether a line that starts with
`exit` has been typed. -/
structure Side where
  pc : Pc
  str : Buf 32
  fresh : Bool
  exited : Bool

/-- Each program with the FIFO that it reads, `fifo1` for `pls` and `fifo2` for `pzs`. -/
structure St where
  side : Prog → Side
  fifo : Prog → List Byte

/-- `strncmp(str, "exit", 4)` finds no difference. -/
def Exits (l : List UInt8) : Prop := l.take 4 = ascii "exit"

instance (l : List UInt8) : Decidable (Exits l) := inferInstanceAs (Decidable (_ = _))

/-- The bytes of a write. -/
def mark (start : Bool) : List UInt8 → List Byte
  | [] => []
  | b :: d => ⟨b, start⟩ :: d.map fun b => ⟨b, false⟩

inductive Act where
  -- what `select` finds ready
  | select (p : Prog) (fifo stdin : Bool)
  -- the number of bytes that `read` returns
  | read (p : Prog) (k : Nat)
  -- what `fgets` gives
  | type (p : Prog) (l : List UInt8)
  | test (p : Prog)
  deriving DecidableEq, Repr

/-- `memset(str,0,sizeof(str))` and a `select` that does not time out. -/
def Side.select (a : Side) (fifo stdin : Bool) : Side :=
  { a with pc := if fifo then .read stdin else .fgets, str := .zero 32 }

/-- `read(rfd,str,sizeof(str));` -/
def Side.read (a : Side) (stdin : Bool) (d : List UInt8) : Side :=
  { a with pc := if stdin then .fgets else .test false, str := a.str.overwrite d }

/-- The piece begins a line that starts with `exit`. -/
def Side.exitLine (a : Side) (l : List UInt8) : Bool := a.fresh && decide (Exits l)

/-- `fgets(str,sizeof(str),stdin);` and the `write`, which kills where no one reads. -/
def Side.type (a : Side) (l : List UInt8) (read : Bool) : Side where
  pc := if read then .test true else .killed
  str := a.str.overwrite (l ++ [0])
  fresh := decide (10 ∈ l)
  exited := a.exited || a.exitLine l

/-- `if(!strncmp(str, "exit", 4)) break;` -/
def Side.test (a : Side) (typed : Bool) : Side :=
  { a with pc := if Exits a.str.bytes then .left typed else .select }

def step (s : St) : Act → Option St
  | .select p fifo stdin =>
    -- a FIFO that no one writes any more is ready as well
    if (s.side p).pc = .select ∧ (fifo ∨ stdin) ∧
        (fifo → s.fifo p ≠ [] ∨ (s.side p.peer).pc.gone) then
      some { s with side := update s.side p ((s.side p).select fifo stdin) }
    else none
  | .read p k =>
    match (s.side p).pc with
    | .read stdin =>
      if k ≤ 32 ∧ k ≤ (s.fifo p).length ∧ (k = 0 → s.fifo p = []) then
        some {
          side := update s.side p ((s.side p).read stdin (((s.fifo p).take k).map Byte.val))
          fifo := update s.fifo p ((s.fifo p).drop k) }
      else none
    | _ => none
  | .type p l =>
    if (s.side p).pc = .fgets ∧ Stdin.Piece 31 l then
      if (s.side p.peer).pc.gone then
        some { s with side := update s.side p ((s.side p).type l false) }
      else
        some {
          side := update s.side p ((s.side p).type l true)
          fifo := update s.fifo p.peer (s.fifo p.peer ++
            mark ((s.side p).exitLine l) (cstr ((s.side p).type l true).str.bytes)) }
    else none
  | .test p =>
    match (s.side p).pc with
    | .test typed => some { s with side := update s.side p ((s.side p).test typed) }
    | _ => none

/-- Both FIFOs are open; what `str` holds is not known. -/
structure Init (s : St) : Prop where
  pc : ∀ p, (s.side p).pc = .select
  fresh : ∀ p, (s.side p).fresh = true
  exited : ∀ p, (s.side p).exited = false
  fifo : ∀ p, s.fifo p = []

def sys : Sys St Act := ⟨Init, step⟩

/-- Whoever leaves after an `exit` takes the other one along once that has read everything, and no
one leaves on what it has read unless the other one has typed an `exit`. -/
structure Agreed (s : St) : Prop where
  follows : ∀ p typed, (s.side p.peer).exited = true → (s.side p.peer).pc = .left typed →
    s.fifo p = [] → (s.side p).pc ≠ .select
  cause : ∀ p, (s.side p).pc = .left false → (s.side p.peer).exited = true

/-- What a `read` returns starts with `exit` exactly if an `exit` line begins with it, no such line
begins further on in it, and nothing else is typed over it. -/
def Framed (s : St) : Act → Prop
  | .read p k =>
    (Exits (((s.fifo p).take k).map Byte.val) ↔
      ∃ b ∈ ((s.fifo p).take k).head?, b.start = true) ∧
    ∀ b ∈ ((s.fifo p).take k).tail, b.start = false
  | .type p l => Exits (s.side p).str.bytes → Exits l
  | _ => True

instance (s : St) (a : Act) : Decidable (Framed s a) := by
  cases a <;> unfold Framed <;> infer_instance

theorem Prog.peer_peer (p : Prog) : p.peer.peer = p := by cases p <;> rfl

theorem Prog.peer_ne (p : Prog) : p.peer ≠ p := by cases p <;> nofun

/-- Everyone is one of the two. -/
theorem Prog.forall_iff {P : Prog → Prop} (p : Prog) : (∀ q, P q) ↔ P p ∧ P p.peer := by
  constructor
  · intro h
    exact ⟨h p, h p.peer⟩
  · rintro ⟨h, hp⟩ q
    cases p <;> cases q <;> assumption

end LinuxIpc.FifoChat
