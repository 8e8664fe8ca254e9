import LinuxIpc.Lib.Fifo
import LinuxIpc.Lib.Stdin
import LinuxIpc.Procon.Loop

namespace LinuxIpc.Procon
set_option autoImplicit true

/-- Where `main` of `admin1` stands. -/
inductive Admin where
  | fgets
  | write
  | read
  -- before `strncmp(s, "exit", 4)`
  | test
  | done
  deriving DecidableEq, Repr

/-- `admin1` and `procon1` with the two FIFOs. Recorded are the pieces typed, the strings that
`procon1` has interpreted, what it has written for each of them, and the strings that `admin1` has
printed. -/
structure Net where
  admin : Admin
  s : Buf 32
  fifo1 : Fifo
  fifo2 : Fifo
  procon : St
  typed : List (List UInt8)
  heard : List (List UInt8)
  replies : List (List UInt8)
  printed : List (List UInt8)

inductive Net.Act where
  -- a line with its newline, or a piece of a longer one
  | type (piece : List UInt8)
  | write
  -- a read that finds `k` writes, or the end of a FIFO that nobody writes to any more
  | receive (k : Nat)
  | eof
  | test
  | read (k : Nat)
  | procon (a : Procon.Act)
  deriving DecidableEq, Repr

/-- `fgets(s,sizeof(s),stdin)`, which takes `piece` from the input. -/
def fgets (s : Buf 32) (piece : List UInt8) : Buf 32 := s.overwrite (piece ++ [0])

/-- What a `printf("%s\n",r)` prints of the reply before the newline. -/
def shown (d : List UInt8) : List UInt8 := cstr ((Buf.zero 1024).overwrite d).bytes

/-- More bytes for the command interpreted last. -/
def answer (o : List UInt8) (replies : List (List UInt8)) : List (List UInt8) :=
  if o = [] then replies else replies.dropLast ++ [replies.getLastD [] ++ o]

def exits (s : Buf 32) : Bool := decide ((cstr s.bytes).take 4 = ascii "exit")

def Net.step (n : Net) : Net.Act → Option Net
  | .type piece =>
    if n.admin = .fgets ∧ Stdin.Piece 31 piece then
      some { n with admin := .write, s := fgets n.s piece, typed := n.typed ++ [piece] }
    else none
  | .write =>
    if n.admin = .write then
      some { n with admin := .read, fifo1 := n.fifo1.write (cstr n.s.bytes) }
    else none
  | .receive k =>
    if n.admin = .read then
      (n.fifo2.read 1024 k).map fun (d, f) =>
        { n with admin := .test, fifo2 := f, printed := n.printed ++ [shown d] }
    else none
  | .eof =>
    if n.admin = .read ∧ n.fifo2 = [] ∧ n.procon.main = .exit then
      some { n with admin := .test, printed := n.printed ++ [shown []] }
    else none
  | .test =>
    if n.admin = .test then some { n with admin := if exits n.s then .done else .fgets }
    else none
  | .read k => (n.fifo1.read 1024 k).bind fun (d, f) =>
      (Procon.step n.procon (.read d)).map fun (p, _) =>
        { n with
          fifo1 := f
          procon := p
          heard := n.heard ++ [received d]
          replies := n.replies ++ [[]] }
  | .procon (.read _) => none
  | .procon a => (Procon.step n.procon a).map fun (p, o) =>
      { n with procon := p, fifo2 := n.fifo2.write o, replies := answer o n.replies }

def Net.start : Net := ⟨.fgets, .zero 32, [], [], Procon.start, [], [], [], []⟩

def net : Sys Net Net.Act := ⟨(· = Net.start), Net.step⟩

end LinuxIpc.Procon
