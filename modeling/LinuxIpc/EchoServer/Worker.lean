import LinuxIpc.Lib.Buffer
import LinuxIpc.Lib.Transition

namespace LinuxIpc.EchoServer
set_option autoImplicit true

/-- What a `read` with a positive result puts into `buf`. -/
structure Chunk where
  bytes : List UInt8
  pos : 0 < bytes.length
  le : bytes.length ≤ 1023

inductive Answer
  | data (d : Chunk)
  | eof
  | failed

/-- A client's connection: what is still to be read, and whether `read` fails after it or finds
the end of file. -/
structure Conn where
  chunks : List Chunk
  reset : Bool

def Conn.read (c : Conn) : Answer × Conn :=
  match c.chunks with
  | d :: chunks => (.data d, { c with chunks })
  | [] => (if c.reset then .failed else .eof, c)

inductive Pc
  | read
  | close
  | exit
  | done
  deriving DecidableEq

structure Worker where
  pc : Pc
  buf : Buf 1024
  conn : Conn
  printed : List (List UInt8)
  echoed : List UInt8
  closed : Bool

def Worker.start (buf : Buf 1024) (conn : Conn) : Worker := ⟨.read, buf, conn, [], [], false⟩

/-- One round of the worker's loop. -/
def Worker.turn (w : Worker) : Worker :=
  match w.conn.read with
  | (.data d, conn) =>
    let buf := (w.buf.overwrite d.bytes).put d.bytes.length 0
    { w with
      buf, conn
      printed := w.printed ++ [ascii "client# " ++ cstr buf.bytes ++ ascii "\n"]
      echoed := w.echoed ++ cstr buf.bytes }
  | (.eof, conn) => { w with conn, printed := w.printed ++ [ascii "client quit\n"] }
  | (.failed, conn) => { w with conn, pc := .close }

theorem Worker.turn_data (w : Worker) (h : w.conn.chunks = d :: chunks) :
    ∃ b p, w.turn = ⟨w.pc, b, ⟨chunks, w.conn.reset⟩, p, w.echoed ++ cstr d.bytes, w.closed⟩ := by
  simp only [turn, Conn.read, h, w.buf.cstr_overwrite_put (Nat.lt_succ_of_le d.le)]
  exact ⟨_, _, rfl⟩

theorem Worker.turn_eof (w : Worker) (h : w.conn.chunks = []) (hr : w.conn.reset = false) :
    w.turn = { w with printed := w.printed ++ [ascii "client quit\n"] } := by
  simp only [turn, Conn.read, h, hr]
  rfl

theorem Worker.turn_failed (w : Worker) (h : w.conn.chunks = []) (hr : w.conn.reset = true) :
    w.turn = { w with pc := .close } := by
  simp only [turn, Conn.read, h, hr]
  rfl

def Worker.step (w : Worker) : Option Worker :=
  match w.pc with
  | .read => some w.turn
  | .close => some { w with pc := .exit, closed := true }
  | .exit => some { w with pc := .done }
  | .done => none

theorem Worker.step_cases {w v : Worker} (hv : w.step = some v) :
    (w.pc = .read ∧ v = w.turn) ∨ (w.pc = .close ∧ v = { w with pc := .exit, closed := true }) ∨
      (w.pc = .exit ∧ v = { w with pc := .done }) := by
  unfold step at hv
  cases hp : w.pc with
  | done =>
    rw [hp] at hv
    cases hv
  | _ =>
    rw [hp] at hv
    simp [Option.some.inj hv]

inductive Parent
  | accept
  | waitpid
  deriving DecidableEq

/-- The parent, its worker, and the workers it has waited for. -/
structure St where
  parent : Parent
  buf : Buf 1024
  worker : Option Worker
  served : List Worker

inductive Act
  | accept (conn : Conn)
  | work
  | waitpid

def step (s : St) : Act → Option St
  | .accept conn =>
    if s.parent = .accept then
      some { s with parent := .waitpid, worker := some (.start s.buf conn) }
    else none
  | .work => (s.worker.bind Worker.step).map fun w => { s with worker := some w }
  | .waitpid =>
    match s.parent, s.worker with
    | .waitpid, some w =>
      if w.pc = .done then
        some { s with parent := .accept, worker := none, served := s.served ++ [w] }
      else none
    | _, _ => none

def sys : Sys St Act where
  init s := s.parent = .accept ∧ s.worker = none ∧ s.served = []
  step := step

/-- What the client has sent. -/
def stream (chunks : List Chunk) : List UInt8 := (chunks.map Chunk.bytes).flatten

/-- What `write(newsock,buf,strlen(buf))` writes back for it. -/
def echo (chunks : List Chunk) : List UInt8 := (chunks.map fun d => cstr d.bytes).flatten

theorem length_echo_le (chunks : List Chunk) : (echo chunks).length ≤ (stream chunks).length := by
  induction chunks with
  | nil => exact Nat.le_refl _
  | cons d chunks ih =>
    have hd : (cstr d.bytes).length ≤ d.bytes.length := (List.takeWhile_prefix _).length_le
    simp only [echo, stream, List.map_cons, List.flatten_cons, List.length_append] at ih ⊢
    omega

theorem echo_eq_iff : echo chunks = stream chunks ↔ ∀ d ∈ chunks, 0 ∉ d.bytes := by
  induction chunks with
  | nil => simp [echo, stream]
  | cons d chunks ih =>
    rw [List.forall_mem_cons, ← ih, ← cstr_eq_self_iff]
    change cstr d.bytes ++ echo chunks = d.bytes ++ stream chunks ↔ _
    constructor
    · intro h
      have hp : cstr d.bytes <+: d.bytes := List.takeWhile_prefix _
      have hlen := congrArg List.length h
      have hle := length_echo_le chunks
      have hd := hp.length_le
      rw [List.length_append, List.length_append] at hlen
      have he := hp.eq_of_length (by omega)
      rw [he, List.append_cancel_left_eq] at h
      exact ⟨he, h⟩
    · rintro ⟨hd, hc⟩
      rw [hd, hc]

end LinuxIpc.EchoServer
