import LinuxIpc.Procon.Stock

namespace LinuxIpc.Procon.Sequential
set_option autoImplicit true

open Function (update update_self update_of_ne)
open ProdCons (Producer Consumer rounds product)

/-- The commands that `main` answers itself. -/
inductive Request where
  | delete
  | list (k : Kind)
  | unknown
  deriving DecidableEq, Repr

inductive Command where
  | create (k : Kind)
  | ask (q : Request)
  deriving DecidableEq, Repr

/-- The branch of `main` that the C string in `str` is taken to. -/
def interpret (str : List UInt8) : Command :=
  if str = ascii "create producer\n" then .create .producer
  else if str = ascii "create consumer\n" then .create .consumer
  else if strstr str (ascii "delete") then .ask .delete
  else if str = ascii "list producer\n" then .ask (.list .producer)
  else if str = ascii "list consumer\n" then .ask (.list .consumer)
  else .ask .unknown

/-- `memset(str,0,sizeof(str))` and a `read` that delivers `d`; a full array goes on with what
stands behind it. -/
def received (d beyond : List UInt8) : List UInt8 :=
  cstr (((Buf.zero 32).overwrite d).bytes ++ beyond)

/-- `!strncmp(str, "exit", 4)`. -/
def exits (str : List UInt8) : Bool := str.take 4 = ascii "exit"

/-- Where `main` stands in its loop. -/
inductive Main where
  | read
  | spawn (k : Kind)
  | join (k : Kind)
  -- the write of the reply, with whether `exit(1)` comes after it
  | reply (q : Request) (exit : Bool)
  | left
  | killed (q : Request)
  deriving DecidableEq, Repr

/-- The one thread that `main` has created and not joined yet. It has no `body` once it is through.
`nums` records what it has printed. -/
structure Worker where
  kind : Kind
  self : UInt64
  body : Option Body
  nums : List Nat
  deriving DecidableEq, Repr

/-- What a command has come to. -/
inductive Deed where
  | thread (k : Kind) (self : UInt64) (nums : List Nat)
  | delete (ok : Bool)
  | list (k : Kind)
  | unknown
  deriving DecidableEq, Repr

/-- What goes to `fifo2`; a listing is the address of the array. -/
def Deed.reply (addr : Kind → UInt64) : Deed → List UInt8
  | .thread _ _ _ => []
  | .delete ok => ascii (if ok then "OK" else "failed")
  | .list k => lu (addr k)
  | .unknown => ascii "Unknown Command"

def Deed.command : Deed → Command
  | .thread k _ _ => .create k
  | .delete _ => .ask .delete
  | .list k => .ask (.list k)
  | .unknown => .ask .unknown

/-- `count` is `P` and `C`, `tid` the arrays `tid_p` and `tid_c`. The rest is a record: the commands
read, what they have come to and what has been written to `fifo2`. -/
structure St where
  main : Main
  thread : Option Worker
  count : Kind → Nat
  tid : Kind → Nat → UInt64
  head : List Nat
  commands : List Command
  deeds : List Deed
  out : List UInt8

inductive Act where
  -- what a `read` delivers, nothing at the end of the stream
  | read (d beyond : List UInt8)
  | spawn (self : UInt64)
  | join
  -- what `pthread_key_delete` returns where it is called, and whether `fifo2` is still open
  | reply (ok reader : Bool)
  -- the thread's next section, with what `rand()` gives
  | thread (r : Nat)
  | spurious
  deriving DecidableEq, Repr

def Command.main (exit : Bool) : Command → Main
  | .create k => .spawn k
  | .ask q => .reply q exit

/-- The command that `main` is about. -/
def Main.command : Main → List Command
  | .spawn k | .join k => [.create k]
  | .reply q _ | .killed q => [.ask q]
  | .read | .left => []

def Request.deed (ok : Bool) : Request → Deed
  | .delete => .delete ok
  | .list k => .list k
  | .unknown => .unknown

/-- The commands read that ask for a thread. -/
def St.asked (s : St) (k : Kind) : Nat := s.commands.count (.create k)

def St.receive (s : St) (str : List UInt8) : St :=
  { s with
    main := (interpret str).main (exits str)
    commands := s.commands ++ [interpret str] }

/-- The section is the one with `tid_p[P]=pthread_self();` or `tid_c[C]=pthread_self();`, and prints
the number. -/
def num (r : Nat) : Body → Option Nat
  | .producer (.produce _) => some (product r)
  | .consumer (.took _ n) => some n
  | _ => none

def St.store (s : St) (w : Worker) : Kind → Nat → UInt64 :=
  update s.tid w.kind (update (s.tid w.kind) (s.count w.kind) w.self)

/-- `P++` or `C++`. -/
def St.finish (s : St) (w : Worker) : St :=
  { s with count := bump s.count w.kind, thread := some { w with body := none } }

/-- There is no step outside the arrays. -/
def St.stepThread (s : St) (w : Worker) (r : Nat) : Option St :=
  match w.body with
  | none => none
  | some b =>
    if b.ended then some (s.finish w)
    else (b.step r s.head).bind fun (b', head) =>
      match num r b with
      | some n =>
        if s.count w.kind < tids then
          some { s with
            tid := s.store w
            head := head
            thread := some { w with body := some b', nums := w.nums ++ [n] } }
        else none
      | none => some { s with head := head, thread := some { w with body := some b' } }

def step (addr : Kind → UInt64) (s : St) : Act → Option St
  | .read d beyond =>
    match s.main with
    | .read =>
      if d.length ≤ 32 then some (s.receive (received d beyond)) else none
    | _ => none
  | .spawn self =>
    match s.main with
    | .spawn k => some { s with main := .join k, thread := some ⟨k, self, some k.body, []⟩ }
    | _ => none
  | .join =>
    match s.main, s.thread with
    | .join _, some ⟨k, self, none, nums⟩ =>
      some { s with main := .read, thread := none, deeds := s.deeds ++ [.thread k self nums] }
    | _, _ => none
  | .reply ok reader =>
    match s.main with
    | .reply q exit =>
      if reader then
        some { s with
          main := if exit then .left else .read
          deeds := s.deeds ++ [q.deed ok]
          out := s.out ++ (q.deed ok).reply addr }
      else some { s with main := .killed q }
    | _ => none
  | .thread r => s.thread.bind fun w => s.stepThread w r
  | .spurious => s.thread.bind fun w => (w.body.bind Body.spurious).map fun b =>
      { s with thread := some { w with body := some b } }

def start : St := ⟨.read, none, fun _ => 0, fun _ _ => 0, [], [], [], []⟩

def sys (addr : Kind → UInt64) : Sys St Act := ⟨(· = start), step addr⟩

/-- What a step can be. -/
inductive Move (addr : Kind → UInt64) (s : St) : Act → St → Prop where
  | read : s.main = .read → d.length ≤ 32 →
      Move addr s (.read d beyond) (s.receive (received d beyond))
  | spawn : s.main = .spawn k → Move addr s (.spawn self)
      { s with main := .join k, thread := some ⟨k, self, some k.body, []⟩ }
  | join : s.main = .join k → s.thread = some ⟨j, self, none, nums⟩ → Move addr s .join
      { s with main := .read, thread := none, deeds := s.deeds ++ [.thread j self nums] }
  | reply : s.main = .reply q exit → Move addr s (.reply ok true) { s with
      main := if exit then .left else .read
      deeds := s.deeds ++ [q.deed ok]
      out := s.out ++ (q.deed ok).reply addr }
  | killed : s.main = .reply q exit → Move addr s (.reply ok false) { s with main := .killed q }
  | finish : s.thread = some w → w.body = some b → b.ended = true →
      Move addr s (.thread r) (s.finish w)
  | print : s.thread = some w → w.body = some b → b.step r s.head = some (b', head) →
      num r b = some n → s.count w.kind < tids → Move addr s (.thread r) { s with
        tid := s.store w
        head := head
        thread := some { w with body := some b', nums := w.nums ++ [n] } }
  | quiet : s.thread = some w → w.body = some b → b.step r s.head = some (b', head) →
      num r b = none →
      Move addr s (.thread r) { s with head := head, thread := some { w with body := some b' } }
  | spurious : s.thread = some w → w.body = some b → b.spurious = some b' →
      Move addr s .spurious { s with thread := some { w with body := some b' } }

theorem move_of_stepThread {s : St} {w : Worker} (hw : s.thread = some w)
    (h : s.stepThread w r = some t) : Move addr s (.thread r) t := by
  unfold St.stepThread at h
  split at h
  · cases h
  · rename_i b hb
    split at h
    · obtain rfl := Option.some.inj h
      exact .finish hw hb ‹_›
    · obtain ⟨⟨b', head⟩, hstep, h⟩ := Option.bind_eq_some_iff.1 h
      dsimp only at h
      split at h
      · rename_i n hn
        obtain ⟨hlt, rfl⟩ := of_guard h
        exact .print hw hb hstep hn hlt
      · obtain rfl := Option.some.inj h
        exact .quiet hw hb hstep ‹_›

theorem move_of_step (h : step addr s a = some t) : Move addr s a t := by
  cases a with
  | read d beyond =>
    cases hm : s.main with
    | read =>
      simp only [step, hm] at h
      obtain ⟨hd, rfl⟩ := of_guard h
      exact .read hm hd
    | _ => simp only [step, hm, reduceCtorEq] at h
  | spawn self =>
    cases hm : s.main with
    | spawn k =>
      simp only [step, hm] at h
      obtain rfl := Option.some.inj h
      exact .spawn hm
    | _ => simp only [step, hm, reduceCtorEq] at h
  | join =>
    cases hm : s.main with
    | join k =>
      rcases hw : s.thread with _ | ⟨j, self, body, nums⟩
      · simp only [step, hm, hw, reduceCtorEq] at h
      · cases body with
        | none =>
          simp only [step, hm, hw] at h
          obtain rfl := Option.some.inj h
          exact .join hm hw
        | some b => simp only [step, hm, hw, reduceCtorEq] at h
    | _ => simp only [step, hm, reduceCtorEq] at h
  | reply ok reader =>
    cases hm : s.main with
    | reply q exit =>
      simp only [step, hm] at h
      cases reader with
      | true =>
        obtain rfl := Option.some.inj h
        exact .reply hm
      | false =>
        obtain rfl := Option.some.inj h
        exact .killed hm
    | _ => simp only [step, hm, reduceCtorEq] at h
  | thread r =>
    obtain ⟨w, hw, h⟩ := Option.bind_eq_some_iff.1 h
    exact move_of_stepThread hw h
  | spurious =>
    obtain ⟨w, hw, h⟩ := Option.bind_eq_some_iff.1 h
    obtain ⟨b', hb', rfl⟩ := Option.map_eq_some_iff.1 h
    obtain ⟨b, hb, hspur⟩ := Option.bind_eq_some_iff.1 hb'
    exact .spurious hw hb hspur

theorem commands_step {s : St} (h : step addr s a = some t) (hm : s.main ≠ .read) :
    t.commands = s.commands := by
  cases move_of_step h with
  | read hread => exact (hm hread).elim
  | _ => rfl

end LinuxIpc.Procon.Sequential
