import LinuxIpc.Lib.Buffer
import LinuxIpc.Lib.Decimal
import LinuxIpc.ProdCons.Sections

namespace LinuxIpc.Procon
set_option autoImplicit true

open Function (update)
open ProdCons (Producer Consumer rounds)

inductive Kind where
  | producer
  | consumer
  deriving DecidableEq, Repr

inductive Command where
  | create (k : Kind)
  | delete
  | list (k : Kind)
  | exit
  | unknown
  deriving DecidableEq, Repr

/-- The branch of `main` that the C string in `str` is taken to. -/
def interpret (str : List UInt8) : Command :=
  if str = ascii "create producer\n" then .create .producer
  else if str = ascii "create consumer\n" then .create .consumer
  else if strstr str (ascii "delete") then .delete
  else if str = ascii "list producer\n" then .list .producer
  else if str = ascii "list consumer\n" then .list .consumer
  else if str = ascii "exit\n" then .exit
  else .unknown

/-- `memset(str,0,sizeof(str))` and a `read` that delivers `d`. -/
def received (d : List UInt8) : List UInt8 := cstr ((Buf.zero 1024).overwrite d).bytes

def command (d : List UInt8) : Command := interpret (received d)

/-- The loop of a created thread, by its kind. -/
inductive Body where
  | producer (p : Producer)
  | consumer (c : Consumer)
  deriving DecidableEq, Repr

def Kind.body : Kind → Body
  | .producer => .producer (.produce 0)
  | .consumer => .consumer (.consume 0)

/-- The `for` loop is over. -/
def Body.ended : Body → Bool
  | .producer (.produce i) => decide (rounds ≤ i)
  | .consumer (.consume i) => decide (rounds ≤ i)
  | _ => false

/-- The next section of the loop on the stack at `head`; a thread that waits has none. -/
def Body.step (r : Nat) (head : List Nat) : Body → Option (Body × List Nat)
  | .producer (.produce i) =>
    ((Producer.produce i).push r head).map fun (p, head) => (.producer p, head)
  | .producer (.signal i) => (Producer.signal i).signalled.map fun p => (.producer p, head)
  | .consumer (.took i num) =>
    (Consumer.took i num).print.map fun (c, _) => (.consumer c, head)
  | .consumer c => (c.enter head).map fun (c, head) => (.consumer c, head)

inductive Thread.Pc where
  -- before `tid_p[P]=pthread_self();` or `tid_c[C]=pthread_self();`
  | enter
  | loop (b : Body)
  | ended
  deriving DecidableEq, Repr

structure Thread where
  kind : Kind
  self : UInt64
  pc : Thread.Pc
  deriving DecidableEq, Repr

/-- Where `main` stands in its loop. -/
inductive Main where
  | read
  | spawn (k : Kind)
  | reply (k : Kind)
  | join (k : Kind)
  | delete
  | list (k : Kind) (i : Nat)
  | unknown
  | exit
  deriving DecidableEq, Repr

/-- `count` is `P` and `C`, `tid` the arrays `tid_p` and `tid_c`; `created` records the ids of the
threads of each kind in the order of their creation. -/
structure St where
  main : Main
  thread : Option Thread
  count : Kind → Nat
  tid : Kind → Nat → UInt64
  head : List Nat
  created : Kind → List UInt64

inductive Act where
  -- what a `read` that does not find the end of the stream delivers
  | read (d : List UInt8)
  -- `pthread_create`, with the id of the new thread
  | spawn (self : UInt64)
  -- the write of an id; `junk` stands behind the array, where `tid_p[P]` may lie by then
  | reply (junk : UInt64)
  | join
  -- what `pthread_key_delete` returns
  | delete (ok : Bool)
  | list
  | unknown
  -- the thread's next section, with what `rand()` gives
  | thread (r : Nat)
  | spurious
  deriving DecidableEq, Repr

/-- The length of `tid_p` and `tid_c`. -/
def tids : Nat := 1024

def Command.main : Command → Main
  | .create k => .spawn k
  | .delete => .delete
  | .list k => .list k 0
  | .exit => .exit
  | .unknown => .unknown

def St.setPc (s : St) (th : Thread) (pc : Thread.Pc) : St :=
  { s with thread := some { th with pc := pc } }

/-- A thread's id goes to `tid_p[P]` or `tid_c[C]`; there is no step outside the array. -/
def St.enter (s : St) (th : Thread) : Option St :=
  if s.count th.kind < tids then
    some { s.setPc th (.loop th.kind.body) with
      tid := update s.tid th.kind (update (s.tid th.kind) (s.count th.kind) th.self) }
  else none

/-- `P++` or `C++`. -/
def St.finish (s : St) (th : Thread) : St :=
  { s.setPc th .ended with count := update s.count th.kind (s.count th.kind + 1) }

def St.stepThread (s : St) (th : Thread) (r : Nat) : Option St :=
  match th.pc with
  | .enter => s.enter th
  | .loop b =>
    if b.ended then some (s.finish th)
    else (b.step r s.head).map fun (b, head) => { s.setPc th (.loop b) with head := head }
  | .ended => none

/-- A waiting consumer is woken without a signal. -/
def Body.spurious : Body → Option Body
  | .consumer c => if c.isWaiting then some (.consumer c.wake) else none
  | .producer _ => none

/-- One step of `main` or of the thread it created, and the bytes it writes to `fifo2`. -/
def step (s : St) : Act → Option (St × List UInt8)
  | .read d =>
    match s.main with
    | .read => if d = [] then none else some ({ s with main := (command d).main }, [])
    | _ => none
  | .spawn self =>
    match s.main with
    | .spawn k => some ({ s with
        main := .reply k
        thread := some ⟨k, self, .enter⟩
        created := update s.created k (s.created k ++ [self]) }, [])
    | _ => none
  | .reply junk =>
    match s.main with
    | .reply k => some ({ s with main := .join k },
        lu (if s.count k < tids then s.tid k (s.count k) else junk))
    | _ => none
  | .join =>
    match s.main, s.thread with
    | .join _, some ⟨_, _, .ended⟩ => some ({ s with main := .read, thread := none }, [])
    | _, _ => none
  | .delete ok =>
    match s.main with
    | .delete => some ({ s with main := .read }, ascii (if ok then "OK" else "failed"))
    | _ => none
  | .list =>
    match s.main with
    | .list k i =>
      if i < s.count k then some ({ s with main := .list k (i + 1) }, lu (s.tid k i))
      else some ({ s with main := .read }, [])
    | _ => none
  | .unknown =>
    match s.main with
    | .unknown => some ({ s with main := .read }, ascii "UNKNOWN COMMAND")
    | _ => none
  | .thread r => s.thread.bind fun th => (s.stepThread th r).map (·, [])
  | .spurious => s.thread.bind fun th =>
      match th.pc with
      | .loop b => b.spurious.map fun b => (s.setPc th (.loop b), [])
      | _ => none

/-- A thread writes its id, or is counted at the end of its loop, or runs a section of it. -/
theorem stepThread_cases {s : St} {th : Thread} (h : s.stepThread th r = some t) :
    (th.pc = .enter ∧ s.enter th = some t) ∨
    (∃ b, th.pc = .loop b ∧ b.ended = true ∧ t = s.finish th) ∨
    ∃ b b' head, th.pc = .loop b ∧ b.step r s.head = some (b', head) ∧
      t = { s.setPc th (.loop b') with head := head } := by
  unfold St.stepThread at h
  cases hpc : th.pc with
  | enter =>
    rw [hpc] at h
    exact .inl ⟨rfl, h⟩
  | loop b =>
    simp only [hpc] at h
    split at h
    · exact .inr (.inl ⟨b, rfl, ‹_›, (Option.some.inj h).symm⟩)
    · obtain ⟨⟨b', head⟩, hb, rfl⟩ := Option.map_eq_some_iff.1 h
      exact .inr (.inr ⟨b, b', head, rfl, hb, rfl⟩)
  | ended =>
    rw [hpc] at h
    cases h

/-- What a step can be. -/
inductive Move (s : St) : Act → St → List UInt8 → Prop where
  | read : s.main = .read → d ≠ [] → Move s (.read d) { s with main := (command d).main } []
  | spawn : s.main = .spawn k → Move s (.spawn self) { s with
      main := .reply k
      thread := some ⟨k, self, .enter⟩
      created := update s.created k (s.created k ++ [self]) } []
  | reply : s.main = .reply k → Move s (.reply junk) { s with main := .join k }
      (lu (if s.count k < tids then s.tid k (s.count k) else junk))
  | join : s.main = .join k → s.thread = some ⟨j, self, .ended⟩ →
      Move s .join { s with main := .read, thread := none } []
  | delete : s.main = .delete → Move s (.delete ok) { s with main := .read }
      (ascii (if ok then "OK" else "failed"))
  | list : s.main = .list k i → i < s.count k →
      Move s .list { s with main := .list k (i + 1) } (lu (s.tid k i))
  | listed : s.main = .list k i → s.count k ≤ i → Move s .list { s with main := .read } []
  | unknown : s.main = .unknown →
      Move s .unknown { s with main := .read } (ascii "UNKNOWN COMMAND")
  | thread : s.thread = some th → s.stepThread th r = some t → Move s (.thread r) t []
  | spurious : s.thread = some th → th.pc = .loop b → b.spurious = some b' →
      Move s .spurious (s.setPc th (.loop b')) []

theorem move_of_step (h : step s a = some (t, o)) : Move s a t o := by
  cases a with
  | read d =>
    cases hm : s.main with
    | read =>
      simp only [step, hm, Option.ite_none_left_eq_some, Option.some.injEq, Prod.mk.injEq] at h
      obtain ⟨hd, rfl, rfl⟩ := h
      exact .read hm hd
    | _ => simp only [step, hm, reduceCtorEq] at h
  | spawn self =>
    cases hm : s.main with
    | spawn k =>
      simp only [step, hm, Option.some.injEq, Prod.mk.injEq] at h
      obtain ⟨rfl, rfl⟩ := h
      exact .spawn hm
    | _ => simp only [step, hm, reduceCtorEq] at h
  | reply junk =>
    cases hm : s.main with
    | reply k =>
      simp only [step, hm, Option.some.injEq, Prod.mk.injEq] at h
      obtain ⟨rfl, rfl⟩ := h
      exact .reply hm
    | _ => simp only [step, hm, reduceCtorEq] at h
  | join =>
    cases hm : s.main with
    | join k =>
      rcases ht : s.thread with _ | ⟨j, self, pc⟩
      · simp only [step, hm, ht, reduceCtorEq] at h
      · cases pc with
        | ended =>
          simp only [step, hm, ht, Option.some.injEq, Prod.mk.injEq] at h
          obtain ⟨rfl, rfl⟩ := h
          exact .join hm ht
        | _ => simp only [step, hm, ht, reduceCtorEq] at h
    | _ => simp only [step, hm, reduceCtorEq] at h
  | delete ok =>
    cases hm : s.main with
    | delete =>
      simp only [step, hm, Option.some.injEq, Prod.mk.injEq] at h
      obtain ⟨rfl, rfl⟩ := h
      exact .delete hm
    | _ => simp only [step, hm, reduceCtorEq] at h
  | list =>
    cases hm : s.main with
    | list k i =>
      simp only [step, hm] at h
      by_cases hi : i < s.count k
      · rw [if_pos hi] at h
        obtain ⟨rfl, rfl⟩ := Prod.mk.inj (Option.some.inj h)
        exact .list hm hi
      · rw [if_neg hi] at h
        obtain ⟨rfl, rfl⟩ := Prod.mk.inj (Option.some.inj h)
        exact .listed hm (Nat.le_of_not_lt hi)
    | _ => simp only [step, hm, reduceCtorEq] at h
  | unknown =>
    cases hm : s.main with
    | unknown =>
      simp only [step, hm, Option.some.injEq, Prod.mk.injEq] at h
      obtain ⟨rfl, rfl⟩ := h
      exact .unknown hm
    | _ => simp only [step, hm, reduceCtorEq] at h
  | thread r =>
    obtain ⟨th, ht, h⟩ := Option.bind_eq_some_iff.1 h
    obtain ⟨u, hu, he⟩ := Option.map_eq_some_iff.1 h
    obtain ⟨rfl, rfl⟩ := Prod.mk.inj he
    exact .thread ht hu
  | spurious =>
    obtain ⟨th, ht, h⟩ := Option.bind_eq_some_iff.1 h
    cases hpc : th.pc with
    | loop b =>
      simp only [hpc, Option.map_eq_some_iff, Prod.mk.injEq] at h
      obtain ⟨b', hb, rfl, rfl⟩ := h
      exact .spurious ht hpc hb
    | _ => simp only [hpc, reduceCtorEq] at h

def start : St := ⟨.read, none, fun _ => 0, fun _ _ => 0, [], fun _ => []⟩

end LinuxIpc.Procon
