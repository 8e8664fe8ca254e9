import LinuxIpc.Lib.Heap
import LinuxIpc.ProdCons.Sections

namespace LinuxIpc.ProdCons.Nodes
set_option autoImplicit true

open Function (update)

/-- `struct msg`. -/
structure Msg where
  next : Option Ptr
  num : Nat

/-- Where a thread stands in `producer` or in `consumer`, with the loop's `i` and the local `mp`. -/
inductive Thread where
  | produce (i : Nat)
  -- `mp` is allocated and its `num` filled in
  | filled (i : Nat) (mp : Ptr)
  -- inside the lock, before `mp->next=head; head=mp;`
  | linking (i : Nat) (mp : Ptr)
  | linked (i : Nat)
  -- the lock is released, `pthread_cond_signal` still to be called
  | signal (i : Nat)
  | consume (i : Nat)
  -- inside the lock, before the test of `head`
  | testing (i : Nat)
  -- `head` was found not to be NULL; `mp=head; head=mp->next;` is next
  | found (i : Nat)
  | unlinked (i : Nat) (mp : Ptr)
  -- the lock is released, `mp->num` still to be printed
  | took (i : Nat) (mp : Ptr)
  | printed (i : Nat) (mp : Ptr)
  | waiting (i : Nat)
  | woken (i : Nat)
  deriving DecidableEq, Repr

def Thread.isWaiting : Thread → Bool
  | .waiting _ => true
  | _ => false

def Thread.wake : Thread → Thread
  | .waiting i => .woken i
  | c => c

/-- The shared memory and the threads `τ`. The logs are bookkeeping of the proof: `pushed` and
`popped` list the allocations linked and unlinked with their `num`, the latest first, and `fault`
records an access through a pointer whose allocation is not live. -/
structure St (τ : Type) where
  heap : Heap Msg
  head : Option Ptr
  lock : Option τ
  thread : τ → Thread
  fresh : Nat
  pushed : List (Nat × Nat)
  popped : List (Nat × Nat)
  output : List Nat
  fault : Bool

inductive Act (τ : Type) where
  -- `malloc` answers with the free address `a`, whose `next` holds `junk`; `rand` answers `r`
  | malloc (t : τ) (a r : Nat) (junk : Option Ptr)
  | run (t : τ)
  | signal (t : τ) (ws : Finset τ)
  | spurious (t : τ)

/-- `pthread_cond_signal` wakes waiters only, and at least one where there is one. -/
def Wakes (thread : τ → Thread) (ws : Finset τ) : Prop :=
  (∀ t ∈ ws, (thread t).isWaiting) ∧ ((∃ t, (thread t).isWaiting) → ws.Nonempty)

instance [Fintype τ] [DecidableEq τ] (thread : τ → Thread) (ws : Finset τ) :
    Decidable (Wakes thread ws) :=
  inferInstanceAs (Decidable (_ ∧ _))

section System
variable {τ : Type} [DecidableEq τ]

def St.goto (s : St τ) (t : τ) (c : Thread) : St τ := { s with thread := update s.thread t c }

/-- `pthread_mutex_lock(&lock)`. -/
def St.acquire (s : St τ) (t : τ) (c : Thread) : Option (St τ) :=
  if s.lock = none then some { s.goto t c with lock := some t } else none

def St.release (s : St τ) (t : τ) (c : Thread) : St τ := { s.goto t c with lock := none }

def St.wake (s : St τ) (ws : Finset τ) : St τ :=
  { s with thread := fun t => if t ∈ ws then (s.thread t).wake else s.thread t }

/-- An access through `p`, which goes wrong when the allocation of `p` is not live. -/
def St.access (s : St τ) (p : Ptr) (k : Msg → St τ) : St τ :=
  match s.heap.deref p with
  | some m => k m
  | none => { s with fault := true }

/-- `mp->next=head; head=mp;` -/
def St.link (s : St τ) (t : τ) (i : Nat) (mp : Ptr) : St τ :=
  s.access mp fun m =>
    { s.goto t (.linked i) with
      heap := s.heap.write mp { m with next := s.head }
      head := some mp
      pushed := (mp.id, m.num) :: s.pushed }

/-- `mp=head; head=mp->next;` -/
def St.unlink (s : St τ) (t : τ) (i : Nat) : St τ :=
  match s.head with
  | none => { s with fault := true }
  | some mp => s.access mp fun m =>
      { s.goto t (.unlinked i mp) with
        head := m.next
        popped := (mp.id, m.num) :: s.popped }

/-- The next statement of a thread, where neither `malloc` nor the condition variable answers. -/
def St.run (s : St τ) (t : τ) : Option (St τ) :=
  match s.thread t with
  | .filled i mp => s.acquire t (.linking i mp)
  | .linking i mp => some (s.link t i mp)
  | .linked i => some (s.release t (.signal i))
  | .consume i => if i < rounds then s.acquire t (.testing i) else none
  | .woken i => s.acquire t (.testing i)
  | .testing i =>
    if s.head = none then some (s.release t (.waiting i)) else some (s.goto t (.found i))
  | .found i => some (s.unlink t i)
  | .unlinked i mp => some (s.release t (.took i mp))
  | .took i mp => some (s.access mp fun m =>
      { s.goto t (.printed i mp) with output := s.output ++ [m.num] })
  | .printed i mp => some (s.access mp fun _ =>
      { s.goto t (.consume (i + 1)) with heap := s.heap.free mp })
  | .produce _ | .signal _ | .waiting _ => none

def step [Fintype τ] (s : St τ) : Act τ → Option (St τ)
  | .malloc t a r junk =>
    match s.thread t with
    | .produce i =>
      if i < rounds ∧ s.heap a = none then
        some { s.goto t (.filled i ⟨a, s.fresh⟩) with
          heap := s.heap.malloc a s.fresh ⟨junk, product r⟩
          fresh := s.fresh + 1 }
      else none
    | _ => none
  | .run t => s.run t
  | .signal t ws =>
    match s.thread t with
    | .signal i =>
      if Wakes s.thread ws then
        some ((s.wake ws).goto t (.produce (i + 1)))
      else none
    | _ => none
  | .spurious t =>
    if (s.thread t).isWaiting then some (s.goto t (s.thread t).wake) else none

/-- Every thread is about to start `producer` or `consumer`; `head` is NULL. -/
def Init (s : St τ) : Prop :=
  (∀ t, s.thread t = .produce 0 ∨ s.thread t = .consume 0) ∧ s.heap = (fun _ => none) ∧
    s.head = none ∧ s.lock = none ∧ s.pushed = [] ∧ s.popped = [] ∧ s.fault = false

/-- Nothing is allocated yet and the threads stand as given. -/
def begin (thread : τ → Thread) : St τ :=
  ⟨fun _ => none, none, none, thread, 0, [], [], [], false⟩

variable (τ) in
def sys [Fintype τ] : Sys (St τ) (Act τ) := ⟨Init, step⟩

end System

end LinuxIpc.ProdCons.Nodes
