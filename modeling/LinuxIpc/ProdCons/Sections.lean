import LinuxIpc.Lib.Transition
import LinuxIpc.Lib.Family

namespace LinuxIpc.ProdCons
set_option autoImplicit true

open Function (update)

/-- Rounds of the `for` loops of `producer` and `consumer`. -/
def rounds : Nat := 5

/-- Where a thread running `producer` stands; the counter is the loop's `i`. -/
inductive Producer where
  | produce (i : Nat)
  -- `head=mp` is done and the lock released; `pthread_cond_signal` is still to be called
  | signal (i : Nat)
  deriving DecidableEq, Repr

/-- Where a thread running `consumer` stands. -/
inductive Consumer where
  | consume (i : Nat)
  -- in the wait set of `has_product`
  | waiting (i : Nat)
  -- out of the wait set, and still to take the lock and test `head` again
  | woken (i : Nat)
  -- `mp` is unlinked and the lock released; its `num` is still to be printed
  | took (i num : Nat)
  deriving DecidableEq, Repr

/-- `mp->num=rand()%1000+1`. -/
def product (r : Nat) : Nat := r % 1000 + 1

/-- A node filled from `rand()` is linked at `head` under the lock. -/
def Producer.push (r : Nat) (head : List Nat) : Producer → Option (Producer × List Nat)
  | .produce i => if i < rounds then some (.signal i, product r :: head) else none
  | .signal _ => none

def Producer.signalled : Producer → Option Producer
  | .signal i => some (.produce (i + 1))
  | .produce _ => none

/-- From `while (head==NULL)` to the unlock, or to the wait that releases the lock. -/
def takeHead (i : Nat) : List Nat → Consumer × List Nat
  | [] => (.waiting i, [])
  | num :: next => (.took i num, next)

def Consumer.enter (head : List Nat) : Consumer → Option (Consumer × List Nat)
  | .consume i => if i < rounds then some (takeHead i head) else none
  | .woken i => some (takeHead i head)
  | .waiting _ | .took _ _ => none

/-- `printf("Consume %d\n",mp->num); free(mp);` -/
def Consumer.print : Consumer → Option (Consumer × Nat)
  | .took i num => some (.consume (i + 1), num)
  | _ => none

def Consumer.isWaiting : Consumer → Bool
  | .waiting _ => true
  | _ => false

/-- Leaving the wait set changes nothing in a thread that is not in it. -/
def Consumer.wake : Consumer → Consumer
  | .waiting i => .woken i
  | c => c

/-- Threads running `producer` are indexed by `ι`, those running `consumer` by `κ`; the shared
chain is given by the `num`s from `head` on. -/
structure St (ι κ : Type) where
  head : List Nat
  prod : ι → Producer
  cons : κ → Consumer
  printed : List Nat

inductive Act (ι κ : Type) where
  | push (i : ι) (r : Nat)
  -- `pthread_cond_signal` by `i` takes the threads `ws` out of the wait set
  | signal (i : ι) (ws : Finset κ)
  | enter (k : κ)
  | print (k : κ)
  | spurious (k : κ)

/-- `pthread_cond_signal` wakes waiters only, and at least one where there is one. -/
def Wakes (cons : κ → Consumer) (ws : Finset κ) : Prop :=
  (∀ k ∈ ws, (cons k).isWaiting) ∧ ((∃ k, (cons k).isWaiting) → ws.Nonempty)

instance [Fintype κ] [DecidableEq κ] (cons : κ → Consumer) (ws : Finset κ) :
    Decidable (Wakes cons ws) :=
  inferInstanceAs (Decidable (_ ∧ _))

section System
variable {ι κ : Type} [DecidableEq ι] [Fintype κ] [DecidableEq κ]

def step (s : St ι κ) : Act ι κ → Option (St ι κ)
  | .push i r => ((s.prod i).push r s.head).map fun (p, head) =>
      { s with prod := update s.prod i p, head := head }
  | .signal i ws =>
    if Wakes s.cons ws then
      (s.prod i).signalled.map fun p =>
        { s with
          prod := update s.prod i p
          cons := fun k => if k ∈ ws then (s.cons k).wake else s.cons k }
    else none
  | .enter k => ((s.cons k).enter s.head).map fun (c, head) =>
      { s with cons := update s.cons k c, head := head }
  | .print k => (s.cons k).print.map fun (c, num) =>
      { s with cons := update s.cons k c, printed := s.printed ++ [num] }
  | .spurious k =>
    if (s.cons k).isWaiting then some { s with cons := update s.cons k (s.cons k).wake }
    else none

def start : St ι κ := ⟨[], fun _ => .produce 0, fun _ => .consume 0, []⟩

variable (ι κ) in
def sys : Sys (St ι κ) (Act ι κ) := ⟨fun s => s = start, step⟩

end System

/-- All threads have run their rounds. -/
def Finished (s : St ι κ) : Prop :=
  (∀ i, s.prod i = .produce rounds) ∧ ∀ k, s.cons k = .consume rounds

/-- A node is there and a consumer waits for it, with no signal and no test of `head` to come. -/
def LostWakeup (s : St ι κ) : Prop :=
  s.head ≠ [] ∧ (∃ k i, s.cons k = .waiting i) ∧ (∀ i n, s.prod i ≠ .signal n) ∧
    ∀ k i, s.cons k ≠ .woken i

/-- Nodes linked by a producer so far. -/
def Producer.pushes : Producer → Nat
  | .produce i => i
  | .signal i => i + 1

def Producer.pending : Producer → Nat
  | .produce _ => 0
  | .signal _ => 1

/-- Nodes unlinked by a consumer so far. -/
def Consumer.pops : Consumer → Nat
  | .consume i | .waiting i | .woken i => i
  | .took i _ => i + 1

def Consumer.retests : Consumer → Nat
  | .woken _ => 1
  | _ => 0

def Producer.InRounds : Producer → Prop
  | .produce i => i ≤ rounds
  | .signal i => i < rounds

def Consumer.InRounds : Consumer → Prop
  | .consume i => i ≤ rounds
  | .waiting i | .woken i | .took i _ => i < rounds

theorem Producer.push_eq {p : Producer} (h : p.push r head = some (q, head')) :
    ∃ i, i < rounds ∧ p = .produce i ∧ q = .signal i ∧ head' = product r :: head := by
  cases p with
  | produce i =>
    simp only [Producer.push, Option.ite_none_right_eq_some, Option.some.injEq,
      Prod.mk.injEq] at h
    obtain ⟨hi, hq, hh⟩ := h
    exact ⟨i, hi, rfl, hq.symm, hh.symm⟩
  | signal i => cases h

theorem Producer.signalled_eq {p : Producer} (h : p.signalled = some q) :
    ∃ i, p = .signal i ∧ q = .produce (i + 1) := by
  cases p with
  | produce i => cases h
  | signal i => cases h; exact ⟨i, rfl, rfl⟩

/-- A section that tests `head` either waits on the empty chain or takes its first node. -/
theorem Consumer.enter_eq {c : Consumer} (h : c.enter head = some (d, head')) :
    ∃ i, (c = .consume i ∧ i < rounds ∨ c = .woken i) ∧
      (head = [] ∧ d = .waiting i ∧ head' = [] ∨
        ∃ num, head = num :: head' ∧ d = .took i num) := by
  have htake {i : Nat} (ht : takeHead i head = (d, head')) :
      head = [] ∧ d = .waiting i ∧ head' = [] ∨
        ∃ num, head = num :: head' ∧ d = .took i num := by
    cases head with
    | nil => cases ht; exact .inl ⟨rfl, rfl, rfl⟩
    | cons num next => cases ht; exact .inr ⟨num, rfl, rfl⟩
  cases c with
  | consume i =>
    simp only [Consumer.enter, Option.ite_none_right_eq_some, Option.some.injEq] at h
    exact ⟨i, .inl ⟨rfl, h.1⟩, htake h.2⟩
  | woken i => exact ⟨i, .inr rfl, htake (Option.some.inj h)⟩
  | waiting i => cases h
  | took i num => cases h

theorem Consumer.print_eq {c : Consumer} (h : c.print = some (d, num)) :
    ∃ i, c = .took i num ∧ d = .consume (i + 1) := by
  cases c with
  | took i num => cases h; exact ⟨i, rfl, rfl⟩
  | consume i => cases h
  | waiting i => cases h
  | woken i => cases h

theorem Consumer.isWaiting_iff {c : Consumer} : c.isWaiting = true ↔ ∃ i, c = .waiting i := by
  cases c with
  | waiting i => exact ⟨fun _ => ⟨i, rfl⟩, fun _ => rfl⟩
  | consume i => exact ⟨nofun, nofun⟩
  | woken i => exact ⟨nofun, nofun⟩
  | took i num => exact ⟨nofun, nofun⟩

@[simp] theorem Consumer.wake_pops (c : Consumer) : c.wake.pops = c.pops := by
  cases c <;> rfl

theorem Consumer.InRounds.wake {c : Consumer} (h : c.InRounds) : c.wake.InRounds := by
  cases c <;> exact h

theorem Consumer.le_wake_retests (c : Consumer) : c.retests ≤ c.wake.retests := by
  cases c <;> simp only [Consumer.retests, Consumer.wake] <;> omega

theorem Consumer.wake_not_waiting (c : Consumer) : c.wake.isWaiting = false := by
  cases c <;> rfl

end LinuxIpc.ProdCons
