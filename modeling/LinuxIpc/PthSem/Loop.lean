import LinuxIpc.Lib.ArrayStack
import LinuxIpc.Lib.Transition

namespace LinuxIpc.PthSem
set_option autoImplicit true

open Function (update)

/-- Rounds of the producer's `for` loop, and cells of `buf`. -/
def rounds : Nat := 10

/-- `0xab`, what the last round stores and the consumer stops at. -/
def marker : Nat := 0xab

def RAND_MAX : Nat := 2147483647

/-- A cell of `buf`, with the round that has stored it. -/
structure Cell where
  val : Nat
  round : Option Nat
  deriving DecidableEq

inductive Producer
  | produce
  -- `buf[idx]` is stored and printed; `sem_post` is still to be called
  | post
  deriving DecidableEq

inductive Consumer
  | wait
  -- `sem_wait` has returned; `buf[idx]` is still to be printed
  | consume
  | done
  deriving DecidableEq

structure St where
  i : Nat
  idx : Int
  -- only 0 to 9 are the array; an access elsewhere is told by `accessed`
  buf : Int → Cell
  sem : Nat
  producer : Producer
  consumer : Consumer
  /-- The indices at which `buf` has been accessed. -/
  accessed : List Int
  produced : List Cell
  printed : List Cell

inductive Act
  | produce (rand : Nat)
  | post
  | wait
  | consume
  deriving DecidableEq

/-- What the round stores: the marker, or `rand()`. -/
def St.cell (s : St) (rand : Nat) : Cell := ⟨if s.i = 9 then marker else rand, some s.i⟩

/-- The producer between two `sem_post`: `idx++`, the store and the `printf`. -/
def St.produce (s : St) (rand : Nat) : St :=
  { s with
    idx := s.idx + 1
    buf := update s.buf (s.idx + 1) (s.cell rand)
    producer := .post
    accessed := s.accessed ++ [s.idx + 1]
    produced := s.produced ++ [s.cell rand] }

/-- The consumer after a `sem_wait`: the `printf`, the test for the marker and `idx--`. -/
def St.consume (s : St) : St :=
  let c := s.buf s.idx
  let t := { s with accessed := s.accessed ++ [s.idx], printed := s.printed ++ [c] }
  if c.val = marker then { t with consumer := .done }
  else { t with idx := s.idx - 1, consumer := .wait }

def step (s : St) : Act → Option St
  | .produce rand =>
    if s.producer = .produce ∧ s.i < rounds ∧ rand ≤ RAND_MAX then some (s.produce rand) else none
  | .post =>
    if s.producer = .post then
      some { s with i := s.i + 1, sem := s.sem + 1, producer := .produce }
    else none
  | .wait =>
    if s.consumer = .wait ∧ 0 < s.sem then
      some { s with sem := s.sem - 1, consumer := .consume }
    else none
  | .consume => if s.consumer = .consume then some s.consume else none

def start : St := ⟨0, 0, fun _ => ⟨0, none⟩, 0, .produce, .wait, [], [], []⟩

def sys : Sys St Act := ⟨fun s => s = start, step⟩

/-- Neither thread can go on. -/
def Ended (s : St) : Prop := ∀ a, step s a = none

def Producer.pending : Producer → Nat
  | .produce => 0
  | .post => 1

def Consumer.pending : Consumer → Nat
  | .wait => 0
  | .consume | .done => 1

/-- `buf[1..idx]` is the stack of what has been produced and not taken off again; the cell at which
the consumer has stopped stays on it. -/
structure Stands (s : St) (stack taken : List Cell) (halt : Option Cell) : Prop where
  idx : s.idx = stack.length
  cells : Stacked s.buf stack
  permits : stack.length = s.sem + s.producer.pending + s.consumer.pending
  room : s.i + s.producer.pending ≤ rounds
  order : s.produced.map Cell.round = (List.range (s.i + s.producer.pending)).map some
  marked : ∀ c ∈ s.produced, c.round = some 9 → c.val = marker
  split : s.produced.Perm (taken ++ stack)
  unmarked : ∀ c ∈ taken, c.val ≠ marker
  printed : s.printed = taken ++ halt.toList
  halted : s.consumer = .done ↔ halt.isSome
  stopped : ∀ c ∈ halt, c ∈ stack ∧ c.val = marker

namespace Stands

theorem start : Stands PthSem.start [] [] none := by
  constructor <;> simp [PthSem.start, Stacked, Producer.pending, Consumer.pending]

theorem produce (h : Stands s stack taken halt) (hp : s.producer = .produce)
    (hi : s.i < rounds) (r : Nat) :
    Stands (s.produce r) (s.cell r :: stack) taken halt where
  idx := by
    rw [St.produce, h.idx]
    rfl
  cells := h.cells.push (by rw [h.idx]) _
  permits := by
    have hlen := h.permits
    rw [hp] at hlen
    simp only [List.length_cons, St.produce, Producer.pending] at hlen ⊢
    omega
  room := hi
  order := by
    have ho := h.order
    rw [hp] at ho
    simp only [St.produce, Producer.pending, List.map_append, List.range_succ] at ho ⊢
    rw [ho]
    rfl
  marked c hc hr := by
    rcases List.mem_append.1 hc with hc | hc
    · exact h.marked c hc hr
    · obtain rfl := List.mem_singleton.1 hc
      exact if_pos (Option.some.inj hr)
  split := by
    have hs := h.split.append_right [s.cell r]
    rw [List.append_assoc] at hs
    exact hs.trans ((List.perm_append_comm).append_left taken)
  unmarked := h.unmarked
  printed := h.printed
  halted := h.halted
  stopped c hc := (h.stopped c hc).imp (List.mem_cons_of_mem _) id

theorem post (h : Stands s stack taken halt) (hp : s.producer = .post) :
    Stands { s with i := s.i + 1, sem := s.sem + 1, producer := .produce } stack taken halt :=
  { h with
    permits := by
      have hlen := h.permits
      rw [hp] at hlen
      simp only [Producer.pending] at hlen ⊢
      omega
    room := by
      have hr := h.room
      rw [hp] at hr
      exact hr
    order := by
      have ho := h.order
      rw [hp] at ho
      exact ho }

theorem wait (h : Stands s stack taken halt) (hc : s.consumer = .wait) (hs : 0 < s.sem) :
    Stands { s with sem := s.sem - 1, consumer := .consume } stack taken halt :=
  { h with
    permits := by
      have hlen := h.permits
      rw [hc] at hlen
      simp only [Consumer.pending] at hlen ⊢
      omega
    halted := by
      have hh := h.halted
      rw [hc] at hh
      simpa using hh }

/-- The consumer prints the top of the stack and takes it off, or stops at the marker. -/
theorem consume (h : Stands s stack taken halt) (hc : s.consumer = .consume) :
    ∃ c cs, stack = c :: cs ∧ halt = none ∧ s.buf s.idx = c ∧
      (c.val = marker ∧ Stands s.consume stack taken (some c) ∨
        c.val ≠ marker ∧ Stands s.consume cs (taken ++ [c]) none) := by
  have hlen := h.permits
  rw [hc] at hlen
  obtain ⟨c, cs, rfl⟩ := List.exists_cons_of_length_pos (l := stack) (by
    rw [hlen]
    exact Nat.succ_pos _)
  have hnone : halt = none := by
    have hh := h.halted
    rw [hc] at hh
    simpa using hh
  subst hnone
  have htop : s.buf s.idx = c := h.cells.top h.idx
  refine ⟨c, cs, rfl, rfl, htop, ?_⟩
  by_cases hm : c.val = marker
  · refine .inl ⟨hm, ?_⟩
    rw [St.consume]
    simp only [htop, if_pos hm]
    exact { h with
      permits := hlen
      printed := by rw [h.printed, Option.toList_none, List.append_nil]; rfl
      halted := by simp
      stopped := by simp [hm] }
  · refine .inr ⟨hm, ?_⟩
    rw [St.consume]
    simp only [htop, if_neg hm]
    exact { h with
      idx := by
        rw [h.idx]
        simp
      cells := h.cells.2
      permits := Nat.succ.inj hlen
      split := by simpa using h.split
      unmarked := by
        intro d hd
        rcases List.mem_append.1 hd with hd | hd
        · exact h.unmarked d hd
        · exact List.mem_singleton.1 hd ▸ hm
      printed := by rw [h.printed]; simp
      halted := by simp
      stopped := by simp }

end Stands

end LinuxIpc.PthSem
