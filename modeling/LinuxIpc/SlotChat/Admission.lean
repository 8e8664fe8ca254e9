import LinuxIpc.Lib.Buffer
import LinuxIpc.Lib.Transition
import Mathlib.Logic.Function.Basic

namespace LinuxIpc.SlotChat
set_option autoImplicit true

open Function (update)

/-- The length of `clifd_p` and of `client_p`. -/
def slots : Nat := 50

/-- `clifd_p` or `client_p`; a slot with 0 is free. -/
abbrev Table := Nat → Int

/-- The two servers, `t1s.c` and `s.c`. -/
inductive Prog where
  | t1s
  | s
  deriving DecidableEq, Repr

/-- What `pthread_create` hands to a handler: `&clifd`, or `&client_p[i]`. -/
inductive Arg where
  | cell
  | slot (i : Nat)
  deriving DecidableEq, Repr

def Prog.arg : Prog → Nat → Arg
  | .t1s, _ => .cell
  | .s, i => .slot i

/-- The message for those that find no free slot. -/
def Prog.full : Prog → List UInt8
  -- 聊天室已满，请加入其他聊天室，或者等待有人离开!
  | .t1s => [0xE8, 0x81, 0x8A, 0xE5, 0xA4, 0xA9, 0xE5, 0xAE, 0xA4, 0xE5, 0xB7, 0xB2, 0xE6, 0xBB,
      0xA1, 0xEF, 0xBC, 0x8C, 0xE8, 0xAF, 0xB7, 0xE5, 0x8A, 0xA0, 0xE5, 0x85, 0xA5, 0xE5, 0x85,
      0xB6, 0xE4, 0xBB, 0x96, 0xE8, 0x81, 0x8A, 0xE5, 0xA4, 0xA9, 0xE5, 0xAE, 0xA4, 0xEF, 0xBC,
      0x8C, 0xE6, 0x88, 0x96, 0xE8, 0x80, 0x85, 0xE7, 0xAD, 0x89, 0xE5, 0xBE, 0x85, 0xE6, 0x9C,
      0x89, 0xE4, 0xBA, 0xBA, 0xE7, 0xA6, 0xBB, 0xE5, 0xBC, 0x80, 0x21]
  | .s => ascii "server full,please quit\n"

/-- What the loop does besides filling a slot. -/
inductive Effect where
  | create (a : Arg)
  | send (fd : Int) (d : List UInt8)
  | close (fd : Int)
  deriving DecidableEq

/-- The search for a free slot in an iteration of the accept loop, over the `i` that are left of
`for (i = 0;i < 50;i++)`; `ok` tells whether `pthread_create` succeeds, which no one asks. -/
def seat (prog : Prog) (fd : Int) (ok : Bool) : List Nat → Table → Table × List Effect
  | [], p => (p, [])
  | i :: is, p =>
    if p i = 0 then (update p i fd, if ok then [.create (prog.arg i)] else [])
    else if 50 = i then
      let (p', es) := seat prog fd ok is p
      (p', .send fd prog.full :: .close fd :: es)
    else seat prog fd ok is p

def accept (prog : Prog) (p : Table) (fd : Int) (ok : Bool) : Table × List Effect :=
  seat prog fd ok (List.range slots) p

/-- A handler whose `recv` fails gives back the first slot with its `index`. -/
def release (p : Table) (index : Int) : Table :=
  match (List.range slots).find? fun i => p i = index with
  | some i => update p i 0
  | none => p

inductive Act where
  | accept (fd : Int) (ok : Bool)
  | leave (index : Int)

/-- The table between the iterations of the accept loop; descriptor 0 is never accepted, it stays
open throughout. -/
def step (prog : Prog) (p : Table) : Act → Option Table
  | .accept fd ok => if 0 < fd then some (accept prog p fd ok).1 else none
  | .leave index => some (release p index)

/-- `int clifd_p[50];` -/
def start : Table := fun _ => 0

def sys (prog : Prog) : Sys Table Act := ⟨(· = start), step prog⟩

/-- The newcomer is in exactly one slot that was free, and has a handler. -/
def Admitted (prog : Prog) (p : Table) (fd : Int) (r : Table × List Effect) : Prop :=
  ∃ i < slots, p i = 0 ∧ r.1 i = fd ∧ (∀ j ≠ i, r.1 j = p j ∧ ¬ (p j = 0 ∧ r.1 j = fd)) ∧
    r.2 = [.create (prog.arg i)]

/-- All slots are taken, and the newcomer is told so. -/
def Refused (prog : Prog) (p : Table) (fd : Int) (r : Table × List Effect) : Prop :=
  (∀ i < slots, p i ≠ 0) ∧ r.1 = p ∧ r.2 = [.send fd prog.full, .close fd]

/-- The accept iteration does not lose the connection. -/
def Settled (prog : Prog) (p : Table) : Act → Prop
  | .accept fd ok => Admitted prog p fd (accept prog p fd ok) ∨
      Refused prog p fd (accept prog p fd ok)
  | .leave _ => True

/-- A slot is free, and the handler can be created. -/
def Vacant (p : Table) : Act → Prop
  | .accept _ ok => (∃ i < slots, p i = 0) ∧ ok = true
  | .leave _ => True

instance (p : Table) (a : Act) : Decidable (Vacant p a) := by
  cases a <;> unfold Vacant <;> infer_instance

theorem step_accept (prog : Prog) (p : Table) (ok : Bool) (h : 0 < fd) :
    (sys prog).step p (.accept fd ok) = some (accept prog p fd ok).1 := if_pos h

theorem notMem_range : 50 ∉ List.range slots := List.not_mem_range_self

/-- The first free slot is the one that is filled. -/
theorem seat_free (prog : Prog) (fd : Int) (ok : Bool) (hn : 50 ∉ is) (hi : i ∈ is)
    (h : p i = 0) : ∃ j ∈ is, p j = 0 ∧
      seat prog fd ok is p = (update p j fd, if ok then [.create (prog.arg j)] else []) := by
  induction is with
  | nil => cases hi
  | cons j is ih =>
    rw [List.mem_cons, not_or] at hn
    by_cases hj : p j = 0
    · exact ⟨j, List.mem_cons_self, hj, if_pos hj⟩
    · have hm : i ∈ is := by
        rcases List.mem_cons.1 hi with rfl | hm
        · exact (hj h).elim
        · exact hm
      obtain ⟨k, hk, hk0, he⟩ := ih hn.2 hm
      refine ⟨k, List.mem_cons_of_mem j hk, hk0, ?_⟩
      rw [seat, if_neg hj, if_neg hn.1, he]

/-- Where none is free the loop only passes over the slots, as the test for its end is inside. -/
theorem seat_full (hn : 50 ∉ is) (h : ∀ i ∈ is, p i ≠ 0) :
    seat prog fd ok is p = (p, []) := by
  induction is with
  | nil => rfl
  | cons j is ih =>
    rw [List.mem_cons, not_or] at hn
    obtain ⟨hj, his⟩ := List.forall_mem_cons.1 h
    rw [seat, if_neg hj, if_neg hn.1, ih hn.2 his]

theorem accept_free (prog : Prog) (fd : Int) (ok : Bool) (hi : i < slots) (h : p i = 0) :
    ∃ j < slots, p j = 0 ∧
      accept prog p fd ok = (update p j fd, if ok then [.create (prog.arg j)] else []) := by
  obtain ⟨j, hj, h0, he⟩ := seat_free prog fd ok notMem_range (List.mem_range.2 hi) h
  exact ⟨j, List.mem_range.1 hj, h0, he⟩

theorem accept_full (h : ∀ i < slots, p i ≠ 0) : accept prog p fd ok = (p, []) :=
  seat_full notMem_range fun i hi => h i (List.mem_range.1 hi)

theorem admitted_of_free (hfd : 0 < fd) (hi : i < slots) (h : p i = 0) :
    Admitted prog p fd (accept prog p fd true) := by
  obtain ⟨j, hj, h0, he⟩ := accept_free prog fd true hi h
  rw [he]
  refine ⟨j, hj, h0, Function.update_self .., ?_, rfl⟩
  intro k hk
  have hsame : update p j fd k = p k := Function.update_of_ne hk ..
  refine ⟨hsame, ?_⟩
  rintro ⟨hk0, hkfd⟩
  exact ne_of_lt hfd (hk0.symm.trans (hsame.symm.trans hkfd))

theorem settled_iff (hfd : 0 < fd) :
    Settled prog p (.accept fd ok) ↔ Vacant p (.accept fd ok) := by
  constructor
  · rintro (⟨i, hi, h0, -, -, hes⟩ | ⟨hall, -, hes⟩)
    · refine ⟨⟨i, hi, h0⟩, ?_⟩
      obtain ⟨j, -, -, he⟩ := accept_free prog fd ok hi h0
      rw [he] at hes
      cases ok with
      | true => rfl
      | false => cases hes
    · rw [accept_full hall] at hes
      cases hes
  · rintro ⟨⟨i, hi, h0⟩, rfl⟩
    exact .inl (admitted_of_free hfd hi h0)

/-- In a run no connection is lost exactly if each of them finds a free slot, and its handler can be
created. -/
theorem never_lost_iff (h : (sys prog).run as start = some p) :
    (sys prog).Along (Settled prog) as start ↔ (sys prog).Along Vacant as start := by
  refine Sys.along_congr (I := fun _ => True) trivial (fun _ _ _ _ _ _ => trivial) ?_ h
  intro q a t _ ht
  cases a with
  | accept fd ok =>
    obtain ⟨hfd, -⟩ := Option.ite_none_right_eq_some.1 ht
    exact settled_iff hfd
  | leave index => exact Iff.rfl

def crowd (n : Nat) : List Act := (List.range n).map fun i => .accept (i + 4 : Nat) true

/-- The one after the fiftieth is neither served nor told so. -/
theorem crowd_lost (prog : Prog) : ∃ as p, (sys prog).run as start = some p ∧
    ¬ (sys prog).Along (Settled prog) as start := by
  have hr : (((sys prog).run (crowd 50) start).map fun p => decide (∀ i < slots, p i ≠ 0)) =
      some true := by cases prog <;> decide +kernel
  obtain ⟨p, hp, hfull⟩ := Option.map_eq_some_iff.1 hr
  have hfull := of_decide_eq_true hfull
  have hfd : (0 : Int) < 54 := by decide
  have hstep := step_accept prog p true hfd
  refine ⟨crowd 50 ++ [.accept 54 true], _, Sys.run_trans hp (Sys.run_cons hstep), ?_⟩
  rw [Sys.along_append hp, Sys.along_cons hstep]
  rintro ⟨-, hs, -⟩
  obtain ⟨⟨i, hi, h0⟩, -⟩ := (settled_iff hfd).1 hs
  exact hfull i hi h0

/-- In both servers a connection can be lost. -/
theorem not_settled :
    (∃ as p, (sys .t1s).run as start = some p ∧ ¬ (sys .t1s).Along (Settled .t1s) as start) ∧
    ∃ as p, (sys .s).run as start = some p ∧ ¬ (sys .s).Along (Settled .s) as start :=
  ⟨crowd_lost .t1s, crowd_lost .s⟩

theorem never_lost_iff_again : ∃ p,
    (sys .s).run [.accept 4 true, .accept 5 true, .leave 4, .accept 6 true] start = some p ∧
    p 0 = 6 ∧ p 1 = 5 ∧
    (sys .s).Along (Settled .s) [.accept 4 true, .accept 5 true, .leave 4, .accept 6 true] start :=
  ⟨_, rfl, by decide, by decide, (never_lost_iff rfl).2 (by decide)⟩

end LinuxIpc.SlotChat
