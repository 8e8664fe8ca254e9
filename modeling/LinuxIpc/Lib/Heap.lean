import Mathlib.Data.List.Nodup
import Mathlib.Logic.Function.Basic

namespace LinuxIpc
set_option autoImplicit true

open Function (update)

/-- A pointer knows the allocation it came from, so that an address given out again does not
bring an old pointer back to life. -/
structure Ptr where
  addr : Nat
  id : Nat
  deriving DecidableEq, Repr

structure Block (V : Type u) where
  id : Nat
  val : V

/-- The blocks allocated and not yet freed, by address. -/
abbrev Heap (V : Type u) := Nat → Option (Block V)

namespace Heap

/-- Reading through a pointer succeeds only while its own allocation is live. -/
def deref (h : Heap V) (p : Ptr) : Option V :=
  match h p.addr with
  | some b => if b.id = p.id then some b.val else none
  | none => none

def malloc (h : Heap V) (a i : Nat) (v : V) : Heap V := update h a (some ⟨i, v⟩)

def write (h : Heap V) (p : Ptr) (v : V) : Heap V := update h p.addr (some ⟨p.id, v⟩)

def free (h : Heap V) (p : Ptr) : Heap V := update h p.addr none

theorem deref_eq_some {h : Heap V} : h.deref p = some v ↔ h p.addr = some ⟨p.id, v⟩ := by
  unfold deref
  cases hb : h p.addr with
  | none => exact ⟨nofun, nofun⟩
  | some b =>
    obtain ⟨i, w⟩ := b
    by_cases hi : i = p.id
    · simp only [hi, ↓reduceIte, Option.some.injEq, Block.mk.injEq, true_and]
    · simp only [hi, ↓reduceIte, reduceCtorEq, Option.some.injEq, Block.mk.injEq, false_and]

/-- Two live pointers to one address are the same pointer. -/
theorem eq_of_addr {h : Heap V} (hp : h.deref p = some v) (hq : h.deref q = some w)
    (ha : p.addr = q.addr) : p = q := by
  rw [deref_eq_some] at hp hq
  rw [ha, hq] at hp
  cases p; cases q
  cases ha
  cases hp
  rfl

theorem deref_update_of_ne {h : Heap V} (ha : p.addr ≠ a) : deref (update h a b) p = h.deref p := by
  simp only [deref, Function.update_of_ne ha]

theorem deref_malloc_self (h : Heap V) (a i : Nat) (v : V) :
    (h.malloc a i v).deref ⟨a, i⟩ = some v := by
  simp only [deref_eq_some, malloc, Function.update_self]

theorem deref_malloc {h : Heap V} (ha : h a = none) (hp : h.deref p = some v) (i : Nat) (w : V) :
    (h.malloc a i w).deref p = some v := by
  rw [malloc, deref_update_of_ne, hp]
  intro he
  rw [deref_eq_some, he, ha] at hp
  cases hp

theorem deref_write_self (h : Heap V) (p : Ptr) (v : V) : (h.write p v).deref p = some v := by
  simp only [deref_eq_some, write, Function.update_self]

theorem deref_write {h : Heap V} (hq : h.deref q = some w) (hp : h.deref p = some v)
    (hne : p ≠ q) : (h.write q w').deref p = some v := by
  rw [write, deref_update_of_ne, hp]
  exact fun ha => hne (eq_of_addr hp hq ha)

theorem deref_free {h : Heap V} (hq : h.deref q = some w) (hp : h.deref p = some v)
    (hne : p ≠ q) : (h.free q).deref p = some v := by
  rw [free, deref_update_of_ne, hp]
  exact fun ha => hne (eq_of_addr hp hq ha)

theorem deref_free_self (h : Heap V) (p : Ptr) : (h.free p).deref p = none := by
  simp only [deref, free, Function.update_self]

/-- A pointer that is not live stays so until something is allocated. -/
theorem deref_free_none {h : Heap V} (hr : h.deref r = none) : (h.free p).deref r = none := by
  by_cases ha : r.addr = p.addr
  · simp only [deref, free, ha, Function.update_self]
  · rw [free, deref_update_of_ne ha, hr]

theorem deref_write_none {h : Heap V} (hp : h.deref p = some v) (hr : h.deref r = none) :
    (h.write p w).deref r = none := by
  by_cases ha : r.addr = p.addr
  · have hid : p.id ≠ r.id := by
      intro hid
      have he : r = p := by
        cases r
        cases p
        cases ha
        cases hid
        rfl
      rw [he, hp] at hr
      cases hr
    simp only [deref, write, ha, Function.update_self, if_neg hid]
  · rw [write, deref_update_of_ne ha, hr]

/-- The nodes met by following `next` from a pointer until NULL. -/
inductive Chain (next : V → Option Ptr) (h : Heap V) : Option Ptr → List (Ptr × V) → Prop where
  | nil : Chain next h none []
  | cons : h.deref p = some v → Chain next h (next v) l → Chain next h (some p) ((p, v) :: l)

theorem chain_cons {next : V → Option Ptr} : Chain next h (some p) ((p, v) :: l) ↔
    h.deref p = some v ∧ Chain next h (next v) l := by
  constructor
  · rintro (_ | ⟨hp, hc⟩)
    exact ⟨hp, hc⟩
  · rintro ⟨hp, hc⟩
    exact .cons hp hc

/-- Where a chain goes on tells whether its pointer is NULL. -/
theorem Chain.head {next : V → Option Ptr} (hc : Chain next h o l) :
    o = l.head?.map Prod.fst := by
  cases hc <;> rfl

theorem Chain.deref {next : V → Option Ptr} (hc : Chain next h o l) (he : (p, v) ∈ l) :
    h.deref p = some v := by
  induction hc with
  | nil => cases he
  | cons hp hc ih =>
    rcases List.mem_cons.1 he with he | he
    · cases he; exact hp
    · exact ih he

theorem Chain.unique {next : V → Option Ptr} (hc : Chain next h o l) (hc' : Chain next h o l') :
    l = l' := by
  induction hc generalizing l' with
  | nil => cases hc'; rfl
  | cons hp hc ih =>
    cases hc' with
    | cons hp' hc' =>
      rw [hp] at hp'
      cases hp'
      rw [ih hc']

/-- Writes, frees and allocations elsewhere leave a chain as it is. -/
theorem Chain.frame {next : V → Option Ptr} (hc : Chain next h o l)
    (hf : ∀ p v, (p, v) ∈ l → h'.deref p = some v) : Chain next h' o l := by
  induction hc with
  | nil => exact .nil
  | cons hp hc ih =>
    exact .cons (hf _ _ (List.mem_cons_self ..))
      (ih fun p v hm => hf p v (List.mem_cons_of_mem _ hm))

theorem Chain.suffix {next : V → Option Ptr} (hc : Chain next h o l) (he : (p, v) ∈ l) :
    ∃ l', Chain next h (some p) l' ∧ l'.length ≤ l.length := by
  induction hc with
  | nil => cases he
  | cons hp hc ih =>
    rcases List.mem_cons.1 he with he | he
    · cases he
      exact ⟨_, .cons hp hc, Nat.le_refl _⟩
    · obtain ⟨l', hl', hle⟩ := ih he
      exact ⟨l', hl', Nat.le_succ_of_le hle⟩

/-- A chain that ends has no cycle. -/
theorem Chain.nodup {next : V → Option Ptr} (hc : Chain next h o l) : (l.map Prod.fst).Nodup := by
  induction hc with
  | nil => exact List.nodup_nil
  | @cons p v l hp hc ih =>
    refine List.nodup_cons.2 ⟨fun hm => ?_, ih⟩
    obtain ⟨⟨q, w⟩, hq, he⟩ := List.mem_map.1 hm
    cases he
    obtain ⟨l', hl', hle⟩ := hc.suffix hq
    have he := hl'.unique (.cons hp hc)
    rw [he, List.length_cons] at hle
    exact Nat.not_succ_le_self _ hle

theorem Chain.addr_nodup {next : V → Option Ptr} (hc : Chain next h o l) :
    (l.map fun e => e.1.addr).Nodup := by
  have hn := hc.nodup.of_map
  refine (List.nodup_map_iff_inj_on hn).2 fun e he e' he' ha => ?_
  have hp := eq_of_addr (hc.deref he) (hc.deref he') ha
  exact (List.inj_on_of_nodup_map hc.nodup) he he' hp

end Heap

end LinuxIpc
