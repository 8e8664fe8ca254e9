import LinuxIpc.SlotChat.Admission

namespace LinuxIpc.SlotChat
set_option autoImplicit true

open Function (update)

/-- What a positive `recv(index,buf1,sizeof(buf1),0)` delivers. -/
structure Chunk where
  bytes : List UInt8
  ne_nil : bytes ≠ []
  length_le : bytes.length ≤ 50

/-- How the input ends: `recv` returns 0, or a negative value. -/
inductive Ending where
  | closed
  | failed
  deriving DecidableEq, Repr

inductive Recv where
  | chunk (d : Chunk)
  | ending (e : Ending)

/-- The `for` loop that precedes the `recv`. -/
def relay (p : Table) (buf1 : Buf 50) : List (Int × List UInt8) :=
  ((List.range slots).filter fun j => p j ≠ 0).map fun j => (p j, cstr buf1.bytes)

/-- What a handler has sent before each of its `recv`s, the table it leaves, and whether it has come
to `pthread_exit`. -/
structure Handled where
  rounds : List (List (Int × List UInt8))
  table : Table
  ended : Bool

/-- `pthread_run` of `t1s.c` on the results of its `recv`s; after these it waits in the next one. -/
def pthreadRun (index : Int) (p : Table) : List Recv → Handled
  | [] => ⟨[relay p (.zero 50)], p, false⟩
  | r :: rs =>
    -- `buf1` is declared inside the loop, and is new and zero in each iteration
    let sent := relay p (.zero 50)
    match r with
    | .ending .failed => ⟨[sent], release p index, true⟩
    | .ending .closed | .chunk _ =>
      let h := pthreadRun index p rs
      { h with rounds := sent :: h.rounds }

def results (chunks : List Chunk) (e : Ending) : List Recv := chunks.map .chunk ++ [.ending e]

/-- The descriptor of the handler stands in one slot. -/
structure Owns (p : Table) (index : Int) (i : Nat) : Prop where
  lt : i < slots
  slot : p i = index
  ne : index ≠ 0
  only : ∀ j < slots, p j = index → j = i

/-- Each chunk goes to every registered descriptor once before the next `recv`, and in the end the
handler gives back its own slot and ends. -/
structure Law (p : Table) (i : Nat) (chunks : List Chunk) (h : Handled) : Prop where
  relayed : ∀ k d, chunks[k]? = some d → ∀ j < slots, p j ≠ 0 →
    (h.rounds.getD (k + 1) []).count (p j, d.bytes) = 1
  freed : h.table i = 0
  others : ∀ j < slots, j ≠ i → h.table j = p j
  ended : h.ended = true

theorem relay_zero (h : m ∈ relay p (.zero 50)) : m.2 = [] := by
  obtain ⟨j, -, rfl⟩ := List.mem_map.1 h
  rfl

theorem rounds_relay (h : sent ∈ (pthreadRun index p rs).rounds) : sent = relay p (.zero 50) := by
  induction rs with
  | nil => exact List.mem_singleton.1 h
  | cons r rs ih =>
    have hgo : sent ∈ relay p (.zero 50) :: (pthreadRun index p rs).rounds →
        sent = relay p (.zero 50) := by
      intro h
      rcases List.mem_cons.1 h with h | h
      · exact h
      · exact ih h
    cases r with
    | chunk d => exact hgo h
    | ending e =>
      cases e with
      | closed => exact hgo h
      | failed => exact List.mem_singleton.1 h

theorem count_rounds (k : Nat) (fd : Int) (d : Chunk) :
    ((pthreadRun index p rs).rounds.getD k []).count (fd, d.bytes) = 0 := by
  apply List.count_eq_zero.2
  intro hm
  rw [List.getD_eq_getElem?_getD] at hm
  cases hk : (pthreadRun index p rs).rounds[k]? with
  | none =>
    rw [hk] at hm
    cases hm
  | some sent =>
    rw [hk, Option.getD_some, rounds_relay (List.mem_of_getElem? hk)] at hm
    exact d.ne_nil (relay_zero hm)

theorem Owns.release (h : Owns p index i) : release p index = update p i 0 := by
  have hsome : ((List.range slots).find? fun j => p j = index).isSome := by
    rw [List.find?_isSome]
    exact ⟨i, List.mem_range.2 h.lt, decide_eq_true h.slot⟩
  obtain ⟨j, hj⟩ := Option.isSome_iff_exists.1 hsome
  have hlt := List.mem_range.1 (List.mem_of_find?_eq_some hj)
  have hpj := List.find?_some hj
  obtain rfl := h.only j hlt (of_decide_eq_true hpj)
  rw [SlotChat.release, hj]

/-- A handler obeys its law exactly if it receives nothing before a failing `recv`. -/
theorem law_iff (chunks : List Chunk) (e : Ending) (h : Owns p index i) :
    Law p i chunks (pthreadRun index p (results chunks e)) ↔ chunks = [] ∧ e = .failed := by
  constructor
  · intro hl
    cases chunks with
    | nil =>
      refine ⟨rfl, ?_⟩
      cases e with
      | failed => rfl
      | closed =>
        have hended : false = true := hl.ended
        cases hended
    | cons d ds =>
      have hi : p i ≠ 0 := h.slot ▸ h.ne
      have hone := hl.relayed 0 d rfl i h.lt hi
      rw [count_rounds] at hone
      cases hone
  · rintro ⟨rfl, rfl⟩
    change Law p i [] ⟨[relay p (.zero 50)], SlotChat.release p index, true⟩
    rw [h.release]
    constructor
    case relayed => exact nofun
    case freed => exact Function.update_self ..
    case others =>
      intro j _ hj
      exact Function.update_of_ne hj ..
    case ended => rfl

def pair : Table := update (update start 0 4) 1 5

theorem pair_owns : Owns pair 5 1 := by
  constructor
  · decide
  · decide
  · decide
  · decide

/-- A line is not passed on to anyone, and when the client has closed its end the handler goes
on. -/
theorem not_law : Owns pair 5 1 ∧ ¬ Law pair 1 [⟨[104, 105], by decide, by decide⟩]
    (pthreadRun 5 pair (results [⟨[104, 105], by decide, by decide⟩] .closed)) := by
  refine ⟨pair_owns, fun h => ?_⟩
  have hone := h.relayed 0 _ rfl 0 (by decide) (by decide)
  revert hone
  decide

theorem law_iff_failed : Law pair 1 [] (pthreadRun 5 pair (results [] .failed)) :=
  (law_iff [] .failed pair_owns).2 ⟨rfl, rfl⟩

end LinuxIpc.SlotChat
