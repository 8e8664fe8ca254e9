import Mathlib.Data.List.Perm.Basic
import Mathlib.Data.Int.Order.Basic

namespace LinuxIpc.MsgQueue
set_option autoImplicit true

/-- The first entry that passes a test, and the queue without it. -/
def takeFirst (p : α → Bool) : List α → Option (α × List α)
  | [] => none
  | x :: xs => if p x then some (x, xs) else (takeFirst p xs).map fun (y, ys) => (y, x :: ys)

/-- `msgrcv` on a System V queue: the first entry of the type `t`, of any type for 0, and for a
negative `t` the first one of the lowest type up to its absolute value. -/
def receive (type : α → Int) (t : Int) (q : List α) : Option (α × List α) :=
  if t = 0 then takeFirst (fun _ => true) q
  else if 0 < t then takeFirst (fun x => type x = t) q
  else ((q.map type).filter (· ≤ -t)).min?.bind fun k => takeFirst (fun x => type x = k) q

theorem takeFirst_perm (h : takeFirst p q = some (x, rest)) : q.Perm (x :: rest) := by
  induction q generalizing x rest with
  | nil => cases h
  | cons y q ih =>
    by_cases hy : p y = true
    · rw [takeFirst, if_pos hy] at h
      obtain ⟨rfl, rfl⟩ := Prod.mk.inj (Option.some.inj h)
      exact .refl _
    · rw [takeFirst, if_neg hy] at h
      obtain ⟨⟨z, zs⟩, hz, he⟩ := Option.map_eq_some_iff.1 h
      obtain ⟨rfl, rfl⟩ := Prod.mk.inj he
      exact ((ih hz).cons y).trans (.swap z y zs)

theorem takeFirst_pos (h : takeFirst p q = some (x, rest)) : p x = true := by
  induction q generalizing x rest with
  | nil => cases h
  | cons y q ih =>
    by_cases hy : p y = true
    · rw [takeFirst, if_pos hy] at h
      obtain ⟨rfl, rfl⟩ := Prod.mk.inj (Option.some.inj h)
      exact hy
    · rw [takeFirst, if_neg hy] at h
      obtain ⟨⟨z, zs⟩, hz, he⟩ := Option.map_eq_some_iff.1 h
      obtain ⟨rfl, rfl⟩ := Prod.mk.inj he
      exact ih hz

/-- An entry that passes the test is not overlooked. -/
theorem exists_takeFirst (hx : x ∈ q) (hp : p x = true) :
    ∃ y rest, takeFirst p q = some (y, rest) := by
  induction q with
  | nil => cases hx
  | cons z q ih =>
    by_cases hz : p z = true
    · exact ⟨z, q, by rw [takeFirst, if_pos hz]⟩
    · have hne : x ≠ z := by
        rintro rfl
        exact hz hp
      obtain ⟨y, rest, hy⟩ := ih ((List.mem_cons.1 hx).resolve_left hne)
      exact ⟨y, z :: rest, by rw [takeFirst, if_neg hz, hy, Option.map_some]⟩

theorem exists_receive (ht : 0 < t) (hx : x ∈ q) (h : type x = t) :
    ∃ y rest, receive type t q = some (y, rest) := by
  rw [receive, if_neg (ne_of_gt ht), if_pos ht]
  exact exists_takeFirst hx (decide_eq_true h)

theorem receive_perm (h : receive type t q = some (x, rest)) : q.Perm (x :: rest) := by
  unfold receive at h
  split at h
  · exact takeFirst_perm h
  split at h
  · exact takeFirst_perm h
  · obtain ⟨k, -, hk⟩ := Option.bind_eq_some_iff.1 h
    exact takeFirst_perm hk

/-- The entry taken is the first one that passes the test. -/
theorem takeFirst_split (h : takeFirst p q = some (x, rest)) :
    ∃ front back, q = front ++ x :: back ∧ rest = front ++ back ∧ ∀ y ∈ front, p y = false := by
  induction q generalizing x rest with
  | nil => cases h
  | cons y q ih =>
    by_cases hy : p y = true
    · rw [takeFirst, if_pos hy] at h
      obtain ⟨rfl, rfl⟩ := Prod.mk.inj (Option.some.inj h)
      exact ⟨[], q, rfl, rfl, nofun⟩
    · rw [takeFirst, if_neg hy] at h
      obtain ⟨⟨z, zs⟩, hz, he⟩ := Option.map_eq_some_iff.1 h
      obtain ⟨rfl, rfl⟩ := Prod.mk.inj he
      obtain ⟨front, back, rfl, rfl, hf⟩ := ih hz
      refine ⟨y :: front, back, rfl, rfl, ?_⟩
      intro w hw
      rcases List.mem_cons.1 hw with rfl | hw
      · exact Bool.eq_false_iff.2 hy
      · exact hf w hw

/-- A receiver passes over other types only. -/
theorem receive_split (h : receive type t q = some (x, rest)) :
    ∃ front back, q = front ++ x :: back ∧ rest = front ++ back ∧
      ∀ y ∈ front, type y ≠ type x := by
  unfold receive at h
  split at h
  · obtain ⟨front, back, hq, hrest, hf⟩ := takeFirst_split h
    exact ⟨front, back, hq, hrest, fun y hy => (Bool.noConfusion (hf y hy))⟩
  split at h
  · obtain ⟨front, back, hq, hrest, hf⟩ := takeFirst_split h
    have hx := takeFirst_pos h
    rw [decide_eq_true_eq] at hx
    exact ⟨front, back, hq, hrest, fun y hy => hx ▸ of_decide_eq_false (hf y hy)⟩
  · obtain ⟨k, -, h⟩ := Option.bind_eq_some_iff.1 h
    obtain ⟨front, back, hq, hrest, hf⟩ := takeFirst_split h
    have hx := takeFirst_pos h
    rw [decide_eq_true_eq] at hx
    exact ⟨front, back, hq, hrest, fun y hy => hx ▸ of_decide_eq_false (hf y hy)⟩

/-- What a receiver that asks for `t` can be given. -/
def Selects (t k : Int) : Prop := if t = 0 then True else if 0 < t then k = t else k ≤ -t

instance (t k : Int) : Decidable (Selects t k) := by
  unfold Selects
  infer_instance

theorem Selects.self (h : 0 < t) : Selects t t := by
  rw [Selects, if_neg (ne_of_gt h), if_pos h]

theorem receive_selects (h : receive type t q = some (x, rest)) : Selects t (type x) := by
  unfold receive at h
  unfold Selects
  split at h
  · rw [if_pos ‹_›]
    trivial
  rw [if_neg ‹_›]
  split at h
  · rw [if_pos ‹_›]
    have hx := takeFirst_pos h
    exact of_decide_eq_true hx
  · rw [if_neg ‹_›]
    obtain ⟨k, hk, h⟩ := Option.bind_eq_some_iff.1 h
    have hx := takeFirst_pos h
    obtain ⟨-, hle⟩ := List.mem_filter.1 (List.min?_mem hk)
    rw [of_decide_eq_true hx]
    exact of_decide_eq_true hle

/-- Whoever does not ask for the lowest type is given the first entry of its type. -/
theorem receive_cons (ht : 0 ≤ t) (h : Selects t (type x)) :
    receive type t (x :: q) = some (x, q) := by
  unfold Selects at h
  unfold receive
  split
  · rw [takeFirst, if_pos rfl]
  · rename_i h0
    have hpos : 0 < t := lt_of_le_of_ne ht (Ne.symm h0)
    rw [if_neg h0, if_pos hpos] at h
    rw [if_pos hpos, takeFirst, if_pos (decide_eq_true h)]

/-- A single entry is given to everyone who can be given it. -/
theorem receive_singleton (h : Selects t (type x)) : receive type t [x] = some (x, []) := by
  by_cases ht : 0 ≤ t
  · exact receive_cons ht h
  · have h0 : t ≠ 0 := fun h0 => ht (le_of_eq h0.symm)
    have hpos : ¬ 0 < t := fun hpos => ht (le_of_lt hpos)
    rw [Selects, if_neg h0, if_neg hpos] at h
    have hf : ([x].map type).filter (· ≤ -t) = [type x] :=
      List.filter_eq_self.2 fun k hk => decide_eq_true (List.mem_singleton.1 hk ▸ h)
    rw [receive, if_neg h0, if_neg hpos, hf]
    change takeFirst (fun y => type y = type x) [x] = _
    rw [takeFirst, if_pos (decide_eq_true rfl)]

end LinuxIpc.MsgQueue
