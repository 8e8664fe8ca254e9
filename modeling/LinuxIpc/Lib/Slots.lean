import Mathlib.Logic.Function.Basic
import Mathlib.Data.List.Nodup
import Mathlib.Data.List.Perm.Subperm

namespace LinuxIpc.Slots
set_option autoImplicit true

open Function (update)

/-- `x` stands at slot `i` or a later one of the first `n`. -/
def From (a : Nat → α) (n : Nat) (x : α) (i : Nat) : Prop := ∃ p, i ≤ p ∧ p < n ∧ a p = x

def Distinct (a : Nat → α) (n : Nat) : Prop := ∀ p q, p < n → q < n → a p = a q → p = q

/-- The first half of a removal that does not keep the order: the last entry replaces the one at
slot `i`. -/
def moveLast (a : Nat → α) (n i : Nat) : Nat → α := update a i (a (n - 1))

theorem From.of_lt (h : p < n) : From a n (a p) 0 := ⟨p, Nat.zero_le _, h, rfl⟩

theorem From.mono (h : From a n x i) (hj : j ≤ i) (hn : n ≤ m) : From a m x j := by
  obtain ⟨p, hp, hlt, he⟩ := h
  exact ⟨p, Nat.le_trans hj hp, Nat.lt_of_lt_of_le hlt hn, he⟩

theorem from_congr (h : ∀ p < n, a p = b p) : From a n x i ↔ From b n x i := by
  constructor
  · rintro ⟨p, hp, hlt, he⟩
    exact ⟨p, hp, hlt, (h p hlt).symm.trans he⟩
  · rintro ⟨p, hp, hlt, he⟩
    exact ⟨p, hp, hlt, (h p hlt).trans he⟩

theorem from_succ : From a (n + 1) x 0 ↔ From a n x 0 ∨ a n = x := by
  constructor
  · rintro ⟨p, hp, hlt, he⟩
    rcases Nat.lt_succ_iff_lt_or_eq.1 hlt with hlt | rfl
    · exact .inl ⟨p, hp, hlt, he⟩
    · exact .inr he
  · rintro (h | h)
    · exact h.mono (Nat.le_refl _) (Nat.le_succ _)
    · exact ⟨n, Nat.zero_le _, Nat.lt_succ_self _, h⟩

/-- A scan that does not find `x` at slot `i` goes on behind it. -/
theorem From.skip (h : From a n x i) (hne : a i ≠ x) : From a n x (i + 1) := by
  obtain ⟨p, hp, hlt, he⟩ := h
  have hpi : p ≠ i := fun h => hne (h ▸ he)
  exact ⟨p, by omega, hlt, he⟩

theorem Distinct.congr (h : Distinct a n) (he : ∀ p < n, a p = b p) : Distinct b n := by
  intro p q hp hq hpq
  rw [← he p hp, ← he q hq] at hpq
  exact h p q hp hq hpq

theorem Distinct.succ (h : Distinct a n) (hx : ¬ From a n (a n) 0) : Distinct a (n + 1) := by
  intro p q hp hq he
  rcases Nat.lt_succ_iff_lt_or_eq.1 hp with hp | rfl
  · rcases Nat.lt_succ_iff_lt_or_eq.1 hq with hq | rfl
    · exact h p q hp hq he
    · exact (hx ⟨p, Nat.zero_le _, hp, he⟩).elim
  · rcases Nat.lt_succ_iff_lt_or_eq.1 hq with hq | rfl
    · exact (hx ⟨q, Nat.zero_le _, hq, he.symm⟩).elim
    · rfl

theorem Distinct.nodup (h : Distinct a n) : ((List.range n).map a).Nodup := by
  apply List.Nodup.map_on ?_ List.nodup_range
  intro p hp q hq he
  exact h p q (List.mem_range.1 hp) (List.mem_range.1 hq) he

theorem mem_map_range : x ∈ (List.range n).map a ↔ From a n x 0 := by
  constructor
  · intro h
    obtain ⟨p, hp, rfl⟩ := List.mem_map.1 h
    exact .of_lt (List.mem_range.1 hp)
  · rintro ⟨p, -, hp, rfl⟩
    exact List.mem_map.2 ⟨p, List.mem_range.2 hp, rfl⟩

/-- Distinct entries that are all in a list are no more than its members. -/
theorem Distinct.le_length {l : List α} (h : Distinct a n) (hs : ∀ p < n, a p ∈ l) :
    n ≤ l.length := by
  have hsub : (List.range n).map a ⊆ l := by
    intro x hx
    obtain ⟨p, hp, rfl⟩ := List.mem_map.1 hx
    exact hs p (List.mem_range.1 hp)
  have hle := (List.subperm_of_subset h.nodup hsub).length_le
  rwa [List.length_map, List.length_range] at hle

theorem moveLast_self : moveLast a n i i = a (n - 1) := Function.update_self ..

theorem moveLast_of_ne (h : p ≠ i) : moveLast a n i p = a p := Function.update_of_ne h ..

/-- An entry other than the one at slot `i` keeps its slot when the last entry is moved there, or
is the last entry and moves to slot `i`. -/
theorem From.moveLast (h : From a n x j) (hne : x ≠ a i) (hi : i < n)
    (hlast : x = a (n - 1) → j ≤ i) : From (Slots.moveLast a n i) (n - 1) x j := by
  obtain ⟨p, hp, hlt, rfl⟩ := h
  have hpi : p ≠ i := fun h => hne (h ▸ rfl)
  by_cases hpn : p = n - 1
  · subst hpn
    exact ⟨i, hlast rfl, by omega, moveLast_self⟩
  · exact ⟨p, hp, by omega, moveLast_of_ne hpi⟩

theorem Distinct.from_moveLast (h : Distinct a n) (hi : i < n) :
    From (Slots.moveLast a n i) (n - 1) x 0 ↔ From a n x 0 ∧ x ≠ a i := by
  constructor
  · rintro ⟨p, hp, hlt, rfl⟩
    by_cases hpi : p = i
    · subst hpi
      rw [moveLast_self]
      constructor
      · exact .of_lt (by omega)
      · intro he
        have := h _ _ (by omega) (by omega) he
        omega
    · rw [moveLast_of_ne hpi]
      constructor
      · exact .of_lt (by omega)
      · intro he
        exact hpi (h _ _ (by omega) hi he)
  · rintro ⟨hx, hne⟩
    exact hx.moveLast hne hi fun _ => Nat.zero_le _

theorem Distinct.moveLast (h : Distinct a n) (hi : i < n) :
    Distinct (Slots.moveLast a n i) (n - 1) := by
  intro p q hp hq he
  by_cases hpi : p = i
  · by_cases hqi : q = i
    · rw [hpi, hqi]
    · rw [hpi, moveLast_self, moveLast_of_ne hqi] at he
      have := h _ _ (by omega) (by omega) he
      omega
  · by_cases hqi : q = i
    · rw [hqi, moveLast_self, moveLast_of_ne hpi] at he
      have := h _ _ (by omega) (by omega) he
      omega
    · rw [moveLast_of_ne hpi, moveLast_of_ne hqi] at he
      exact h p q (by omega) (by omega) he

/-- The removal takes the entry at slot `i` and keeps every other one. -/
theorem perm_moveLast (hi : i < n) : ((List.range n).map a).Perm
    (a i :: (List.range (n - 1)).map (Slots.moveLast a n i)) := by
  obtain ⟨m, rfl⟩ : ∃ m, n = m + 1 := ⟨n - 1, by omega⟩
  rw [Nat.add_sub_cancel, List.range_succ, List.map_append, List.map_singleton]
  rcases Nat.lt_succ_iff_lt_or_eq.1 hi with hi | rfl
  · obtain ⟨front, back, hs⟩ := List.append_of_mem (List.mem_range.2 hi)
    have hn : (front ++ i :: back).Nodup := hs ▸ List.nodup_range
    have hni := (List.nodup_middle.1 hn).notMem
    have hrest : ∀ l, l ⊆ front ++ back → l.map (Slots.moveLast a (m + 1) i) = l.map a := by
      intro l hl
      apply List.map_congr_left
      intro j hj
      exact moveLast_of_ne fun h => hni (hl (h ▸ hj))
    rw [hs, List.map_append, List.map_cons, List.map_append, List.map_cons, moveLast_self,
      hrest front (List.subset_append_left ..), hrest back (List.subset_append_right ..),
      List.append_assoc]
    refine (List.perm_middle).trans (.cons _ ?_)
    refine .append_left _ ?_
    exact List.perm_append_singleton ..
  · have hall : (List.range i).map (Slots.moveLast a (i + 1) i) = (List.range i).map a := by
      apply List.map_congr_left
      intro j hj
      exact moveLast_of_ne (Nat.ne_of_lt (List.mem_range.1 hj))
    rw [hall]
    exact List.perm_append_singleton ..

end LinuxIpc.Slots
