import LinuxIpc.Lib.Race

namespace LinuxIpc.Pth1
set_option autoImplicit true

/-- The threads that run `my_print`, by what they are given. -/
inductive Thread
  | hash
  | star
  deriving DecidableEq

instance : Fintype Thread where
  elems := {.hash, .star}
  complete t := by cases t <;> decide

instance : Nonempty Thread := ⟨.hash⟩

/-- `(char)arg`. -/
def Thread.arg : Thread → Char
  | .hash => '#'
  | .star => '*'

/-- Rounds of the `for` loop of `my_print`. -/
def rounds : Nat := 10

abbrev St := Race.St Thread

/-- A round is the load and the store of `counter++`, `counter` being static, and then the
`printf`. -/
def myPrint : St → Thread → Option St := Race.step rounds

def sys : Sys St Thread := ⟨(· = Race.start), myPrint⟩

/-- What `printf("%c%d ",(char)arg,counter++)` has been given. -/
def St.printed (s : St) : List (Char × Nat) := s.told.map fun (t, v) => (t.arg, v)

/-- Both threads have returned. -/
def Ended (s : St) : Prop := Race.Ended rounds s

theorem printed_snd (s : St) : (St.printed s).map Prod.snd = s.told.map Prod.snd := by
  rw [St.printed, List.map_map]
  rfl

/-- `counter` may have lost any number of increments but two. -/
theorem counter_iff :
    (∃ s, sys.Reachable s ∧ Ended s ∧ s.counter = v) ↔ 2 ≤ v ∧ v ≤ 20 := by
  constructor
  · rintro ⟨s, hr, he, rfl⟩
    have h := Race.inv_of_reachable (n := rounds) hr
    exact ⟨h.two_le he (by decide), h.counter_le_total⟩
  · rintro ⟨h2, hv⟩
    have hall : ∀ t : Thread, t = .hash ∨ t = .star := by
      intro t
      cases t
      · exact .inl rfl
      · exact .inr rfl
    exact Race.reach_ended (a := .hash) (by decide) hall (by decide) h2 hv

/-- Every schedule ends, with twenty numbers printed that are below 20; they are the numbers from
0 to 19, each once, exactly where no increment has been lost. -/
theorem inevitable_printed : sys.Inevitable (fun s => Ended s ∧ (St.printed s).length = 20 ∧
    (∀ p ∈ St.printed s, p.2 < 20) ∧
      (((St.printed s).map Prod.snd).Perm (List.range 20) ↔ s.counter = 20)) Race.start := by
  apply Race.inevitable_ended.imp
  rintro s ⟨he, h⟩
  have hlt : ∀ v ∈ (St.printed s).map Prod.snd, v < 20 := by
    rw [printed_snd]
    exact fun v => h.told_lt he
  have hlen : (St.printed s).length = 20 := by
    have hperm := (h.told_perm he).length_eq
    rw [h.length_stored he, List.length_map] at hperm
    rw [St.printed, List.length_map]
    exact hperm.symm
  refine ⟨he, hlen, fun p hp => hlt _ (List.mem_map_of_mem hp), ?_⟩
  have hcount : s.counter = 20 ↔ ((St.printed s).map Prod.snd).Nodup := by
    rw [printed_snd]
    exact (h.nodup_iff he (by decide)).symm
  rw [hcount]
  constructor
  · intro hp
    exact hp.nodup_iff.2 List.nodup_range
  · intro hd
    apply (List.subperm_of_subset hd fun v hv => List.mem_range.2 (hlt v hv)).perm_of_length_le
    rw [List.length_range, List.length_map, hlen]

end LinuxIpc.Pth1
