import LinuxIpc.Lib.Critical
import LinuxIpc.Lib.Family
import LinuxIpc.Lib.Simulation
import Mathlib.Algebra.Group.Nat.Defs

namespace LinuxIpc.PthMutex
set_option autoImplicit true

open Function (update update_self update_of_ne)

/-- The threads that run `pthread1` and `pthread2`. -/
inductive Thread
  | th1
  | th2
  deriving DecidableEq

instance : Fintype Thread where
  elems := {.th1, .th2}
  complete t := by cases t <;> decide

/-- `g_var++` in the one, `g_var--` in the other. -/
def Thread.change : Thread → Int
  | .th1 => 1
  | .th2 => -1

/-- Where a thread stands; the change of `g_var` is a load and a store. -/
inductive Pc
  | enter
  | lock
  | loop (i : Nat)
  | store (i : Nat) (v : Int)
  | print (i : Nat)
  | ended
  deriving DecidableEq

/-- What the two print. -/
inductive Line
  | enter (t : Thread)
  | value (t : Thread) (v : Int)
  deriving DecidableEq

def Line.value? : Line → Option (Thread × Int)
  | .enter _ => none
  | .value t v => some (t, v)

structure St where
  gVar : Int
  mylock : Option Thread
  pc : Thread → Pc
  out : List Line

def start : St := ⟨0, none, fun _ => .enter, []⟩

def step (s : St) (t : Thread) : Option St :=
  match s.pc t with
  | .enter => some { s with out := s.out ++ [.enter t], pc := update s.pc t .lock }
  | .lock =>
    if s.mylock = none then
      some { s with mylock := some t, pc := update s.pc t (.loop 0) }
    else none
  | .loop i =>
    if i < 10 then some { s with pc := update s.pc t (.store i s.gVar) }
    else some { s with mylock := none, pc := update s.pc t .ended }
  | .store i v => some { s with gVar := v + t.change, pc := update s.pc t (.print i) }
  | .print i => some { s with
      out := s.out ++ [.value t s.gVar]
      pc := update s.pc t (.loop (i + 1)) }
  | .ended => none

def sys : Sys St Thread := ⟨(· = start), step⟩

/-- The values that have been printed, with the thread that did. -/
def St.printed (s : St) : List (Thread × Int) := s.out.filterMap Line.value?

theorem step_cases {s s' : St} (h : step s t = some s') :
    (s.pc t = .enter ∧ s' = { s with out := s.out ++ [.enter t], pc := update s.pc t .lock }) ∨
    (s.pc t = .lock ∧ s.mylock = none ∧
      s' = { s with mylock := some t, pc := update s.pc t (.loop 0) }) ∨
    (∃ i, s.pc t = .loop i ∧ i < 10 ∧ s' = { s with pc := update s.pc t (.store i s.gVar) }) ∨
    (∃ i, s.pc t = .loop i ∧ 10 ≤ i ∧ s' = { s with mylock := none, pc := update s.pc t .ended }) ∨
    (∃ i v, s.pc t = .store i v ∧
      s' = { s with gVar := v + t.change, pc := update s.pc t (.print i) }) ∨
    ∃ i, s.pc t = .print i ∧
      s' = { s with out := s.out ++ [.value t s.gVar], pc := update s.pc t (.loop (i + 1)) } := by
  unfold step at h
  split at h
  · rename_i ht
    exact .inl ⟨ht, (Option.some.inj h).symm⟩
  · rename_i ht
    obtain ⟨ho, rfl⟩ := of_guard h
    exact .inr (.inl ⟨ht, ho, rfl⟩)
  · rename_i i ht
    split at h
    · rename_i hi
      exact .inr (.inr (.inl ⟨i, ht, hi, (Option.some.inj h).symm⟩))
    · rename_i hi
      exact .inr (.inr (.inr (.inl ⟨i, ht, Nat.le_of_not_lt hi, (Option.some.inj h).symm⟩)))
  · rename_i i v ht
    exact .inr (.inr (.inr (.inr (.inl ⟨i, v, ht, (Option.some.inj h).symm⟩))))
  · rename_i i ht
    exact .inr (.inr (.inr (.inr (.inr ⟨i, ht, (Option.some.inj h).symm⟩))))
  · cases h

section Sections

/-- `g_var` and the values printed, which is what the threads share under the lock. -/
abbrev Shared := Int × List (Thread × Int)

def change (t : Thread) (x : Shared) : Shared := (x.1 + t.change, x.2)

def tell (t : Thread) (x : Shared) : Shared := (x.1, x.2 ++ [(t, x.1)])

def rounds (t : Thread) : Nat → List (Shared → Shared)
  | 0 => []
  | n + 1 => change t :: tell t :: rounds t n

def body (t : Thread) : List (Shared → Shared) := rounds t 10

theorem rounds_sub (t : Thread) (h : i < 10) :
    rounds t (10 - i) = change t :: tell t :: rounds t (10 - (i + 1)) := by
  rw [show 10 - i = 10 - (i + 1) + 1 by omega, rounds]

theorem mem_rounds (h : f ∈ rounds t n) : f = change t ∨ f = tell t := by
  induction n with
  | zero => cases h
  | succ n ih =>
    rcases List.mem_cons.1 h with rfl | h
    · exact .inl rfl
    · rcases List.mem_cons.1 h with rfl | h
      · exact .inr rfl
      · exact ih h

/-- Where a thread stands in its section. -/
def Pc.place (t : Thread) : Pc → Critical.Pc Shared
  | .enter | .lock => .outside
  | .loop i | .store i _ => .inside (rounds t (10 - i))
  | .print i => .inside (tell t :: rounds t (10 - (i + 1)))
  | .ended => .through

/-- What is known of a thread: it has the lock from its `lock` on to its `unlock`, and what it has
loaded is still there. -/
def Pc.Ok (mylock : Option Thread) (gVar : Int) (t : Thread) : Pc → Prop
  | .enter | .lock | .ended => mylock ≠ some t
  | .loop i => i ≤ 10 ∧ mylock = some t
  | .store i v => i < 10 ∧ v = gVar ∧ mylock = some t
  | .print i => i < 10 ∧ mylock = some t

/-- A thread without the lock notices nothing of the other one. -/
theorem Pc.Ok.away {pc : Pc} (h : pc.Ok o g t) (ho : o ≠ some t) (ho' : o' ≠ some t) :
    pc.Ok o' g' t := by
  cases pc with
  | enter => exact ho'
  | lock => exact ho'
  | ended => exact ho'
  | loop i => exact (ho h.2).elim
  | store i v => exact (ho h.2.2).elim
  | print i => exact (ho h.2).elim

structure Folds (s : St) (c : Critical.St Thread Shared) : Prop where
  shared : c.shared = (s.gVar, s.printed)
  owner : c.owner = s.mylock
  stands : ∀ t, c.pc t = (s.pc t).place t
  ok : ∀ t, (s.pc t).Ok s.mylock s.gVar t

theorem ok_update {f : Thread → Pc} (ht : pc.Ok o g t) (h : ∀ u, u ≠ t → (f u).Ok o g u)
    (u : Thread) : (update f t pc u).Ok o g u := by
  by_cases hut : u = t
  · subst hut
    rwa [update_self]
  · rw [update_of_ne hut]
    exact h u hut

theorem some_ne {t u : Thread} (h : u ≠ t) : some t ≠ some u :=
  fun he => h (Option.some.inj he).symm

namespace Folds

variable {s : St} {c : Critical.St Thread Shared}

theorem place (hf : Folds s c) (hp : p = pc.place t) (u : Thread) :
    update c.pc t p u = (update s.pc t pc u).place u := by
  by_cases hut : u = t
  · subst hut
    rwa [update_self, update_self]
  · rw [update_of_ne hut, update_of_ne hut]
    exact hf.stands u

/-- A move in the course of which the section stays where it is. -/
theorem still (hf : Folds s c) (hp : (s.pc t).place t = pc.place t) (u : Thread) :
    c.pc u = (update s.pc t pc u).place u := by
  by_cases hut : u = t
  · subst hut
    rw [update_self, ← hp]
    exact hf.stands u
  · rw [update_of_ne hut]
    exact hf.stands u

/-- Others do not have the lock that `t` has. -/
theorem others (hf : Folds s c) (ho : s.mylock = some t) (ho' : o' = none ∨ o' = some t)
    (u : Thread) (hut : u ≠ t) : (s.pc u).Ok o' g' u := by
  have hne : o' ≠ some u := by
    rcases ho' with rfl | rfl
    · nofun
    · exact some_ne hut
  exact (hf.ok u).away (ho ▸ some_ne hut) hne

theorem enter (hf : Folds s c) (ht : s.pc t = .enter) :
    Folds { s with out := s.out ++ [.enter t], pc := update s.pc t .lock } c where
  shared := by
    have hp : St.printed { s with out := s.out ++ [.enter t], pc := update s.pc t .lock }
        = s.printed := by
      rw [St.printed, List.filterMap_append]
      exact List.append_nil _
    rw [hp]
    exact hf.shared
  owner := hf.owner
  stands := hf.still (by rw [ht]; rfl)
  ok := by
    have hok := hf.ok t
    rw [ht] at hok
    exact ok_update hok fun u _ => hf.ok u

theorem lock (hf : Folds s c) (ht : s.pc t = .lock) (ho : s.mylock = none) :
    ∃ c', Critical.step body c t = some c' ∧
      Folds { s with mylock := some t, pc := update s.pc t (.loop 0) } c' := by
  have hc : c.pc t = .outside := by
    rw [hf.stands t, ht]
    rfl
  have hs : Critical.step body c t =
      some { c with owner := some t, pc := update c.pc t (.inside (body t)) } := by
    simp only [Critical.step, hc, hf.owner, ho, if_true]
  refine ⟨_, hs, hf.shared, rfl, hf.place rfl, ok_update ⟨Nat.zero_le _, rfl⟩ fun u hut => ?_⟩
  exact (hf.ok u).away (ho ▸ nofun) (some_ne hut)

theorem load (hf : Folds s c) (ht : s.pc t = .loop i) (hi : i < 10) :
    Folds { s with pc := update s.pc t (.store i s.gVar) } c where
  shared := hf.shared
  owner := hf.owner
  stands := hf.still (by rw [ht]; rfl)
  ok := by
    have hok := hf.ok t
    rw [ht] at hok
    exact ok_update ⟨hi, rfl, hok.2⟩ fun u _ => hf.ok u

theorem unlock (hf : Folds s c) (ht : s.pc t = .loop i) (hi : 10 ≤ i) :
    ∃ c', Critical.step body c t = some c' ∧
      Folds { s with mylock := none, pc := update s.pc t .ended } c' := by
  have hok := hf.ok t
  rw [ht] at hok
  have hc : c.pc t = .inside [] := by
    rw [hf.stands t, ht, Nat.le_antisymm hok.1 hi]
    rfl
  have hs : Critical.step body c t =
      some { c with owner := none, pc := update c.pc t .through } := by
    simp only [Critical.step, hc]
  exact ⟨_, hs, hf.shared, rfl, hf.place rfl, ok_update nofun (hf.others hok.2 (.inl rfl))⟩

theorem store (hf : Folds s c) (ht : s.pc t = .store i v) :
    ∃ c', Critical.step body c t = some c' ∧
      Folds { s with gVar := v + t.change, pc := update s.pc t (.print i) } c' := by
  have hok := hf.ok t
  rw [ht] at hok
  obtain ⟨hi, rfl, ho⟩ := hok
  have hc : c.pc t = .inside (change t :: tell t :: rounds t (10 - (i + 1))) := by
    rw [hf.stands t, ht, ← rounds_sub t hi]
    rfl
  have hs : Critical.step body c t = some { c with
      shared := change t c.shared
      pc := update c.pc t (.inside (tell t :: rounds t (10 - (i + 1)))) } := by
    simp only [Critical.step, hc]
  refine ⟨_, hs, ?_, hf.owner, hf.place rfl, ok_update ⟨hi, ho⟩ (hf.others ho (.inr ho))⟩
  rw [hf.shared]
  rfl

theorem print (hf : Folds s c) (ht : s.pc t = .print i) :
    ∃ c', Critical.step body c t = some c' ∧
      Folds { s with
        out := s.out ++ [.value t s.gVar], pc := update s.pc t (.loop (i + 1)) } c' := by
  have hok := hf.ok t
  rw [ht] at hok
  obtain ⟨hi, ho⟩ := hok
  have hc : c.pc t = .inside (tell t :: rounds t (10 - (i + 1))) := by
    rw [hf.stands t, ht]
    rfl
  have hs : Critical.step body c t = some { c with
      shared := tell t c.shared
      pc := update c.pc t (.inside (rounds t (10 - (i + 1)))) } := by
    simp only [Critical.step, hc]
  refine ⟨_, hs, ?_, hf.owner, hf.place rfl, ok_update ⟨hi, ho⟩ fun u _ => hf.ok u⟩
  rw [hf.shared]
  simp only [tell, St.printed, List.filterMap_append]
  rfl

end Folds

/-- The statements of `pthread1` and `pthread2` between `lock` and `unlock` are a section. -/
theorem simulates :
    sys.Simulates (fun _ _ => True) (Critical.sys body ((0, []) : Shared)) Folds where
  init := by
    rintro _ rfl
    exact ⟨_, rfl, rfl, rfl, fun _ => rfl, fun _ => nofun⟩
  step := by
    intro s t s' c hf _ hs
    rcases step_cases hs with ⟨ht, rfl⟩ | ⟨ht, ho, rfl⟩ | ⟨i, ht, hi, rfl⟩ | ⟨i, ht, hi, rfl⟩ |
      ⟨i, v, ht, rfl⟩ | ⟨i, ht, rfl⟩
    · exact .inl (hf.enter ht)
    · exact .inr ⟨t, hf.lock ht ho⟩
    · exact .inl (hf.load ht hi)
    · exact .inr ⟨t, hf.unlock ht hi⟩
    · exact .inr ⟨t, hf.store ht⟩
    · exact .inr ⟨t, hf.print ht⟩

end Sections

/-- The values when `th1` comes first: up to 10 and back. -/
def upDown : List (Thread × Int) :=
  (List.range 10).map (fun i => (.th1, (i : Int) + 1)) ++
    (List.range 10).map fun i => (.th2, 9 - (i : Int))

/-- The values when `th2` comes first: down to -10 and back. -/
def downUp : List (Thread × Int) :=
  (List.range 10).map (fun i => (.th2, -(i : Int) - 1)) ++
    (List.range 10).map fun i => (.th1, (i : Int) - 9)

/-- What some sections come to in a row. -/
def serial (ts : List Thread) : Shared := Critical.effect (ts.map body).flatten (0, [])

theorem serial_up : serial [.th1, .th2] = (0, upDown) := by decide

theorem serial_down : serial [.th2, .th1] = (0, downUp) := by decide

theorem orders {ts : List Thread} (h : ts.Nodup) :
    ts = [] ∨ ts = [.th1] ∨ ts = [.th2] ∨ ts = [.th1, .th2] ∨ ts = [.th2, .th1] := by
  have hlen : ts.length ≤ 2 := h.length_le_card
  rcases ts with _ | ⟨a, _ | ⟨b, _ | ⟨d, ts⟩⟩⟩
  · exact .inl rfl
  · cases a
    · exact .inr (.inl rfl)
    · exact .inr (.inr (.inl rfl))
  · have hab : a ≠ b := by
      rintro rfl
      simp only [List.nodup_cons, List.mem_singleton, not_true_eq_false, false_and] at h
    cases a <;> cases b
    · exact (hab rfl).elim
    · exact .inr (.inr (.inr (.inl rfl)))
    · exact .inr (.inr (.inr (.inr rfl)))
    · exact (hab rfl).elim
  · simp only [List.length_cons] at hlen
    omega

/-- The values that sections in a row print begin one of the two sequences. -/
theorem serial_begins {ts : List Thread} (h : ts.Nodup) :
    (serial ts).2 <+: upDown ∨ (serial ts).2 <+: downUp := by
  rcases orders h with rfl | rfl | rfl | rfl | rfl
  · exact .inl (List.nil_prefix)
  · exact .inl (by decide)
  · exact .inr (by decide)
  · exact .inl (by decide)
  · exact .inr (by decide)

/-- Both threads have returned. -/
def Ended (s : St) : Prop := ∀ t, s.pc t = .ended

section Runs
variable {s : St}

/-- Whatever has been printed is the beginning of what the sections print in some order. -/
theorem printed_begins (h : sys.Reachable s) : s.printed <+: upDown ∨ s.printed <+: downUp := by
  obtain ⟨c, hc, hf⟩ := simulates.reachable h
  obtain ⟨ts, rest, hd, -, hrest, -, he⟩ := Critical.exists_order hc
  have hle : s.printed <+: (serial ts).2 := by
    rw [serial, ← he, hf.shared]
    refine Critical.effect_rel (R := fun x y : Shared => x.2 <+: y.2) (fun _ => List.prefix_rfl)
      (fun h h' => h.trans h') (fun f hmem y => ?_) (s.gVar, s.printed)
    obtain ⟨t, ht⟩ := hrest f hmem
    rcases mem_rounds ht with rfl | rfl
    · exact List.prefix_rfl
    · exact List.prefix_append ..
  exact (serial_begins hd).imp hle.trans hle.trans

theorem printed_ended (h : sys.Reachable s) (hs : Ended s) :
    s.gVar = 0 ∧ (s.printed = upDown ∨ s.printed = downUp) := by
  obtain ⟨c, hc, hf⟩ := simulates.reachable h
  obtain ⟨ts, rest, hd, hts, -, hfree, he⟩ := Critical.exists_order hc
  have hall (t : Thread) : t ∈ ts := by
    rw [hts t, hf.stands t, hs t]
    nofun
  have ho : c.owner = none := by
    rw [hf.owner]
    cases ho : s.mylock with
    | none => rfl
    | some t =>
      have hok := hf.ok t
      rw [hs t] at hok
      exact (hok ho).elim
  have hserial : (s.gVar, s.printed) = serial ts := by
    rw [serial, ← he, hfree ho, hf.shared]
    rfl
  rcases orders hd with rfl | rfl | rfl | rfl | rfl
  · cases hall .th1
  · exact absurd (hall .th2) (by decide)
  · exact absurd (hall .th1) (by decide)
  · rw [serial_up] at hserial
    exact ⟨congrArg Prod.fst hserial, .inl (congrArg Prod.snd hserial)⟩
  · rw [serial_down] at hserial
    exact ⟨congrArg Prod.fst hserial, .inr (congrArg Prod.snd hserial)⟩

/-- A thread that has not returned can go on, unless it waits for the lock and the other one has
it, which then can. -/
theorem exists_step (h : sys.Reachable s) (hs : ¬ Ended s) : ∃ t s', step s t = some s' := by
  obtain ⟨c, -, hf⟩ := simulates.reachable h
  obtain ⟨t, ht⟩ := not_forall.1 hs
  cases ho : s.mylock with
  | none =>
    refine ⟨t, ?_⟩
    unfold step
    split
    · exact ⟨_, rfl⟩
    · exact ⟨_, if_pos ho⟩
    · split
      · exact ⟨_, rfl⟩
      · exact ⟨_, rfl⟩
    · exact ⟨_, rfl⟩
    · exact ⟨_, rfl⟩
    · rename_i he
      exact (ht he).elim
  | some u =>
    have hok := hf.ok u
    refine ⟨u, ?_⟩
    unfold step
    split
    · exact ⟨_, rfl⟩
    · rename_i hu
      rw [hu] at hok
      exact (hok ho).elim
    · split
      · exact ⟨_, rfl⟩
      · exact ⟨_, rfl⟩
    · exact ⟨_, rfl⟩
    · exact ⟨_, rfl⟩
    · rename_i hu
      rw [hu] at hok
      exact (hok ho).elim

/-- The steps a thread has left, at most. -/
def Pc.rank : Pc → Nat
  | .enter => 33
  | .lock => 32
  | .loop i => 3 * (10 - i) + 1
  | .store i _ => 3 * (10 - i)
  | .print i => 3 * (10 - i) - 1
  | .ended => 0

theorem rank_update (h : pc.rank < (s.pc t).rank) :
    total Pc.rank (update s.pc t pc) < total Pc.rank s.pc := by
  have hr := total_update Pc.rank s.pc t pc
  omega

theorem rank_step {s' : St} (h : sys.Reachable s) (hs : step s t = some s') :
    total Pc.rank s'.pc < total Pc.rank s.pc := by
  obtain ⟨c, -, hf⟩ := simulates.reachable h
  have hok := hf.ok t
  rcases step_cases hs with ⟨ht, rfl⟩ | ⟨ht, ho, rfl⟩ | ⟨i, ht, hi, rfl⟩ | ⟨i, ht, hi, rfl⟩ |
    ⟨i, v, ht, rfl⟩ | ⟨i, ht, rfl⟩
  all_goals
    rw [ht] at hok
    apply rank_update
    rw [ht]
    simp only [Pc.rank]
  · omega
  · omega
  · omega
  · omega
  · have hi := hok.1
    omega
  · have hi := hok.1
    omega

/-- At any time one of two sequences is being printed, and every schedule brings both threads to
their ends, with all of it printed and `g_var` back at 0. -/
theorem serializable (h : sys.Reachable s) :
    (s.printed <+: upDown ∨ s.printed <+: downUp) ∧
      sys.Inevitable (fun s' => Ended s' ∧ s'.gVar = 0 ∧
        (s'.printed = upDown ∨ s'.printed = downUp)) s := by
  refine ⟨printed_begins h, ?_⟩
  refine Sys.Inevitable.of_wellFounded (I := sys.Reachable)
    (InvImage.wf (fun s => total Pc.rank s.pc) Nat.lt_wfRel.wf) ?_ ?_ s h
  · intro s h hg
    exact exists_step h fun he => hg ⟨he, printed_ended h he⟩
  · intro s t s' h _ hs
    exact ⟨.step h trivial hs, rank_step h hs⟩

/-- Both have printed that they enter, and `th2` has the lock. -/
theorem serializable_second : ∃ s, sys.run [.th1, .th2, .th2, .th2, .th2, .th2] start = some s ∧
    s.printed = [(.th2, -1)] ∧ sys.Inevitable (fun s' => Ended s' ∧ s'.gVar = 0 ∧
      (s'.printed = upDown ∨ s'.printed = downUp)) s := by
  have hr : sys.run [.th1, .th2, .th2, .th2, .th2, .th2] start = some _ := rfl
  exact ⟨_, hr, by decide, (serializable (.of_run rfl hr)).2⟩

end Runs

end LinuxIpc.PthMutex
