import LinuxIpc.Lib.Simulation
import Mathlib.Data.List.Nodup
import Mathlib.Logic.Function.Basic

namespace LinuxIpc.Critical
set_option autoImplicit true
set_option linter.unusedSectionVars false

open Function (update update_self update_of_ne)

/-- Where a thread stands that runs statements on what it shares with others under a lock. -/
inductive Pc (σ : Type v)
  | outside
  | inside (rest : List (σ → σ))
  | through

structure St (τ : Type u) (σ : Type v) where
  shared : σ
  owner : Option τ
  pc : τ → Pc σ

variable {τ : Type u} {σ : Type v} [DecidableEq τ]

def step (body : τ → List (σ → σ)) (s : St τ σ) (t : τ) : Option (St τ σ) :=
  match s.pc t with
  | .outside =>
    if s.owner = none then
      some { s with owner := some t, pc := update s.pc t (.inside (body t)) }
    else none
  | .inside (f :: rest) =>
    some { s with shared := f s.shared, pc := update s.pc t (.inside rest) }
  | .inside [] => some { s with owner := none, pc := update s.pc t .through }
  | .through => none

def sys (body : τ → List (σ → σ)) (x : σ) : Sys (St τ σ) τ :=
  ⟨(· = ⟨x, none, fun _ => .outside⟩), step body⟩

/-- What statements do one after the other. -/
def effect (fs : List (σ → σ)) (x : σ) : σ := fs.foldl (fun x f => f x) x

theorem effect_append (fs gs : List (σ → σ)) (x : σ) :
    effect (fs ++ gs) x = effect gs (effect fs x) := List.foldl_append

/-- The sections as single steps; the threads that have had theirs are listed in order. -/
def serial (body : τ → List (σ → σ)) (x : σ) : Sys (σ × List τ) τ where
  init s := s = (x, [])
  step s t := if t ∉ s.2 then some (effect (body t) s.1, s.2 ++ [t]) else none

/-- A thread inside is the owner, and on the way to what its section comes to. -/
structure Matches (body : τ → List (σ → σ)) (s : St τ σ) (x : σ × List τ) : Prop where
  through : ∀ t, s.pc t = .through ↔ t ∈ x.2
  inside : ∀ t fs, s.pc t = .inside fs →
    s.owner = some t ∧ fs <:+ body t ∧ effect fs s.shared = effect (body t) x.1
  owner : ∀ t, s.owner = some t → ∃ fs, s.pc t = .inside fs
  free : s.owner = none → s.shared = x.1

namespace Matches

variable {body : τ → List (σ → σ)} {s : St τ σ} {x : σ × List τ}

/-- A move by which a thread does not get through. -/
theorem keep (hm : Matches body s x) (ht : s.pc t ≠ .through) (hp : p ≠ .through) (u : τ) :
    update s.pc t p u = .through ↔ u ∈ x.2 := by
  by_cases hut : u = t
  · subst hut
    rw [update_self, ← hm.through u]
    exact iff_of_false hp ht
  · rw [update_of_ne hut]
    exact hm.through u

/-- The owner is the only one inside. -/
theorem only (hm : Matches body s x) (ho : s.owner = some t) (hu : s.pc u = .inside fs) :
    u = t := by
  have hown := (hm.inside u fs hu).1
  rw [ho] at hown
  exact (Option.some.inj hown).symm

theorem lock (hm : Matches body s x) (ht : s.pc t = .outside) (ho : s.owner = none) :
    Matches body { s with owner := some t, pc := update s.pc t (.inside (body t)) } x where
  through := hm.keep (by rw [ht]; nofun) nofun
  inside u fs hu := by
    by_cases hut : u = t
    · subst hut
      simp only [update_self, Pc.inside.injEq] at hu
      exact ⟨rfl, hu ▸ List.suffix_rfl, hu ▸ congrArg _ (hm.free ho)⟩
    · simp only [update_of_ne hut] at hu
      have hown := (hm.inside u fs hu).1
      rw [ho] at hown
      cases hown
  owner u hu := by
    obtain rfl := Option.some.inj hu
    exact ⟨_, update_self ..⟩
  free := nofun

theorem run (hm : Matches body s x) (ht : s.pc t = .inside (f :: rest)) :
    Matches body { s with shared := f s.shared, pc := update s.pc t (.inside rest) } x := by
  obtain ⟨ho, hsuf, he⟩ := hm.inside t _ ht
  constructor
  case through => exact hm.keep (by rw [ht]; nofun) nofun
  case inside =>
    intro u fs hu
    by_cases hut : u = t
    · subst hut
      simp only [update_self, Pc.inside.injEq] at hu
      exact ⟨ho, hu ▸ (List.suffix_cons f rest).trans hsuf, hu ▸ he⟩
    · simp only [update_of_ne hut] at hu
      exact (hut (hm.only ho hu)).elim
  case owner =>
    intro u hu
    obtain rfl := Option.some.inj (ho.symm.trans hu)
    exact ⟨rest, update_self ..⟩
  case free =>
    intro hn
    have hsome : some t = none := ho.symm.trans hn
    cases hsome

theorem unlock (hm : Matches body s x) (ht : s.pc t = .inside []) :
    Matches body { s with owner := none, pc := update s.pc t .through }
      (effect (body t) x.1, x.2 ++ [t]) := by
  obtain ⟨ho, -, he⟩ := hm.inside t _ ht
  constructor
  case through =>
    intro u
    rw [List.mem_append, List.mem_singleton]
    by_cases hut : u = t
    · subst hut
      simp only [update_self, or_true]
    · simp only [update_of_ne hut, hut, or_false]
      exact hm.through u
  case inside =>
    intro u fs hu
    by_cases hut : u = t
    · subst hut
      simp only [update_self, reduceCtorEq] at hu
    · simp only [update_of_ne hut] at hu
      exact (hut (hm.only ho hu)).elim
  case owner =>
    intro u hu
    cases hu
  case free => exact fun _ => he

end Matches

/-- A section may be taken as one step, at its unlock. -/
theorem simulates (body : τ → List (σ → σ)) (x : σ) :
    (sys body x).Simulates (fun _ _ => True) (serial body x) (Matches body) where
  init := by
    rintro _ rfl
    exact ⟨_, rfl, fun t => ⟨nofun, nofun⟩, nofun, nofun, fun _ => rfl⟩
  step := by
    intro s t s' y hm _ hs
    change step body s t = some s' at hs
    unfold step at hs
    split at hs
    · rename_i ht
      obtain ⟨ho, rfl⟩ := of_guard hs
      exact .inl (hm.lock ht ho)
    · rename_i f rest ht
      exact Option.some.inj hs ▸ .inl (hm.run ht)
    · rename_i ht
      have hnot : t ∉ y.2 := by
        rw [← hm.through t, ht]
        nofun
      exact Option.some.inj hs ▸ .inr ⟨t, _, if_pos hnot, hm.unlock ht⟩
    · cases hs

/-- What the threads come to in the order in which they have had their sections. -/
theorem serial_reachable {body : τ → List (σ → σ)} (h : (serial body x).Reachable s) :
    s.2.Nodup ∧ s.1 = effect (s.2.map body).flatten x := by
  apply h.invariant
  · rintro _ rfl
    exact ⟨List.nodup_nil, rfl⟩
  · rintro s t s' ⟨hd, he⟩ - hs
    obtain ⟨hn, rfl⟩ := of_guard hs
    refine ⟨List.nodup_append.2 ⟨hd, List.nodup_singleton t, ?_⟩, ?_⟩
    · rintro a ha b hb rfl
      exact hn (List.mem_singleton.1 hb ▸ ha)
    · rw [List.map_append, List.flatten_append, effect_append, ← he]
      simp only [List.map_singleton, List.flatten_singleton]

/-- Every state is on the way to what some order of sections comes to, those of the threads that
have had theirs or are in it. -/
theorem exists_order {body : τ → List (σ → σ)} (h : (sys body x).Reachable s) :
    ∃ (ts : List τ) (rest : List (σ → σ)), ts.Nodup ∧ (∀ t, t ∈ ts ↔ s.pc t ≠ .outside) ∧
      (∀ f ∈ rest, ∃ t, f ∈ body t) ∧ (s.owner = none → rest = []) ∧
      effect rest s.shared = effect (ts.map body).flatten x := by
  obtain ⟨y, hy, hm⟩ := (simulates body x).reachable h
  obtain ⟨hd, he⟩ := serial_reachable hy
  cases ho : s.owner with
  | none =>
    refine ⟨y.2, [], hd, fun t => ?_, nofun, fun _ => rfl, (hm.free ho).trans he⟩
    rw [← hm.through t]
    cases ht : s.pc t with
    | outside => exact ⟨nofun, fun h => (h rfl).elim⟩
    | inside fs =>
      have hown := (hm.inside t fs ht).1
      rw [ho] at hown
      cases hown
    | through => exact ⟨fun _ => nofun, fun _ => rfl⟩
  | some t =>
    obtain ⟨fs, hfs⟩ := hm.owner t ho
    obtain ⟨-, hsuf, hrest⟩ := hm.inside t fs hfs
    have hnot : t ∉ y.2 := by
      rw [← hm.through t, hfs]
      nofun
    refine ⟨y.2 ++ [t], fs, ?_, fun u => ?_, fun f hf => ⟨t, hsuf.subset hf⟩, nofun, ?_⟩
    · refine List.nodup_append.2 ⟨hd, List.nodup_singleton t, ?_⟩
      rintro a ha b hb rfl
      exact hnot (List.mem_singleton.1 hb ▸ ha)
    · rw [List.mem_append, List.mem_singleton, ← hm.through u]
      cases hu : s.pc u with
      | outside =>
        refine ⟨?_, fun h => (h rfl).elim⟩
        rintro (h | rfl)
        · cases h
        · rw [hfs] at hu
          cases hu
      | inside gs => exact ⟨fun _ => nofun, fun _ => .inr (hm.only ho hu)⟩
      | through => exact ⟨fun _ => nofun, fun _ => .inl rfl⟩
    · rw [List.map_append, List.flatten_append, effect_append, ← he, hrest]
      simp only [List.map_singleton, List.flatten_singleton]

/-- Statements that only ever go up in some order. -/
theorem effect_rel {R : σ → σ → Prop} (hrefl : ∀ y, R y y)
    (htrans : ∀ {x y z}, R x y → R y z → R x z) (h : ∀ f ∈ fs, ∀ y, R y (f y)) (y : σ) :
    R y (effect fs y) := by
  induction fs generalizing y with
  | nil => exact hrefl y
  | cons f fs ih =>
    have hf := h f List.mem_cons_self y
    exact htrans hf (ih (fun g hg => h g (List.mem_cons_of_mem f hg)) (f y))

end LinuxIpc.Critical
