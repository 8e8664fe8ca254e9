import Mathlib.Order.WellFounded

namespace LinuxIpc
set_option autoImplicit true

/-- Parties moved by one scheduler. An action names the party that moves and what its
environment answers; `step` is `none` when the action is not enabled. -/
structure Sys (σ : Type u) (α : Type v) where
  init : σ → Prop
  step : σ → α → Option σ

/-- What a guarded step has checked, and what it comes to. -/
theorem of_guard {p : Prop} [Decidable p] {s t : σ} (h : (if p then some s else none) = some t) :
    p ∧ s = t :=
  (Option.ite_none_right_eq_some.1 h).imp id Option.some.inj

namespace Sys

def run (S : Sys σ α) : List α → σ → Option σ
  | [], s => some s
  | a :: as, s => (S.step s a).bind (S.run as)

theorem run_cons {S : Sys σ α} (h : S.step s a = some t) : S.run (a :: as) s = S.run as t := by
  rw [run, h, Option.bind_some]

theorem run_trans {S : Sys σ α} (h : S.run as s = some t) (h' : S.run bs t = some u) :
    S.run (as ++ bs) s = some u := by
  induction as generalizing s with
  | nil =>
    obtain rfl := Option.some.inj h
    exact h'
  | cons a as ih =>
    obtain ⟨v, hv, hr⟩ := Option.bind_eq_some_iff.1 h
    rw [List.cons_append, run_cons hv]
    exact ih hr

/-- `run`, stopped at the first step that does not meet the guard. -/
def runIf (S : Sys σ α) (G : σ → α → Prop) [∀ s a, Decidable (G s a)] : List α → σ → Option σ
  | [], s => some s
  | a :: as, s => if G s a then (S.step s a).bind (S.runIf G as) else none

/-- The states on runs whose every step meets the guard `G`. -/
inductive ReachableIf (S : Sys σ α) (G : σ → α → Prop) : σ → Prop
  | init : S.init s → ReachableIf S G s
  | step : ReachableIf S G s → G s a → S.step s a = some t → ReachableIf S G t

abbrev Reachable (S : Sys σ α) : σ → Prop := S.ReachableIf fun _ _ => True

theorem ReachableIf.invariant {S : Sys σ α} {I : σ → Prop} (h : S.ReachableIf G s)
    (hi : ∀ s, S.init s → I s)
    (hs : ∀ s a t, I s → G s a → S.step s a = some t → I t) : I s := by
  induction h with
  | init h => exact hi _ h
  | step _ hg ht ih => exact hs _ _ _ ih hg ht

theorem ReachableIf.reachable {S : Sys σ α} (h : S.ReachableIf G s) : S.Reachable s := by
  induction h with
  | init hs => exact .init hs
  | step _ _ ht ih => exact .step ih trivial ht

theorem ReachableIf.runIf {S : Sys σ α} [∀ s a, Decidable (G s a)] (h : S.ReachableIf G s)
    (hr : S.runIf G as s = some t) : S.ReachableIf G t := by
  induction as generalizing s with
  | nil =>
    simp only [Sys.runIf, Option.some.injEq] at hr
    exact hr ▸ h
  | cons a as ih =>
    simp only [Sys.runIf, Option.ite_none_right_eq_some, Option.bind_eq_some_iff] at hr
    obtain ⟨hg, u, hu, hr⟩ := hr
    exact ih (.step h hg hu) hr

theorem ReachableIf.run {S : Sys σ α} (h : S.ReachableIf G s) (hG : ∀ s a, G s a)
    (hr : S.run as s = some t) : S.ReachableIf G t := by
  induction as generalizing s with
  | nil =>
    simp only [Sys.run, Option.some.injEq] at hr
    exact hr ▸ h
  | cons a as ih =>
    simp only [Sys.run, Option.bind_eq_some_iff] at hr
    obtain ⟨u, hu, hr⟩ := hr
    exact ih (.step h (hG _ _) hu) hr

theorem Reachable.of_run {S : Sys σ α} (h : S.init s) (hr : S.run as s = some t) :
    S.Reachable t :=
  ReachableIf.run (.init h) (fun _ _ => trivial) hr

/-- Every step of a run has the property `P`. -/
def Along (S : Sys σ α) (P : σ → α → Prop) : List α → σ → Prop
  | [], _ => True
  | a :: as, s => P s a ∧ ∀ t, S.step s a = some t → S.Along P as t

theorem along_cons {S : Sys σ α} (h : S.step s a = some t) :
    S.Along P (a :: as) s ↔ P s a ∧ S.Along P as t := by
  rw [Along, h]
  constructor
  · rintro ⟨hp, hs⟩
    exact ⟨hp, hs t rfl⟩
  · rintro ⟨hp, hs⟩
    refine ⟨hp, fun u hu => ?_⟩
    obtain rfl := Option.some.inj hu
    exact hs

theorem along_append {S : Sys σ α} (h : S.run as s = some t) :
    S.Along P (as ++ bs) s ↔ S.Along P as s ∧ S.Along P bs t := by
  induction as generalizing s with
  | nil =>
    obtain rfl := Option.some.inj h
    exact ⟨fun hb => ⟨trivial, hb⟩, And.right⟩
  | cons a as ih =>
    obtain ⟨u, hu, hr⟩ := Option.bind_eq_some_iff.1 h
    rw [List.cons_append, along_cons hu, along_cons hu, ih hr, and_assoc]

instance decidableAlong (S : Sys σ α) (P : σ → α → Prop) [∀ s a, Decidable (P s a)] :
    ∀ as s, Decidable (S.Along P as s)
  | [], _ => .isTrue trivial
  | a :: as, s =>
    match h : S.step s a with
    | none => decidable_of_iff (P s a) ⟨fun hp => ⟨hp, by rw [h]; nofun⟩, And.left⟩
    | some t =>
      have := decidableAlong S P as t
      decidable_of_iff _ (along_cons h).symm

/-- Two properties of steps that agree wherever the steps so far had one of them hold along the
same runs. -/
theorem along_congr {S : Sys σ α} {I : σ → Prop} (hi : I s)
    (hs : ∀ s a t, I s → P s a → S.step s a = some t → I t)
    (hPQ : ∀ s a t, I s → S.step s a = some t → (P s a ↔ Q s a)) (hr : S.run as s = some t) :
    S.Along P as s ↔ S.Along Q as s := by
  induction as generalizing s with
  | nil => exact Iff.rfl
  | cons a as ih =>
    obtain ⟨u, hu, hr⟩ := Option.bind_eq_some_iff.1 hr
    rw [along_cons hu, along_cons hu, ← hPQ s a u hi hu]
    constructor
    · rintro ⟨hp, has⟩
      exact ⟨hp, (ih (hs s a u hi hp hu) hr).1 has⟩
    · rintro ⟨hp, has⟩
      exact ⟨hp, (ih (hs s a u hi hp hu) hr).2 has⟩

/-- Where steps that meet a guard keep an invariant, a first one that does not leads to something
else, and that is for good. -/
theorem along_or {S : Sys σ α} {G : σ → α → Prop} {I B : σ → Prop}
    (hI : ∀ s a t, I s → G s a → S.step s a = some t → I t)
    (hB : ∀ s a t, I s → ¬ G s a → S.step s a = some t → B t)
    (hstay : ∀ s a t, B s → S.step s a = some t → B t) (h : I s) (hr : S.run as s = some t) :
    S.Along G as s ∧ I t ∨ ¬ S.Along G as s ∧ B t := by
  have hbad : ∀ {bs u}, B u → S.run bs u = some t → B t := by
    intro bs
    induction bs with
    | nil =>
      intro u hu hr
      exact Option.some.inj hr ▸ hu
    | cons b bs ih =>
      intro u hu hr
      obtain ⟨v, hv, hr⟩ := Option.bind_eq_some_iff.1 hr
      exact ih (hstay u b v hu hv) hr
  induction as generalizing s with
  | nil => exact .inl ⟨trivial, Option.some.inj hr ▸ h⟩
  | cons a as ih =>
    obtain ⟨u, hu, hr⟩ := Option.bind_eq_some_iff.1 hr
    rw [along_cons hu]
    by_cases hg : G s a
    · rcases ih (hI s a u h hg hu) hr with ⟨ha, ht⟩ | ⟨ha, ht⟩
      · exact .inl ⟨⟨hg, ha⟩, ht⟩
      · exact .inr ⟨fun hb => ha hb.2, ht⟩
    · exact .inr ⟨fun hb => hg hb.1, hbad (hB s a u h hg hu) hr⟩

/-- Every schedule from the state passes through a goal: no run stops or goes on for ever
before it. -/
inductive Inevitable (S : Sys σ α) (goal : σ → Prop) : σ → Prop
  | here : goal s → Inevitable S goal s
  | next : S.step s a = some t → (∀ a t, S.step s a = some t → Inevitable S goal t) →
      Inevitable S goal s

theorem Inevitable.of_wellFounded {S : Sys σ α} {goal I : σ → Prop} {r : σ → σ → Prop}
    (hr : WellFounded r) (hp : ∀ s, I s → ¬ goal s → ∃ a t, S.step s a = some t)
    (hs : ∀ s a t, I s → ¬ goal s → S.step s a = some t → I t ∧ r t s) :
    ∀ s, I s → S.Inevitable goal s := by
  intro s
  induction s using hr.induction with
  | _ s ih =>
    intro hI
    by_cases hg : goal s
    · exact .here hg
    · obtain ⟨a, t, ht⟩ := hp s hI hg
      refine .next ht fun a t ht => ?_
      obtain ⟨hIt, hrt⟩ := hs s a t hI hg ht
      exact ih t hrt hIt

theorem Inevitable.imp {S : Sys σ α} {goal goal' : σ → Prop} (h : S.Inevitable goal s)
    (hg : ∀ s, goal s → goal' s) : S.Inevitable goal' s := by
  induction h with
  | here h => exact .here (hg _ h)
  | next ht _ ih => exact .next ht ih

theorem Inevitable.step {S : Sys σ α} {goal : σ → Prop} (h : S.Inevitable goal s)
    (hg : ¬ goal s) (ht : S.step s a = some t) : S.Inevitable goal t := by
  cases h with
  | here h => exact (hg h).elim
  | next _ h => exact h a t ht

/-- An inevitable goal is met by at least one run. -/
theorem Inevitable.reaches {S : Sys σ α} {goal I : σ → Prop} (h : S.Inevitable goal s)
    (hI : I s) (hs : ∀ s a t, I s → S.step s a = some t → I t) : ∃ t, I t ∧ goal t := by
  induction h with
  | here hg => exact ⟨_, hI, hg⟩
  | next ht _ ih => exact ih _ _ ht (hs _ _ _ hI ht)

end Sys

end LinuxIpc
