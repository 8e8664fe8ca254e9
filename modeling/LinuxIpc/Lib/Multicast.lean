import LinuxIpc.Lib.Transition
import Mathlib.Data.List.Basic
import Mathlib.Data.List.Nodup
import Mathlib.Logic.Function.Basic

namespace LinuxIpc.Multicast
set_option autoImplicit true
set_option linter.unusedSectionVars false

/-- What happens in a group that only grows: `i` joins it, or party `p` says something to all that
are in it but `i`. -/
inductive Event (π : Type u) (ι : Type v) (μ : Type w)
  | joined (i : ι)
  | said (p : π) (i : ι) (m : μ)
  deriving DecidableEq

open Function (update update_self update_of_ne)

variable {π : Type u} {ι : Type v} {μ : Type w} [DecidableEq ι]

def Event.reaches (j : ι) : Event π ι μ → Option μ
  | .joined _ => none
  | .said _ i m => if i = j then none else some m

/-- What `j` has heard: all that others have said since it joined, in the order in which it was
said. -/
def heard (j : ι) : List (Event π ι μ) → List μ
  | [] => []
  | .joined i :: es => if i = j then es.filterMap (Event.reaches j) else heard j es
  | .said .. :: es => heard j es

/-- What party `p` has said. -/
def saidBy [DecidableEq π] (p : π) (es : List (Event π ι μ)) : List μ :=
  es.filterMap fun
    | .joined _ => none
    | .said q _ m => if q = p then some m else none

theorem heard_append {es : List (Event π ι μ)} (h : .joined j ∈ es) (es' : List (Event π ι μ)) :
    heard j (es ++ es') = heard j es ++ es'.filterMap (Event.reaches j) := by
  induction es with
  | nil => cases h
  | cons e es ih =>
    cases e with
    | joined i =>
      simp only [List.cons_append, heard]
      split
      · exact List.filterMap_append
      · rename_i hi
        rcases List.mem_cons.1 h with he | he
        · cases he
          exact (hi rfl).elim
        · exact ih he
    | said p i m =>
      rcases List.mem_cons.1 h with he | he
      · cases he
      · exact ih he

/-- One who joins has heard nothing yet. -/
theorem heard_joined {es : List (Event π ι μ)} (h : .joined j ∉ es) :
    heard j (es ++ [.joined j]) = [] := by
  induction es with
  | nil => exact if_pos rfl
  | cons e es ih =>
    rw [List.mem_cons, not_or] at h
    cases e with
    | joined i =>
      rw [List.cons_append, heard, if_neg fun hi => h.1 (congrArg _ hi.symm)]
      exact ih h.2
    | said p i m => exact ih h.2

/-- Where a call stands that goes through the list of members under a lock. -/
inductive Pc
  | lock
  | test (k : Nat)
  | cmp (k : Nat)
  | send (k : Nat)
  | unlock
  deriving DecidableEq

structure Call (ι : Type v) (μ : Type w) where
  pc : Pc
  msg : μ
  but : ι

/-- `log` and `handed` record what a call has gone through with, and what parties have made calls
for. -/
structure St (π : Type u) (ι : Type v) (μ : Type w) where
  members : List ι
  mutex : Option π
  call : π → Option (Call ι μ)
  sent : List (ι × μ)
  log : List (Event π ι μ)
  handed : π → List μ

inductive Act (π : Type u) (ι : Type v) (μ : Type w)
  | join (i : ι)
  | call (p : π) (m : μ) (i : ι)
  | go (p : π)

variable [DecidableEq π]

/-- One statement of the call `c` that party `p` is in. -/
def St.go (g : St π ι μ) (p : π) (c : Call ι μ) : Option (St π ι μ) :=
  match c.pc with
  | .lock =>
    if g.mutex = none then
      some { g with mutex := some p, call := update g.call p (some { c with pc := .test 0 }) }
    else none
  | .test k =>
    if k < g.members.length then
      some { g with call := update g.call p (some { c with pc := .cmp k }) }
    else some { g with
      call := update g.call p (some { c with pc := .unlock })
      log := g.log ++ [.said p c.but c.msg] }
  | .cmp k => some { g with call := update g.call p (some { c with
      pc := if g.members[k]? = some c.but then .test (k + 1) else .send k }) }
  | .send k => g.members[k]?.map fun i => { g with
      call := update g.call p (some { c with pc := .test (k + 1) })
      sent := g.sent ++ [(i, c.msg)] }
  | .unlock => some { g with mutex := none, call := update g.call p none }

def step (g : St π ι μ) : Act π ι μ → Option (St π ι μ)
  | .join i =>
    if i ∉ g.members then
      some { g with members := g.members ++ [i], log := g.log ++ [.joined i] }
    else none
  | .call p m i =>
    if (g.call p).isNone then
      some { g with
        call := update g.call p (some ⟨.lock, m, i⟩)
        handed := update g.handed p (g.handed p ++ [m]) }
    else none
  | .go p => (g.call p).bind (g.go p)

def start : St π ι μ := ⟨[], none, fun _ => none, [], [], fun _ => []⟩

/-- What `j` has been sent. -/
def inbox (j : ι) (sent : List (ι × μ)) : List μ :=
  sent.filterMap fun (i, m) => if i = j then some m else none

theorem inbox_append (j : ι) (sent : List (ι × μ)) (i : ι) (m : μ) :
    inbox j (sent ++ [(i, m)]) = inbox j sent ++ if i = j then [m] else [] := by
  rw [inbox, List.filterMap_append]
  by_cases hij : i = j
  · simp only [hij, List.filterMap_cons, if_true, List.filterMap_nil, inbox]
  · simp only [hij, List.filterMap_cons, if_false, List.filterMap_nil, inbox]

/-- What a call has sent to `j` ahead of its being logged. -/
def Call.ahead (members : List ι) (j : ι) (c : Call ι μ) : List μ :=
  match c.pc with
  | .test k | .cmp k | .send k => if j ∈ members.take k ∧ j ≠ c.but then [c.msg] else []
  | .lock | .unlock => []

/-- What a call has still to log. -/
def Call.pending (c : Call ι μ) : List μ :=
  match c.pc with
  | .unlock => []
  | _ => [c.msg]

/-- A call does not run past the members, and does not send to the one it leaves out. -/
def Call.Ok (members : List ι) (c : Call ι μ) : Prop :=
  match c.pc with
  | .lock | .unlock => True
  | .test k => k ≤ members.length
  | .cmp k => k < members.length
  | .send k => k < members.length ∧ members[k]? ≠ some c.but

def St.ahead (g : St π ι μ) (j : ι) : List μ :=
  match g.mutex.bind g.call with
  | some c => c.ahead g.members j
  | none => []

def St.pending (g : St π ι μ) (p : π) : List μ :=
  match g.call p with
  | some c => c.pending
  | none => []

structure Inv (g : St π ι μ) : Prop where
  nodup : g.members.Nodup
  joined : ∀ i, .joined i ∈ g.log ↔ i ∈ g.members
  holds : ∀ p c, g.call p = some c → (c.pc ≠ .lock ↔ g.mutex = some p)
  held : ∀ p, g.mutex = some p → (g.call p).isSome
  calls : ∀ p c, g.call p = some c → c.Ok g.members
  inbox : ∀ j ∈ g.members, inbox j g.sent = heard j g.log ++ g.ahead j
  outside : ∀ j, j ∉ g.members → Multicast.inbox j g.sent = []
  handed : ∀ p, g.handed p = saidBy p g.log ++ g.pending p

theorem saidBy_append (p : π) (es es' : List (Event π ι μ)) :
    saidBy p (es ++ es') = saidBy p es ++ saidBy p es' := List.filterMap_append

theorem ahead_of_mutex {g : St π ι μ} (hm : g.mutex = some p) (hc : g.call p = some c) (j : ι) :
    g.ahead j = c.ahead g.members j := by
  rw [St.ahead, hm, Option.bind_some, hc]

theorem ahead_of_free {g : St π ι μ} (hm : g.mutex = none) (j : ι) : g.ahead j = [] := by
  rw [St.ahead, hm, Option.bind_none]

theorem notMem_take {l : List ι} (h : l.Nodup) (hi : l[k]? = some i) : i ∉ l.take k := by
  have hdrop : i ∈ l.drop k := by
    apply List.mem_of_getElem? (i := 0)
    rw [List.getElem?_drop]
    exact hi
  exact fun htake => List.disjoint_take_drop h (Nat.le_refl k) htake hdrop

theorem Call.Ok.le_length {c : Call ι μ} (h : c.Ok members)
    (hk : c.pc = .test k ∨ c.pc = .cmp k ∨ c.pc = .send k) : k ≤ members.length := by
  unfold Call.Ok at h
  rcases hk with hk | hk | hk
  · rw [hk] at h
    exact h
  · rw [hk] at h
    exact Nat.le_of_lt h
  · rw [hk] at h
    exact Nat.le_of_lt h.1

theorem Call.Ok.grow {c : Call ι μ} (h : c.Ok members) (i : ι) : c.Ok (members ++ [i]) := by
  unfold Call.Ok at h ⊢
  cases hpc : c.pc with
  | lock => trivial
  | unlock => trivial
  | test k =>
    rw [hpc] at h
    rw [List.length_append]
    exact Nat.le_trans h (Nat.le_add_right ..)
  | cmp k =>
    rw [hpc] at h
    rw [List.length_append]
    exact Nat.lt_of_lt_of_le h (Nat.le_add_right ..)
  | send k =>
    rw [hpc] at h
    rw [List.length_append]
    have hsame : (members ++ [i])[k]? = members[k]? := List.getElem?_append_left h.1
    exact ⟨Nat.lt_of_lt_of_le h.1 (Nat.le_add_right ..), fun he => h.2 (hsame.symm.trans he)⟩

theorem Call.ahead_grow {c : Call ι μ} (h : c.Ok members) (i j : ι) :
    c.ahead (members ++ [i]) j = c.ahead members j := by
  unfold Call.ahead
  cases hpc : c.pc with
  | lock => rfl
  | unlock => rfl
  | test k => simp only [List.take_append_of_le_length (h.le_length (.inl hpc))]
  | cmp k => simp only [List.take_append_of_le_length (h.le_length (.inr (.inl hpc)))]
  | send k => simp only [List.take_append_of_le_length (h.le_length (.inr (.inr hpc)))]

/-- Nothing is sent to one who is not in. -/
theorem Call.ahead_outside (c : Call ι μ) (h : j ∉ members) : c.ahead members j = [] := by
  have hnot (k : Nat) : ¬ (j ∈ members.take k ∧ j ≠ c.but) :=
    fun hj => h (List.mem_of_mem_take hj.1)
  unfold Call.ahead
  split <;> first | exact if_neg (hnot _) | rfl

namespace Inv

variable {g : St π ι μ}

theorem start : Inv (start : St π ι μ) where
  nodup := List.nodup_nil
  joined _ := ⟨nofun, nofun⟩
  holds := nofun
  held := nofun
  calls := nofun
  inbox := nofun
  outside _ _ := rfl
  handed _ := rfl

theorem join (h : Inv g) (hi : i ∉ g.members) :
    Inv { g with members := g.members ++ [i], log := g.log ++ [.joined i] } := by
  have hahead (j : ι) : St.ahead { g with
      members := g.members ++ [i]
      log := g.log ++ [.joined i] } j = g.ahead j := by
    unfold St.ahead
    cases hm : g.mutex with
    | none => rfl
    | some p =>
      obtain ⟨c, hc⟩ := Option.isSome_iff_exists.1 (h.held p hm)
      simp only [Option.bind_some, hc]
      exact Call.ahead_grow (h.calls p c hc) i j
  exact { h with
    nodup := List.nodup_append.2 ⟨h.nodup, List.nodup_singleton i, by
      rintro a ha b hb rfl
      exact hi (List.mem_singleton.1 hb ▸ ha)⟩
    joined := by
      intro j
      rw [List.mem_append, List.mem_append, h.joined j, List.mem_singleton, List.mem_singleton,
        Event.joined.injEq]
    calls := fun p c hc => (h.calls p c hc).grow i
    inbox := by
      intro j hj
      rw [hahead j]
      rcases List.mem_append.1 hj with hj | hj
      · rw [heard_append ((h.joined j).2 hj), h.inbox j hj]
        exact congrArg (· ++ _) (List.append_nil _).symm
      · obtain rfl := List.mem_singleton.1 hj
        rw [heard_joined (mt (h.joined j).1 hi), h.outside j hi, St.ahead]
        cases hm : g.mutex.bind g.call with
        | none => rfl
        | some c => exact (c.ahead_outside hi).symm
    outside := fun j hj => h.outside j fun hm => hj (List.mem_append_left _ hm)
    handed := by
      intro p
      rw [saidBy_append]
      exact (h.handed p).trans (congrArg (· ++ _) (List.append_nil _).symm) }

theorem call (h : Inv g) (hc : g.call p = none) (m : μ) (i : ι) :
    Inv { g with
      call := update g.call p (some ⟨.lock, m, i⟩)
      handed := update g.handed p (g.handed p ++ [m]) } := by
  have hmutex : g.mutex ≠ some p := by
    intro hm
    have hsome := h.held p hm
    rw [hc] at hsome
    cases hsome
  have hahead (j : ι) : St.ahead { g with
      call := update g.call p (some ⟨.lock, m, i⟩)
      handed := update g.handed p (g.handed p ++ [m]) } j = g.ahead j := by
    unfold St.ahead
    cases hm : g.mutex with
    | none => rfl
    | some q =>
      have hq : q ≠ p := by
        rintro rfl
        exact hmutex hm
      simp only [Option.bind_some, update_of_ne hq]
  exact { h with
    holds := by
      intro q c hq
      by_cases hqp : q = p
      · subst hqp
        simp only [update_self, Option.some.injEq] at hq
        exact hq ▸ iff_of_false (fun hn => hn rfl) hmutex
      · simp only [update_of_ne hqp] at hq
        exact h.holds q c hq
    held := by
      intro q hq
      have hqp : q ≠ p := by
        rintro rfl
        exact hmutex hq
      simp only [update_of_ne hqp]
      exact h.held q hq
    calls := by
      intro q c hq
      by_cases hqp : q = p
      · subst hqp
        simp only [update_self, Option.some.injEq] at hq
        exact hq ▸ trivial
      · simp only [update_of_ne hqp] at hq
        exact h.calls q c hq
    inbox := by
      intro j hj
      rw [hahead j]
      exact h.inbox j hj
    handed := by
      intro q
      by_cases hqp : q = p
      · subst hqp
        simp only [update_self, h.handed q, St.pending, hc, List.append_nil]
        rfl
      · simp only [update_of_ne hqp, h.handed q, St.pending] }

/-- The party with the lock goes on in its call. -/
theorem move (h : Inv g) (hm : g.mutex = some p) (hpc : c.pc ≠ .lock) (hok : c.Ok g.members)
    (hjoined : ∀ i, .joined i ∈ log ↔ .joined i ∈ g.log)
    (hin : ∀ j ∈ g.members, Multicast.inbox j sent = heard j log ++ c.ahead g.members j)
    (hout : ∀ j, j ∉ g.members → Multicast.inbox j sent = [])
    (hsaid : ∀ q, q ≠ p → saidBy q log = saidBy q g.log)
    (hself : g.handed p = saidBy p log ++ c.pending) :
    Inv { g with call := update g.call p (some c), sent := sent, log := log } where
  nodup := h.nodup
  joined i := (hjoined i).trans (h.joined i)
  holds := by
    intro q d hq
    by_cases hqp : q = p
    · subst hqp
      simp only [update_self, Option.some.injEq] at hq
      exact hq ▸ iff_of_true hpc hm
    · simp only [update_of_ne hqp] at hq
      exact h.holds q d hq
  held := by
    intro q hq
    obtain rfl := Option.some.inj (hm.symm.trans hq)
    simp only [update_self, Option.isSome_some]
  calls := by
    intro q d hq
    by_cases hqp : q = p
    · subst hqp
      simp only [update_self, Option.some.injEq] at hq
      exact hq ▸ hok
    · simp only [update_of_ne hqp] at hq
      exact h.calls q d hq
  inbox := by
    intro j hj
    have hahead : St.ahead { g with call := update g.call p (some c), sent := sent, log := log } j =
        c.ahead g.members j := by
      simp only [St.ahead, hm, Option.bind_some, update_self]
    rw [hahead]
    exact hin j hj
  outside := hout
  handed := by
    intro q
    by_cases hqp : q = p
    · subst hqp
      simp only [St.pending, update_self]
      exact hself
    · simp only [St.pending, update_of_ne hqp, hsaid q hqp]
      exact h.handed q

theorem lock (h : Inv g) (hc : g.call p = some c) (hpc : c.pc = .lock) (hm : g.mutex = none) :
    Inv { g with mutex := some p, call := update g.call p (some { c with pc := .test 0 }) } :=
  { h with
    holds := by
      intro q d hq
      by_cases hqp : q = p
      · subst hqp
        simp only [update_self, Option.some.injEq] at hq
        exact hq ▸ iff_of_true nofun rfl
      · simp only [update_of_ne hqp] at hq
        have hd := h.holds q d hq
        rw [hm] at hd
        exact iff_of_false (fun hn => nomatch hd.1 hn) fun he => hqp (Option.some.inj he).symm
    held := by
      intro q hq
      obtain rfl := Option.some.inj hq
      simp only [update_self, Option.isSome_some]
    calls := by
      intro q d hq
      by_cases hqp : q = p
      · subst hqp
        simp only [update_self, Option.some.injEq] at hq
        exact hq ▸ Nat.zero_le _
      · simp only [update_of_ne hqp] at hq
        exact h.calls q d hq
    inbox := by
      intro j hj
      have hahead : St.ahead { g with
          mutex := some p
          call := update g.call p (some { c with pc := .test 0 }) } j =
          Call.ahead g.members j { c with pc := .test 0 } := ahead_of_mutex rfl (update_self ..) j
      rw [hahead, h.inbox j hj, ahead_of_free hm]
      simp only [Call.ahead, List.take_zero, List.not_mem_nil, false_and, if_false]
    handed := by
      intro q
      by_cases hqp : q = p
      · subst hqp
        have hpend : g.pending q = [c.msg] := by
          rw [St.pending, hc]
          simp only [Call.pending, hpc]
        rw [h.handed q, hpend]
        simp only [St.pending, update_self]
        rfl
      · simp only [St.pending, update_of_ne hqp]
        exact h.handed q }

theorem handed_of (h : Inv g) (hc : g.call p = some c) (hpc : c.pc ≠ .unlock) :
    g.handed p = saidBy p g.log ++ [c.msg] := by
  have hpend : c.pending = [c.msg] := by
    unfold Call.pending
    split
    · rename_i he
      exact (hpc he).elim
    · rfl
  rw [h.handed p, St.pending, hc]
  exact congrArg _ hpend

/-- A step to the next place of the list, or half a step. -/
theorem walk (h : Inv g) (hm : g.mutex = some p) (hc : g.call p = some c) (hpc : c.pc ≠ .unlock)
    (hl : pc ≠ .lock) (hu : pc ≠ .unlock) (hok : Call.Ok g.members { c with pc := pc })
    (hin : ∀ j, ∃ ms, Multicast.inbox j sent = Multicast.inbox j g.sent ++ ms ∧
      Call.ahead g.members j { c with pc := pc } = c.ahead g.members j ++ ms) :
    Inv { g with call := update g.call p (some { c with pc := pc }), sent := sent } := by
  apply h.move (c := { c with pc := pc }) hm hl hok (fun _ => Iff.rfl)
  · intro j hj
    obtain ⟨ms, hs, ha⟩ := hin j
    rw [hs, ha, h.inbox j hj, ahead_of_mutex hm hc, List.append_assoc]
  · intro j hj
    obtain ⟨ms, hs, ha⟩ := hin j
    rw [Call.ahead_outside _ hj, Call.ahead_outside _ hj, List.nil_append] at ha
    rw [hs, ← ha, List.append_nil, h.outside j hj]
  · exact fun _ _ => rfl
  · have hpend : Call.pending { c with pc := pc } = [c.msg] := by
      unfold Call.pending
      split
      · rename_i he
        exact (hu he).elim
      · rfl
    rw [hpend]
    exact h.handed_of hc hpc

theorem finish (h : Inv g) (hm : g.mutex = some p) (hc : g.call p = some c) (hpc : c.pc = .test k)
    (hk : ¬ k < g.members.length) :
    Inv { g with
      call := update g.call p (some { c with pc := .unlock })
      log := g.log ++ [.said p c.but c.msg] } := by
  have hok := h.calls p c hc
  rw [Call.Ok, hpc] at hok
  apply h.move (c := { c with pc := .unlock }) hm nofun trivial
  · intro i
    rw [List.mem_append, List.mem_singleton]
    exact ⟨fun hi => hi.resolve_right nofun, .inl⟩
  · intro j hj
    have hall : g.members.take k = g.members := List.take_of_length_le (Nat.le_of_not_lt hk)
    rw [h.inbox j hj, ahead_of_mutex hm hc, heard_append ((h.joined j).2 hj)]
    simp only [Call.ahead, hpc, hall, hj, true_and, List.append_nil]
    by_cases hb : c.but = j
    · rw [if_neg fun hne => hne hb.symm]
      simp only [List.filterMap_cons, Event.reaches, if_pos hb, List.filterMap_nil]
    · rw [if_pos fun he => hb he.symm]
      simp only [List.filterMap_cons, Event.reaches, if_neg hb, List.filterMap_nil]
  · exact h.outside
  · intro q hq
    rw [saidBy_append]
    simp only [saidBy, List.filterMap_cons, if_neg hq.symm, List.filterMap_nil, List.append_nil]
  · rw [h.handed_of hc (by rw [hpc]; nofun), saidBy_append]
    simp only [saidBy, List.filterMap_cons, if_true, List.filterMap_nil]
    exact (List.append_nil _).symm

theorem unlock (h : Inv g) (hc : g.call p = some c) (hpc : c.pc = .unlock) :
    Inv { g with mutex := none, call := update g.call p none } := by
  have hm : g.mutex = some p := (h.holds p c hc).1 (by rw [hpc]; nofun)
  exact { h with
    holds := by
      intro q d hq
      by_cases hqp : q = p
      · subst hqp
        simp only [update_self, reduceCtorEq] at hq
      · simp only [update_of_ne hqp] at hq
        have hd := h.holds q d hq
        rw [hm] at hd
        exact iff_of_false (fun hn => hqp (Option.some.inj (hd.1 hn)).symm) nofun
    held := nofun
    calls := by
      intro q d hq
      by_cases hqp : q = p
      · subst hqp
        simp only [update_self, reduceCtorEq] at hq
      · simp only [update_of_ne hqp] at hq
        exact h.calls q d hq
    inbox := by
      intro j hj
      have hahead : St.ahead { g with mutex := none, call := update g.call p none } j = [] :=
        ahead_of_free rfl j
      rw [hahead, h.inbox j hj, ahead_of_mutex hm hc]
      simp only [Call.ahead, hpc]
    handed := by
      intro q
      by_cases hqp : q = p
      · subst hqp
        rw [h.handed q]
        simp only [St.pending, hc, Call.pending, hpc, update_self]
      · simp only [St.pending, update_of_ne hqp]
        exact h.handed q }

theorem go (h : Inv g) (hc : g.call p = some c) (hs : g.go p c = some g') : Inv g' := by
  have hok := h.calls p c hc
  have hmutex := h.holds p c hc
  unfold Call.Ok at hok
  unfold St.go at hs
  split at hs
  · rename_i hpc
    obtain ⟨hm, rfl⟩ := of_guard hs
    exact h.lock hc hpc hm
  · rename_i k hpc
    have hm : g.mutex = some p := hmutex.1 (by rw [hpc]; nofun)
    rw [hpc] at hok
    split at hs
    · rename_i hk
      refine Option.some.inj hs ▸ h.walk hm hc (by rw [hpc]; nofun) nofun nofun hk fun j => ?_
      refine ⟨[], (List.append_nil _).symm, ?_⟩
      simp only [Call.ahead, hpc, List.append_nil]
    · rename_i hk
      exact Option.some.inj hs ▸ h.finish hm hc hpc hk
  · rename_i k hpc
    have hm : g.mutex = some p := hmutex.1 (by rw [hpc]; nofun)
    rw [hpc] at hok
    split at hs
    · rename_i hb
      refine Option.some.inj hs ▸ h.walk hm hc (by rw [hpc]; nofun) nofun nofun hok fun j => ?_
      refine ⟨[], (List.append_nil _).symm, ?_⟩
      simp only [Call.ahead, hpc, List.append_nil, List.take_add_one, hb, Option.toList_some,
        List.mem_append, List.mem_singleton]
      congr 1
      rw [eq_iff_iff]
      constructor
      · rintro ⟨hj | hj, hne⟩
        · exact ⟨hj, hne⟩
        · exact (hne hj).elim
      · exact fun hj => ⟨.inl hj.1, hj.2⟩
    · rename_i hb
      refine Option.some.inj hs ▸
        h.walk hm hc (by rw [hpc]; nofun) nofun nofun ⟨hok, hb⟩ fun j => ?_
      refine ⟨[], (List.append_nil _).symm, ?_⟩
      simp only [Call.ahead, hpc, List.append_nil]
  · rename_i k hpc
    have hm : g.mutex = some p := hmutex.1 (by rw [hpc]; nofun)
    rw [hpc] at hok
    obtain ⟨i, hi, rfl⟩ := Option.map_eq_some_iff.1 hs
    refine h.walk hm hc (by rw [hpc]; nofun) nofun nofun hok.1 fun j => ?_
    refine ⟨if i = j then [c.msg] else [], inbox_append .., ?_⟩
    have hne : i ≠ c.but := fun he => hok.2 (he ▸ hi)
    simp only [Call.ahead, hpc, List.take_add_one, hi, Option.toList_some, List.mem_append,
      List.mem_singleton]
    by_cases hij : i = j
    · subst hij
      have hnot : i ∉ g.members.take k := notMem_take h.nodup hi
      simp only [hnot, or_true, true_and, if_pos hne, false_and, if_false, if_true, List.nil_append]
    · have hji : (j = i) = False := eq_false fun he => hij he.symm
      simp only [hji, or_false, if_neg hij, List.append_nil]
  · rename_i hpc
    exact Option.some.inj hs ▸ h.unlock hc hpc

end Inv

theorem Inv.step {g : St π ι μ} (h : Inv g) (hs : Multicast.step g a = some g') : Inv g' := by
  cases a with
  | join i =>
    obtain ⟨hi, rfl⟩ := of_guard hs
    exact h.join hi
  | call p m i =>
    obtain ⟨hc, rfl⟩ := of_guard hs
    exact h.call (Option.isNone_iff_eq_none.1 hc) m i
  | go p =>
    obtain ⟨c, hc, hs⟩ := Option.bind_eq_some_iff.1 hs
    exact h.go hc hs

/-- While no call is on its way, members have heard what was said since they joined, all in the
same order. -/
theorem Inv.inbox_eq {g : St π ι μ} (h : Inv g) (hm : g.mutex = none) (hj : j ∈ g.members) :
    Multicast.inbox j g.sent = heard j g.log := by
  rw [h.inbox j hj, ahead_of_free hm, List.append_nil]

theorem Inv.handed_eq {g : St π ι μ} (h : Inv g) (hc : g.call p = none) :
    saidBy p g.log = g.handed p := by
  rw [h.handed p, St.pending, hc]
  exact (List.append_nil _).symm

end LinuxIpc.Multicast
