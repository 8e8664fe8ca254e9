import LinuxIpc.PthSem.Loop
import Mathlib.Data.List.Nodup

namespace LinuxIpc.PthSem
set_option autoImplicit true

/-- `rand()` does not return the marker, and the last round pushes it on an empty stack. -/
def Clear (s : St) : Act → Prop
  | .produce rand => if s.i = 9 then s.idx = 0 else rand ≠ marker
  | _ => True

instance (s : St) (a : Act) : Decidable (Clear s a) := by
  cases a <;> unfold Clear <;> infer_instance

structure Law (s : St) : Prop where
  bounds : ∀ j ∈ s.accessed, 0 ≤ j ∧ j ≤ 9
  produced : ∀ c ∈ s.printed, c ∈ s.produced
  once : (s.printed.map Cell.round).Nodup
  stops : s.consumer = .done ↔ ∃ c ∈ s.printed, c.round = some 9
  all : Ended s → s.i = rounds ∧ ∀ c ∈ s.produced, c ∈ s.printed

/-- The marker is the last round's, and under it there is nothing. -/
structure Sound (s : St) (stack : List Cell) : Prop where
  unique : ∀ c ∈ s.produced, c.val = marker → c.round = some 9
  alone : ∀ c ∈ stack, c.round = some 9 → stack = [c]
  bounds : ∀ j ∈ s.accessed, 0 ≤ j ∧ j ≤ 9

/-- A round before the last has stored the marker, or the last one has on top of another cell. -/
def Spoilt (s : St) (stack : List Cell) : Prop :=
  (∃ c ∈ s.produced, c.val = marker ∧ c.round ≠ some 9) ∨
    ∃ c d cs, stack = c :: d :: cs ∧ c.round = some 9

theorem Stands.mem_stack (h : Stands s stack taken halt) (hc : c ∈ stack) : c ∈ s.produced :=
  h.split.mem_iff.2 (List.mem_append_right _ hc)

theorem Stands.mem_taken (h : Stands s stack taken halt) (hc : c ∈ taken) : c ∈ s.produced :=
  h.split.mem_iff.2 (List.mem_append_left _ hc)

theorem Stands.nodup (h : Stands s stack taken halt) :
    ((taken ++ stack).map Cell.round).Nodup := by
  rw [← (h.split.map Cell.round).nodup_iff, h.order]
  exact List.Nodup.map (Option.some_injective Nat) List.nodup_range

theorem Stands.last (h : Stands s stack taken halt) (hn : s.i + s.producer.pending = rounds) :
    ∃ c ∈ stack, c.round = some 9 := by
  have hm : some 9 ∈ s.produced.map Cell.round := by
    rw [h.order, hn]
    decide
  obtain ⟨c, hc, hr⟩ := List.mem_map.1 hm
  rcases List.mem_append.1 (h.split.mem_iff.1 hc) with ht | hs
  · exact (h.unmarked c ht (h.marked c hc hr)).elim
  · exact ⟨c, hs, hr⟩

theorem Stands.length_le (h : Stands s stack taken halt)
    (ha : ∀ c ∈ stack, c.round = some 9 → stack = [c]) : stack.length ≤ 9 := by
  have hlen := h.split.length_eq
  have ho := congrArg List.length h.order
  rw [List.length_append] at hlen
  rw [List.length_map, List.length_map, List.length_range] at ho
  rcases Nat.lt_or_eq_of_le h.room with hlt | heq
  · change _ < 10 at hlt
    omega
  · obtain ⟨c, hc, hr⟩ := h.last heq
    rw [ha c hc hr]
    exact Nat.succ_le_succ (Nat.zero_le 8)

theorem Stands.round_lt (h : Stands s stack taken halt) (hc : c ∈ s.produced)
    (hr : c.round = some n) : n < s.i + s.producer.pending := by
  have hm := List.mem_map_of_mem (f := Cell.round) hc
  rw [h.order, hr, List.mem_map_of_injective (Option.some_injective Nat)] at hm
  exact List.mem_range.1 hm

theorem Sound.start : Sound PthSem.start [] := ⟨nofun, nofun, nofun⟩

theorem Sound.produce (hs : Sound s stack) (h : Stands s stack taken halt)
    (hp : s.producer = .produce) (hi : s.i < rounds) (hg : Clear s (.produce r)) :
    Sound (s.produce r) (s.cell r :: stack) := by
  change if s.i = 9 then s.idx = 0 else r ≠ marker at hg
  have ha : ∀ c ∈ s.cell r :: stack, c.round = some 9 → s.cell r :: stack = [c] := by
    intro c hc hr
    by_cases h9 : s.i = 9
    · rw [if_pos h9, h.idx, Int.natCast_eq_zero, List.length_eq_zero_iff] at hg
      subst hg
      rw [List.mem_singleton.1 hc]
    · rcases List.mem_cons.1 hc with rfl | hc
      · exact (h9 (Option.some.inj hr)).elim
      · have hlt := h.round_lt (h.mem_stack hc) hr
        rw [hp] at hlt
        change 9 < s.i at hlt
        change s.i < 10 at hi
        omega
  refine ⟨?_, ha, ?_⟩
  · intro c hc hm
    rcases List.mem_append.1 hc with hc | hc
    · exact hs.unique c hc hm
    · obtain rfl := List.mem_singleton.1 hc
      by_cases h9 : s.i = 9
      · exact congrArg some h9
      · rw [if_neg h9] at hg
        exact (hg ((if_neg h9).symm.trans hm)).elim
  · intro j hj
    rcases List.mem_append.1 hj with hj | hj
    · exact hs.bounds j hj
    · have hlen := (h.produce hp hi r).length_le ha
      have hidx := h.idx
      rw [List.mem_singleton] at hj
      rw [List.length_cons] at hlen
      omega

/-- Of the two ways to break the rule, the marker comes too early or on top of another cell. -/
theorem Spoilt.produce (h : Stands s stack taken halt)
    (hg : ¬ Clear s (.produce r)) : Spoilt (s.produce r) (s.cell r :: stack) := by
  change ¬ if s.i = 9 then s.idx = 0 else r ≠ marker at hg
  by_cases h9 : s.i = 9
  · rw [if_pos h9, h.idx, Int.natCast_eq_zero, List.length_eq_zero_iff] at hg
    obtain ⟨d, cs, rfl⟩ := List.exists_cons_of_ne_nil hg
    exact .inr ⟨_, d, cs, rfl, congrArg some h9⟩
  · rw [if_neg h9, not_not] at hg
    refine .inl ⟨s.cell r, ?_, ?_, ?_⟩
    · exact List.mem_append_right _ (List.mem_singleton_self _)
    · exact (if_neg h9).trans hg
    · exact fun h => h9 (Option.some.inj h)

/-- What a step does to the stack. -/
inductive Moves (s : St) (stack : List Cell) : Act → St → List Cell → Prop
  | push : s.producer = .produce → s.i < rounds →
      Moves s stack (.produce r) (s.produce r) (s.cell r :: stack)
  | same : Clear s a → t.produced = s.produced → (t.accessed = s.accessed ∨
      t.accessed = s.accessed ++ [s.idx]) → Moves s stack a t stack
  | pop : stack = c :: cs → c.val ≠ marker → t.produced = s.produced →
      t.accessed = s.accessed ++ [s.idx] → Moves s stack .consume t cs

theorem Stands.step (h : Stands s stack taken halt) (ht : PthSem.step s a = some t) :
    ∃ stack' taken' halt', Stands t stack' taken' halt' ∧ Moves s stack a t stack' := by
  cases a with
  | produce r =>
    obtain ⟨⟨hp, hi, -⟩, rfl⟩ := of_guard ht
    exact ⟨_, _, _, h.produce hp hi r, .push hp hi⟩
  | post =>
    obtain ⟨hp, rfl⟩ := of_guard ht
    exact ⟨_, _, _, h.post hp, .same trivial rfl (.inl rfl)⟩
  | wait =>
    obtain ⟨⟨hc, hs⟩, rfl⟩ := of_guard ht
    exact ⟨_, _, _, h.wait hc hs, .same trivial rfl (.inl rfl)⟩
  | consume =>
    obtain ⟨hc, rfl⟩ := of_guard ht
    obtain ⟨c, cs, hst, -, htop, hk⟩ := h.consume hc
    rcases hk with ⟨hm, hk⟩ | ⟨hm, hk⟩
    · refine ⟨_, _, _, hk, .same trivial ?_ (.inr ?_)⟩
      · simp only [St.consume, htop, if_pos hm]
      · simp only [St.consume, htop, if_pos hm]
    · refine ⟨_, _, _, hk, .pop hst hm ?_ ?_⟩
      · simp only [St.consume, htop, if_neg hm]
      · simp only [St.consume, htop, if_neg hm]

theorem Sound.bounds_snoc (hs : Sound s stack) (h : Stands s stack taken halt) :
    ∀ j ∈ s.accessed ++ [s.idx], 0 ≤ j ∧ j ≤ 9 := by
  intro j hj
  rcases List.mem_append.1 hj with hj | hj
  · exact hs.bounds j hj
  · have hidx := h.idx
    have hlen := h.length_le hs.alone
    rw [List.mem_singleton] at hj
    omega

theorem Sound.step (hs : Sound s stack) (h : Stands s stack taken halt)
    (hm : Moves s stack a t stack') (hg : Clear s a) : Sound t stack' := by
  cases hm with
  | push hp hi => exact hs.produce h hp hi hg
  | same _ hp ha =>
    refine ⟨hp ▸ hs.unique, hs.alone, ?_⟩
    rcases ha with ha | ha
    · exact ha ▸ hs.bounds
    · exact ha ▸ hs.bounds_snoc h
  | pop hst _ hp ha =>
    subst hst
    refine ⟨hp ▸ hs.unique, fun d hd hr => ?_, ha ▸ hs.bounds_snoc h⟩
    have he := (List.cons.inj (hs.alone d (List.mem_cons_of_mem _ hd) hr)).2
    rw [he] at hd
    cases hd

theorem Spoilt.step (hb : Spoilt s stack) (h : Stands s stack taken halt)
    (hm : Moves s stack a t stack') : Spoilt t stack' := by
  rcases hb with ⟨c, hc, hv, hr⟩ | ⟨c, d, cs, hst, hr⟩
  · cases hm with
    | push hp hi => exact .inl ⟨c, List.mem_append_left _ hc, hv, hr⟩
    | same _ hp => exact .inl ⟨c, hp ▸ hc, hv, hr⟩
    | pop _ _ hp => exact .inl ⟨c, hp ▸ hc, hv, hr⟩
  · have hc : c ∈ stack := hst ▸ List.mem_cons_self
    cases hm with
    | push hp hi =>
      -- The last round is over.
      have hlt := h.round_lt (h.mem_stack hc) hr
      rw [hp] at hlt
      change 9 < s.i at hlt
      change s.i < 10 at hi
      omega
    | same => exact .inr ⟨c, d, cs, hst, hr⟩
    | pop hst' hne =>
      rw [hst] at hst'
      obtain ⟨rfl, -⟩ := List.cons.inj hst'
      exact (hne (h.marked c (h.mem_stack hc) hr)).elim

def Consumer.left : Consumer → Nat
  | .consume => 1
  | .wait | .done => 0

/-- The steps that are left, two for each permit that has been posted. -/
def St.rank (s : St) : Nat :=
  4 * (rounds - s.i) - s.producer.pending + 2 * s.sem + s.consumer.left

theorem Stands.rank_step (h : Stands s stack taken halt) (ht : PthSem.step s a = some t) :
    t.rank < s.rank := by
  have hroom := h.room
  unfold St.rank
  cases a with
  | produce r =>
    obtain ⟨⟨hp, hi, -⟩, rfl⟩ := of_guard ht
    simp only [St.produce, hp, Producer.pending]
    omega
  | post =>
    obtain ⟨hp, rfl⟩ := of_guard ht
    rw [hp] at hroom
    simp only [hp, Producer.pending] at hroom ⊢
    omega
  | wait =>
    obtain ⟨⟨hc, hs⟩, rfl⟩ := of_guard ht
    simp only [hc, Consumer.left]
    omega
  | consume =>
    obtain ⟨hc, rfl⟩ := of_guard ht
    simp only [St.consume, hc]
    split <;> exact Nat.lt_succ_self _

/-- Every schedule ends. -/
theorem inevitable_ended : sys.Inevitable Ended start := by
  apply Sys.Inevitable.of_wellFounded (S := sys)
    (I := fun s => ∃ stack taken halt, Stands s stack taken halt)
    (InvImage.wf St.rank Nat.lt_wfRel.wf)
  · intro s _ he
    obtain ⟨a, ha⟩ := not_forall.1 he
    obtain ⟨t, ht⟩ := Option.ne_none_iff_exists'.1 ha
    exact ⟨a, t, ht⟩
  · rintro s a t ⟨stack, taken, halt, h⟩ - ht
    obtain ⟨_, _, _, h', -⟩ := h.step ht
    exact ⟨⟨_, _, _, h'⟩, h.rank_step ht⟩
  · exact ⟨[], [], none, .start⟩

/-- At the end the producer is through, and a consumer that waits has no permit. -/
theorem Ended.eq (he : Ended s) (h : Stands s stack taken halt) :
    s.i = rounds ∧ s.producer = .produce ∧ s.consumer ≠ .consume ∧
      (s.consumer = .wait → s.sem = 0) := by
  have hpost : s.producer ≠ .post := fun hp => nomatch (if_pos hp).symm.trans (he .post)
  have hp : s.producer = .produce := by
    cases hp : s.producer with
    | produce => rfl
    | post => exact (hpost hp).elim
  have hroom := h.room
  rw [hp] at hroom
  refine ⟨Nat.le_antisymm hroom ?_, hp, ?_, ?_⟩
  · by_contra hi
    have hr : s.producer = .produce ∧ s.i < rounds ∧ 0 ≤ RAND_MAX :=
      ⟨hp, Nat.lt_of_not_le hi, Nat.zero_le _⟩
    exact nomatch (if_pos hr).symm.trans (he (.produce 0))
  · intro hc
    exact nomatch (if_pos hc).symm.trans (he .consume)
  · intro hc
    by_contra hs
    have hw : s.consumer = .wait ∧ 0 < s.sem := ⟨hc, Nat.pos_of_ne_zero hs⟩
    exact nomatch (if_pos hw).symm.trans (he .wait)

theorem Stands.mem_printed (h : Stands s stack taken halt) :
    c ∈ s.printed ↔ c ∈ taken ∨ halt = some c := by
  rw [h.printed, List.mem_append, Option.mem_toList]

/-- The marker is printed by the consumer that stops at it. -/
theorem Stands.halt_eq (h : Stands s stack taken halt) (hc : c ∈ s.printed)
    (hm : c.val = marker) : halt = some c :=
  (h.mem_printed.1 hc).resolve_left fun ht => h.unmarked c ht hm

theorem Stands.printed_produced (h : Stands s stack taken halt) (hc : c ∈ s.printed) :
    c ∈ s.produced := by
  rcases h.mem_printed.1 hc with ht | hh
  · exact h.mem_taken ht
  · exact h.mem_stack (h.stopped c hh).1

theorem Sound.law (hs : Sound s stack) (h : Stands s stack taken halt) : Law s where
  bounds := hs.bounds
  produced c hc := h.printed_produced hc
  once := by
    have hsub : halt.toList.Sublist stack := by
      cases hh : halt with
      | none => exact List.nil_sublist _
      | some c => exact List.singleton_sublist.2 (h.stopped c hh).1
    rw [h.printed]
    exact h.nodup.sublist ((hsub.append_left taken).map Cell.round)
  stops := by
    rw [h.halted, Option.isSome_iff_exists]
    constructor
    · rintro ⟨c, hc⟩
      obtain ⟨hst, hm⟩ := h.stopped c hc
      exact ⟨c, h.mem_printed.2 (.inr hc), hs.unique c (h.mem_stack hst) hm⟩
    · rintro ⟨c, hc, hr⟩
      exact ⟨c, h.halt_eq hc (h.marked c (h.printed_produced hc) hr)⟩
  all := by
    intro he
    obtain ⟨hi, hp, hc, hw⟩ := he.eq h
    obtain ⟨m, hm, hr⟩ := h.last (by rw [hi, hp]; rfl)
    have hstack := hs.alone m hm hr
    have hdone : s.consumer = .done := by
      cases hcon : s.consumer with
      | consume => exact (hc hcon).elim
      | done => rfl
      | wait =>
        have hlen := h.permits
        rw [hp, hcon, hw hcon, hstack] at hlen
        cases hlen
    obtain ⟨c, hh⟩ := Option.isSome_iff_exists.1 (h.halted.1 hdone)
    refine ⟨hi, fun d hd => h.mem_printed.2 ?_⟩
    rcases List.mem_append.1 (h.split.mem_iff.1 hd) with ht | hd
    · exact .inl ht
    · have hcs := (h.stopped c hh).1
      rw [hstack, List.mem_singleton] at hd hcs
      exact .inr (hd ▸ hcs ▸ hh)

/-- What was spoilt has cost a cell by the end: the consumer has stopped at one marker, and there
is a second one or a cell under it. -/
theorem Spoilt.breaks (hb : Spoilt s stack) (h : Stands s stack taken halt) (he : Ended s) :
    ¬ Law s := by
  intro hl
  have hall := (hl.all he).2
  rcases hb with ⟨c, hc, hv, hr⟩ | ⟨c, d, cs, hst, hr⟩
  · have hh := h.halt_eq (hall c hc) hv
    obtain ⟨m, hm, hr'⟩ := hl.stops.1 (h.halted.2 (hh ▸ rfl))
    have hh' := h.halt_eq hm (h.marked m (h.printed_produced hm) hr')
    rw [hh] at hh'
    exact hr (Option.some.inj hh' ▸ hr')
  · subst hst
    have hc := h.mem_stack List.mem_cons_self
    have hd := h.mem_stack (List.mem_cons_of_mem c List.mem_cons_self)
    have hh := h.halt_eq (hall c hc) (h.marked c hc hr)
    have hnodup := h.nodup
    rw [List.map_append, List.nodup_append] at hnodup
    rcases h.mem_printed.1 (hall d hd) with ht | hd
    · exact hnodup.2.2 _ (List.mem_map_of_mem ht) _
        (List.mem_map_of_mem (List.mem_cons_of_mem c List.mem_cons_self)) rfl
    · obtain rfl := Option.some.inj (hh.symm.trans hd)
      exact (List.nodup_cons.1 hnodup.2.1).1 (List.mem_map_of_mem List.mem_cons_self)

/-- The law holds as long as the rule is kept, and at the end of a run only then. -/
theorem marker_law (hr : sys.run as start = some t) :
    (sys.Along Clear as start → Law t) ∧ (Ended t → Law t → sys.Along Clear as start) := by
  have hor := sys.along_or (G := Clear)
    (I := fun s => ∃ stack taken halt, Stands s stack taken halt ∧ Sound s stack)
    (B := fun s => ∃ stack taken halt, Stands s stack taken halt ∧ Spoilt s stack)
    ?_ ?_ ?_ ⟨[], [], none, .start, .start⟩ hr
  · rcases hor with ⟨ha, stack, taken, halt, h, hs⟩ | ⟨hna, stack, taken, halt, h, hb⟩
    · exact ⟨fun _ => hs.law h, fun _ _ => ha⟩
    · exact ⟨fun ha => (hna ha).elim, fun he hl => (hb.breaks h he hl).elim⟩
  · rintro s a u ⟨stack, taken, halt, h, hs⟩ hg hu
    obtain ⟨_, _, _, h', hm⟩ := h.step hu
    exact ⟨_, _, _, h', hs.step h hm hg⟩
  · rintro s a u ⟨stack, taken, halt, h, -⟩ hg hu
    obtain ⟨_, _, _, h', hm⟩ := h.step hu
    cases hm with
    | push hp hi => exact ⟨_, _, _, h', .produce h hg⟩
    | same hc => exact (hg hc).elim
    | pop => exact (hg trivial).elim
  · rintro s a u ⟨stack, taken, halt, h, hb⟩ hu
    obtain ⟨_, _, _, h', hm⟩ := h.step hu
    exact ⟨_, _, _, h', hb.step h hm⟩

/-- Each round is printed before the next one. -/
def alternating : List Act :=
  (List.range rounds).flatMap fun i => [.produce i, .post, .wait, .consume]

theorem marker_law_alternating : ∃ t, sys.run alternating start = some t ∧ Law t := by
  obtain ⟨t, ht⟩ : ∃ t, sys.run alternating start = some t :=
    Option.isSome_iff_exists.1 (by decide +kernel)
  exact ⟨t, ht, (marker_law ht).1 (by decide +kernel)⟩

/-- The producer runs through before the consumer starts. -/
def ahead : List Act := (List.range rounds).flatMap fun i => [.produce i, .post]

theorem not_marker_law : ¬ ∀ as t, sys.run as start = some t → Law t := by
  intro h
  have hrun : (sys.run ahead start).map St.accessed = some [1, 2, 3, 4, 5, 6, 7, 8, 9, 10] := by
    decide +kernel
  obtain ⟨t, ht, ha⟩ := Option.map_eq_some_iff.1 hrun
  exact absurd ((h ahead t ht).bounds 10 (ha ▸ by decide)).2 (by decide)

end LinuxIpc.PthSem
