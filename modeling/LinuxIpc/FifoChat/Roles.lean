import LinuxIpc.FifoChat.Opening

namespace LinuxIpc.FifoChat.Roles
set_option autoImplicit true
set_option linter.unusedSectionVars false

open Function (update update_self update_of_ne)
open Rendezvous (Mode Ends)

/-- Whether a process finds `FIFO1` without a reader and reads it itself, or writes to it. -/
inductive Role
  | reads
  | writes
  deriving DecidableEq

/-- The `open` that a process makes next or is blocked in, having seen so many openings of the
other end. -/
inductive Pc
  -- `open(FIFO1,O_WRONLY|O_NONBLOCK)`
  | probe
  -- `rfd = open(FIFO1,O_RDONLY|O_NONBLOCK)` and `wfd = open(FIFO2,O_WRONLY)`
  | readEnd1
  | writeEnd2
  | blocked2 (seen : Nat)
  -- `wfd = open(FIFO1,O_WRONLY)` and `rfd = open(FIFO2,O_RDONLY)`
  | writeEnd1
  | blocked1 (seen : Nat)
  | readEnd2
  | blockedRead (seen : Nat)
  | chats (r : Role)
  deriving DecidableEq

/-- `late` records whether a process has found `FIFO1` with a reader. -/
structure St (ι : Type u) where
  ends : Ends Name
  pc : ι → Pc
  late : Bool

variable {ι : Type u} [DecidableEq ι]

/-- A blocking `open` of `x`: it returns where the other end is open. -/
def St.opens (s : St ι) (i : ι) (x : Name × Mode) (through : Pc) (blocked : Nat → Pc) : St ι :=
  { s with
    ends := s.ends.enter x
    pc := update s.pc i (if 0 < s.ends.here (Rendezvous.facing x) then through
      else blocked (s.ends.opened (Rendezvous.facing x))) }

/-- It returns later when the other end has been opened. -/
def St.wakes (s : St ι) (i : ι) (y : Name × Mode) (seen : Nat) (through : Pc) : Option (St ι) :=
  if s.ends.opened y ≠ seen then some { s with pc := update s.pc i through } else none

/-- No process has left yet, so that every end stays open. -/
def step (s : St ι) (i : ι) : Option (St ι) :=
  match s.pc i with
  | .probe =>
    if 0 < s.ends.here (.fifo1, .read) then
      some { ends := s.ends.enter (.fifo1, .write), pc := update s.pc i .writeEnd1, late := true }
    else some { s with pc := update s.pc i .readEnd1 }
  | .readEnd1 => some { s with
      ends := s.ends.enter (.fifo1, .read)
      pc := update s.pc i .writeEnd2 }
  | .writeEnd2 => some (s.opens i (.fifo2, .write) (.chats .reads) .blocked2)
  | .blocked2 seen => s.wakes i (.fifo2, .read) seen (.chats .reads)
  | .writeEnd1 => some (s.opens i (.fifo1, .write) .readEnd2 .blocked1)
  | .blocked1 seen => s.wakes i (.fifo1, .read) seen .readEnd2
  | .readEnd2 => some (s.opens i (.fifo2, .read) (.chats .writes) .blockedRead)
  | .blockedRead seen => s.wakes i (.fifo2, .write) seen (.chats .writes)
  | .chats _ => none

def start : St ι := ⟨.none, fun _ => .probe, false⟩

variable (ι) in
def sys : Sys (St ι) ι := ⟨(· = start), step⟩

/-- The ends that a process has opened. -/
def Pc.has : Pc → List (Name × Mode)
  | .writeEnd2 => [(.fifo1, .read)]
  | .blocked2 _ | .chats .reads => [(.fifo1, .read), (.fifo2, .write)]
  | .writeEnd1 | .blocked1 _ | .readEnd2 => [(.fifo1, .write)]
  | .blockedRead _ | .chats .writes => [(.fifo1, .write), (.fifo2, .read)]
  | .probe | .readEnd1 => []

/-- Nobody has been at the other end when a process was blocked there, and at `FIFO1` nobody is. -/
def Pc.Ok : Pc → Prop
  | .blocked2 seen | .blockedRead seen => seen = 0
  | .blocked1 _ => False
  | _ => True

structure Inv (s : St ι) : Prop where
  here : s.ends.here = s.ends.opened
  has : ∀ x, 0 < s.ends.opened x ↔ ∃ i, x ∈ (s.pc i).has
  ok : ∀ i, (s.pc i).Ok
  probed : s.late = true ↔ 0 < s.ends.opened (.fifo1, .write)
  reader : s.late = true → 0 < s.ends.opened (.fifo1, .read)
  chats : ∀ i r, s.pc i = .chats r → s.late = true

theorem exists_has {f : ι → Pc} (i : ι) (pc : Pc) (y : Name × Mode) :
    (∃ j, y ∈ (update f i pc j).has) ↔ y ∈ pc.has ∨ ∃ j, j ≠ i ∧ y ∈ (f j).has :=
  Function.exists_update_iff f fun _ pc => y ∈ pc.has

namespace Inv

variable {s : St ι}

theorem start : Inv (start : St ι) where
  here := rfl
  has _ := ⟨fun h => absurd h (Nat.lt_irrefl 0), fun ⟨_, h⟩ => nomatch h⟩
  ok _ := trivial
  probed := ⟨nofun, fun h => absurd h (Nat.lt_irrefl 0)⟩
  reader := nofun
  chats := nofun

/-- A process opens `x`. -/
theorem enter (h : Inv s) (hmem : ∀ y, y ∈ pc.has ↔ y = x ∨ y ∈ (s.pc i).has) (hok : pc.Ok)
    (hlate : late = true ↔ s.late = true ∨ x = (.fifo1, .write))
    (hreader : late = true → 0 < s.ends.opened (.fifo1, .read))
    (hchats : ∀ r, pc = .chats r → late = true) :
    Inv { ends := s.ends.enter x, pc := update s.pc i pc, late := late } := by
  have hopened (y : Name × Mode) :
      0 < (s.ends.enter x).opened y ↔ y = x ∨ 0 < s.ends.opened y := by
    by_cases hy : y = x
    · subst hy
      simp only [Ends.enter, update_self, Nat.succ_pos, true_or]
    · simp only [Ends.enter, update_of_ne hy, hy, false_or]
  constructor
  case here =>
    change update s.ends.here x (s.ends.here x + 1) = update s.ends.opened x (s.ends.opened x + 1)
    rw [h.here]
  case has =>
    intro y
    rw [hopened y, exists_has, hmem y, h.has y]
    constructor
    · rintro (hy | ⟨j, hj⟩)
      · exact .inl (.inl hy)
      · by_cases hji : j = i
        · exact .inl (.inr (hji ▸ hj))
        · exact .inr ⟨j, hji, hj⟩
    · rintro ((hy | hi) | ⟨j, -, hj⟩)
      · exact .inl hy
      · exact .inr ⟨i, hi⟩
      · exact .inr ⟨j, hj⟩
  case ok =>
    intro j
    by_cases hj : j = i
    · subst hj
      simpa only [update_self] using hok
    · simpa only [update_of_ne hj] using h.ok j
  case probed =>
    change late = true ↔ 0 < (s.ends.enter x).opened (.fifo1, .write)
    rw [hlate, hopened, h.probed, or_comm, eq_comm (a := x)]
  case reader => exact fun hl => (hopened _).2 (.inr (hreader hl))
  case chats =>
    intro j r hj
    by_cases hji : j = i
    · subst hji
      simp only [update_self] at hj
      exact hchats r hj
    · simp only [update_of_ne hji] at hj
      exact hlate.2 (.inl (h.chats j r hj))

/-- A process goes on without opening anything. -/
theorem stay (h : Inv s) (hmem : pc.has = (s.pc i).has) (hok : pc.Ok)
    (hchats : ∀ r, pc = .chats r → s.late = true) : Inv { s with pc := update s.pc i pc } :=
  { h with
    has := by
      intro y
      have hsame (j : ι) : (update s.pc i pc j).has = (s.pc j).has := update_same Pc.has hmem j
      simp only [hsame]
      exact h.has y
    ok := by
      intro j
      by_cases hj : j = i
      · subst hj
        simpa only [update_self] using hok
      · simpa only [update_of_ne hj] using h.ok j
    chats := by
      intro j r hj
      by_cases hji : j = i
      · subst hji
        simp only [update_self] at hj
        exact hchats r hj
      · simp only [update_of_ne hji] at hj
        exact h.chats j r hj }

theorem late_of_has (h : Inv s) (hi : (.fifo1, .write) ∈ (s.pc i).has) : s.late = true :=
  h.probed.2 ((h.has _).2 ⟨i, hi⟩)

/-- One that reads `FIFO2` writes to `FIFO1`. -/
theorem late_of_read (h : Inv s) (hx : 0 < s.ends.opened (.fifo2, .read)) : s.late = true := by
  obtain ⟨i, hi⟩ := (h.has _).1 hx
  apply h.late_of_has (i := i)
  cases hpc : s.pc i with
  | chats r =>
    rw [hpc] at hi
    cases r
    · exact absurd hi (by decide)
    · exact List.mem_cons_self
  | blockedRead seen => exact List.mem_cons_self
  | _ =>
    rw [hpc] at hi
    simp [Pc.has] at hi

/-- What a blocking `open` comes to where every end that has been opened is still open. -/
theorem opens_eq (h : Inv s) (i : ι) (x : Name × Mode) (through : Pc) (blocked : Nat → Pc) :
    s.opens i x through blocked = { s with
      ends := s.ends.enter x
      pc := update s.pc i (if 0 < s.ends.opened (Rendezvous.facing x) then through
        else blocked 0) } := by
  rw [St.opens, h.here]
  split
  · rfl
  · rename_i hn
    rw [Nat.eq_zero_of_not_pos hn]

theorem opens (h : Inv s) (hmem : ∀ y, y ∈ through.has ↔ y = x ∨ y ∈ (s.pc i).has)
    (hsame : (blocked 0).has = through.has) (hok : through.Ok)
    (hok' : 0 < s.ends.opened (Rendezvous.facing x) ∨ (blocked 0).Ok)
    (hx : x = (.fifo1, .write) → s.late = true)
    (hchats : ∀ r, through = .chats r → 0 < s.ends.opened (Rendezvous.facing x) → s.late = true)
    (hblocked : ∀ r, blocked 0 ≠ .chats r) : Inv (s.opens i x through blocked) := by
  rw [h.opens_eq]
  have hlate : s.late = true ↔ s.late = true ∨ x = (.fifo1, .write) :=
    ⟨.inl, fun hl => hl.elim id hx⟩
  split
  · rename_i hpos
    exact h.enter hmem hok hlate h.reader fun r hr => hchats r hr hpos
  · rename_i hpos
    exact h.enter (fun y => hsame ▸ hmem y) (hok'.resolve_left hpos) hlate h.reader
      fun r hr => absurd hr (hblocked r)

theorem step {s' : St ι} (h : Inv s) (hs : Roles.step s i = some s') : Inv s' := by
  have hok := h.ok i
  unfold Roles.step at hs
  split at hs
  · rename_i hpc
    split at hs
    · rename_i hr
      rw [h.here] at hr
      refine Option.some.inj hs ▸ h.enter (fun y => ?_) trivial ?_ (fun _ => hr) nofun
      · rw [hpc]
        simp only [Pc.has, List.mem_singleton, List.not_mem_nil, or_false]
      · exact ⟨fun _ => .inr rfl, fun _ => rfl⟩
    · exact Option.some.inj hs ▸ h.stay (by rw [hpc]; rfl) trivial nofun
  · rename_i hpc
    refine Option.some.inj hs ▸ h.enter (fun y => ?_) trivial ?_ h.reader nofun
    · rw [hpc]
      simp only [Pc.has, List.mem_singleton, List.not_mem_nil, or_false]
    · exact ⟨.inl, fun hl => hl.resolve_right (by decide)⟩
  · rename_i hpc
    refine Option.some.inj hs ▸ h.opens (fun y => ?_) rfl trivial (.inr rfl) (fun hx => ?_)
      (fun _ _ hr => h.late_of_read hr) nofun
    · rw [hpc]
      simp only [Pc.has, List.mem_cons, List.not_mem_nil, or_false]
      exact or_comm
    · exact absurd hx (by decide)
  · rename_i seen hpc
    rw [hpc] at hok
    obtain rfl : seen = 0 := hok
    obtain ⟨hne, rfl⟩ := of_guard hs
    exact h.stay (by rw [hpc]; rfl) trivial fun _ _ => h.late_of_read (Nat.pos_of_ne_zero hne)
  · rename_i hpc
    have hl : s.late = true := h.late_of_has (i := i) (by rw [hpc]; exact List.mem_singleton_self _)
    refine Option.some.inj hs ▸ h.opens (fun y => ?_) rfl trivial (.inl (h.reader hl)) (fun _ => hl)
      nofun nofun
    rw [hpc]
    simp only [Pc.has, List.mem_singleton, or_self]
  · rename_i seen hpc
    rw [hpc] at hok
    exact hok.elim
  · rename_i hpc
    have hl : s.late = true := h.late_of_has (i := i) (by rw [hpc]; exact List.mem_singleton_self _)
    refine Option.some.inj hs ▸ h.opens (fun y => ?_) rfl trivial (.inr rfl) (fun _ => hl)
      (fun _ _ _ => hl) nofun
    rw [hpc]
    simp only [Pc.has, List.mem_cons, List.not_mem_nil, or_false]
    exact or_comm
  · rename_i seen hpc
    have hl : s.late = true := h.late_of_has (i := i) (by rw [hpc]; exact List.mem_cons_self)
    obtain ⟨-, rfl⟩ := of_guard hs
    exact h.stay (by rw [hpc]; rfl) trivial fun _ _ => hl
  · cases hs

end Inv

/-- The steps a process has left, at most. -/
def Pc.rank : Pc → Nat
  | .probe => 5
  | .readEnd1 | .writeEnd1 => 4
  | .writeEnd2 | .blocked1 _ => 3
  | .readEnd2 => 2
  | .blocked2 _ | .blockedRead _ => 1
  | .chats _ => 0

/-- All are through where a process has found `FIFO1` with a reader; else all are blocked. -/
def Paired (s : St ι) : Prop :=
  (∀ i, step s i = none) ∧
    if s.late then ∀ i, ∃ r, s.pc i = .chats r else ∀ i, s.pc i = .blocked2 0

namespace Inv

variable {s : St ι}

/-- A process that cannot go on is through, or is blocked at an end that nobody faces. -/
theorem of_none (h : Inv s) (hs : Roles.step s i = none) :
    (∃ r, s.pc i = .chats r) ∨ (s.pc i = .blocked2 0 ∧ s.ends.opened (.fifo2, .read) = 0) ∨
      s.pc i = .blockedRead 0 ∧ s.ends.opened (.fifo2, .write) = 0 := by
  have hok := h.ok i
  unfold Roles.step at hs
  cases hpc : s.pc i with
  | probe =>
    simp only [hpc] at hs
    split at hs <;> cases hs
  | readEnd1 => simp only [hpc, reduceCtorEq] at hs
  | writeEnd2 => simp only [hpc, reduceCtorEq] at hs
  | writeEnd1 => simp only [hpc, reduceCtorEq] at hs
  | readEnd2 => simp only [hpc, reduceCtorEq] at hs
  | blocked1 seen =>
    rw [hpc] at hok
    exact hok.elim
  | chats r => exact .inl ⟨r, rfl⟩
  | blocked2 seen =>
    rw [hpc] at hok
    obtain rfl : seen = 0 := hok
    simp only [hpc, St.wakes, ite_eq_right_iff, reduceCtorEq, imp_false, not_not] at hs
    exact .inr (.inl ⟨rfl, hs⟩)
  | blockedRead seen =>
    rw [hpc] at hok
    obtain rfl : seen = 0 := hok
    simp only [hpc, St.wakes, ite_eq_right_iff, reduceCtorEq, imp_false, not_not] at hs
    exact .inr (.inr ⟨rfl, hs⟩)

theorem paired (h : Inv s) (hs : ∀ i, Roles.step s i = none) : Paired s := by
  refine ⟨hs, ?_⟩
  split
  · rename_i hl
    -- One that found a reader has opened `FIFO2` to read, and that reader has opened it to write.
    have hread : 0 < s.ends.opened (.fifo2, .read) := by
      obtain ⟨i, hi⟩ := (h.has _).1 (h.probed.1 hl)
      apply (h.has _).2 ⟨i, ?_⟩
      rcases h.of_none (hs i) with ⟨r, hr⟩ | ⟨hb, -⟩ | ⟨hb, -⟩
      · rw [hr] at hi ⊢
        cases r with
        | reads => exact absurd hi (by decide)
        | writes => decide
      · rw [hb] at hi
        exact absurd hi (by decide)
      · rw [hb]
        decide
    have hwrite : 0 < s.ends.opened (.fifo2, .write) := by
      obtain ⟨i, hi⟩ := (h.has _).1 (h.reader hl)
      apply (h.has _).2 ⟨i, ?_⟩
      rcases h.of_none (hs i) with ⟨r, hr⟩ | ⟨-, hzero⟩ | ⟨hb, -⟩
      · rw [hr] at hi ⊢
        cases r with
        | reads => decide
        | writes => exact absurd hi (by decide)
      · omega
      · rw [hb] at hi
        exact absurd hi (by decide)
    intro i
    rcases h.of_none (hs i) with hr | ⟨-, hzero⟩ | ⟨-, hzero⟩
    · exact hr
    · omega
    · omega
  · rename_i hl
    intro i
    rcases h.of_none (hs i) with ⟨r, hr⟩ | ⟨hb, -⟩ | ⟨hb, -⟩
    · exact (hl (h.chats i r hr)).elim
    · exact hb
    · exact (hl (h.late_of_has (i := i) (by rw [hb]; exact List.mem_cons_self))).elim

end Inv

variable [Fintype ι]

theorem rank_step {s s' : St ι} (hs : step s i = some s') :
    total Pc.rank s'.pc < total Pc.rank s.pc := by
  have hupdate {pc : Pc} (hlt : pc.rank < (s.pc i).rank) :
      total Pc.rank (update s.pc i pc) < total Pc.rank s.pc := total_update_lt hlt
  unfold step at hs
  split at hs
  all_goals
    rename_i hpc
    rw [hpc] at hupdate
  · split at hs <;> exact Option.some.inj hs ▸ hupdate (by decide)
  · exact Option.some.inj hs ▸ hupdate (by decide)
  · refine Option.some.inj hs ▸ hupdate ?_
    split <;> simp [Pc.rank]
  · obtain ⟨-, rfl⟩ := of_guard hs
    exact hupdate (by simp [Pc.rank])
  · refine Option.some.inj hs ▸ hupdate ?_
    split <;> simp [Pc.rank]
  · obtain ⟨-, rfl⟩ := of_guard hs
    exact hupdate (by simp [Pc.rank])
  · refine Option.some.inj hs ▸ hupdate ?_
    split <;> simp [Pc.rank]
  · obtain ⟨-, rfl⟩ := of_guard hs
    exact hupdate (by simp [Pc.rank])
  · cases hs

/-- Processes of `123`, any number of them, come to chat in every schedule in which one of them
finds `FIFO1` with a reader, and in every other schedule all are blocked for good. -/
theorem inevitable_paired : (sys ι).Inevitable Paired start := by
  apply Sys.Inevitable.of_wellFounded (S := sys ι) (I := Inv)
    (InvImage.wf (fun s => total Pc.rank s.pc) Nat.lt_wfRel.wf)
  · intro s h hg
    by_contra hn
    apply hg
    apply h.paired
    intro i
    cases hs : step s i with
    | none => rfl
    | some s' => exact (hn ⟨i, s', hs⟩).elim
  · intro s i s' h _ hs
    exact ⟨h.step hs, rank_step hs⟩
  · exact .start

end LinuxIpc.FifoChat.Roles
