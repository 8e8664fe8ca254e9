import LinuxIpc.SlotChat.Admission

namespace LinuxIpc.SlotChat.Handoff
set_option autoImplicit true

/-- A server that creates a handler for each connection and hands it the address of the variable
that the next `accept` overwrites. -/
structure Listener (τ : Type) where
  start : τ
  -- what an accept iteration does with the table, and whether it creates a handler
  seat : τ → Int → Bool → τ × Bool
  -- what a handler does with the table when it ends
  leave : τ → Int → τ
  -- whether it closes its descriptor then
  closes : Bool

/-- `t1s.c`: the variable is `clifd`, and a handler ends when its `recv` fails. -/
def t1s : Listener Table where
  start := SlotChat.start
  seat p fd ok := ((accept .t1s p fd ok).1, decide (.create .cell ∈ (accept .t1s p fd ok).2))
  leave := release
  closes := false

/-- `tcptest/s1.c`: the variable is `client_sock`, there is no table, and a handler closes its
descriptor after `quit`. -/
def s1 : Listener Unit where
  start := ()
  seat _ _ ok := ((), ok)
  leave _ _ := ()
  closes := true

inductive Server where
  | t1s
  | s1
  deriving DecidableEq, Repr

def Server.State : Server → Type
  | .t1s => Table
  | .s1 => Unit

def Server.listener : (v : Server) → Listener v.State
  | .t1s => Handoff.t1s
  | .s1 => Handoff.s1

/-- `cell` is the variable. Recorded are the descriptors accepted with a handler created, and those
that handlers have read on starting; `serving` are the descriptors of the handlers that run. -/
structure St (τ : Type) where
  cell : Int
  table : τ
  pending : Nat
  given : List Int
  read : List Int
  serving : List Int
  opened : List Int

inductive Act where
  -- `ok` tells whether `pthread_create` succeeds
  | accept (fd : Int) (ok : Bool)
  -- `*(int*)arg` in one of the handlers that have not started yet
  | start
  | finish (fd : Int)
  deriving DecidableEq, Repr

section
variable {τ : Type} {L : Listener τ} {s t : St τ} {v : Int}

/-- No descriptor is accepted that is still open. -/
def step (L : Listener τ) (s : St τ) : Act → Option (St τ)
  | .accept fd ok =>
    if fd ∉ s.opened then
      let (table, created) := L.seat s.table fd ok
      some { s with
        cell := fd
        table := table
        pending := if created then s.pending + 1 else s.pending
        given := if created then s.given ++ [fd] else s.given
        opened := fd :: s.opened }
    else none
  | .start =>
    if 0 < s.pending then
      some { s with
        pending := s.pending - 1
        read := s.read ++ [s.cell]
        serving := s.cell :: s.serving }
    else none
  | .finish fd =>
    if fd ∈ s.serving then
      some { s with
        table := L.leave s.table fd
        serving := s.serving.erase fd
        opened := if L.closes then s.opened.erase fd else s.opened }
    else none

/-- The variable is not initialised. -/
def begin (L : Listener τ) (cell : Int) : St τ := ⟨cell, L.start, 0, [], [], [], []⟩

def sys (L : Listener τ) : Sys (St τ) Act := ⟨fun s => ∃ cell, s = begin L cell, step L⟩

/-- Nothing is accepted while a handler has not started. -/
def Calm (s : St τ) : Act → Prop
  | .accept _ _ => s.pending = 0
  | .start | .finish _ => True

instance (s : St τ) (a : Act) : Decidable (Calm s a) := by
  cases a <;> unfold Calm <;> infer_instance

/-- At most one handler has not started, and its descriptor is in the variable. -/
structure Fair (s : St τ) : Prop where
  pending : s.pending = 0 ∧ s.given = s.read ∨
    s.pending = 1 ∧ s.given = s.read ++ [s.cell] ∧ s.cell ∈ s.opened ∧ s.cell ∉ s.serving
  nodup : s.serving.Nodup
  opened : s.serving ⊆ s.opened

/-- The descriptor `v` has been given away and will not be read. -/
structure Lost (v : Int) (s : St τ) : Prop where
  short : s.read.count v < s.given.count v
  cell : s.cell ≠ v
  opened : v ∈ s.opened
  serving : v ∉ s.serving

theorem Fair.begin (L : Listener τ) (c : Int) : Fair (begin L c) :=
  ⟨.inl ⟨rfl, rfl⟩, .nil, List.Subset.refl _⟩

theorem Fair.accept (h : Fair s) (hc : s.pending = 0) (ht : step L s (.accept fd ok) = some t) :
    Fair t := by
  obtain ⟨hfd, rfl⟩ := of_guard ht
  have hgiven : s.given = s.read := by
    rcases h.pending with ⟨-, hg⟩ | ⟨h1, -⟩
    · exact hg
    · rw [hc] at h1
      cases h1
  refine ⟨?_, h.nodup, fun x hx => List.mem_cons_of_mem _ (h.opened hx)⟩
  cases hcr : (L.seat s.table fd ok).2 with
  | true =>
    right
    simp only [↓reduceIte, hc, hgiven, List.mem_cons_self, true_and]
    exact fun hs => hfd (h.opened hs)
  | false =>
    left
    simp only [Bool.false_eq_true, ↓reduceIte]
    exact ⟨hc, hgiven⟩

theorem Fair.start (h : Fair s) (ht : step L s .start = some t) : Fair t := by
  obtain ⟨hpos, rfl⟩ := of_guard ht
  rcases h.pending with ⟨h0, -⟩ | ⟨h1, hg, ho, hs⟩
  · rw [h0] at hpos
    cases hpos
  · refine ⟨.inl ⟨?_, hg⟩, ?_, ?_⟩
    · rw [h1]
    · exact List.nodup_cons.2 ⟨hs, h.nodup⟩
    · exact List.cons_subset.2 ⟨ho, h.opened⟩

theorem Fair.finish (h : Fair s) (ht : step L s (.finish fd) = some t) : Fair t := by
  obtain ⟨hfd, rfl⟩ := of_guard ht
  have hkeep : ∀ x ∈ s.opened, x ≠ fd → x ∈ if L.closes then s.opened.erase fd else s.opened := by
    intro x hx hne
    split
    · exact (List.mem_erase_of_ne hne).2 hx
    · exact hx
  refine ⟨?_, h.nodup.erase fd, ?_⟩
  · rcases h.pending with h0 | ⟨h1, hg, ho, hs⟩
    · exact .inl h0
    · refine .inr ⟨h1, hg, ?_, fun hm => hs (List.mem_of_mem_erase hm)⟩
      exact hkeep _ ho fun he => hs (he ▸ hfd)
  · intro x hx
    have hx' := (h.nodup.mem_erase_iff).1 hx
    exact hkeep x (h.opened hx'.2) hx'.1

theorem Fair.step (h : Fair s) (hc : Calm s a) (ht : step L s a = some t) : Fair t := by
  cases a with
  | accept fd ok => exact h.accept hc ht
  | start => exact h.start ht
  | finish fd => exact h.finish ht

theorem count_given (ht : Handoff.step L s (.accept fd ok) = some t) :
    s.given.count v ≤ t.given.count v := by
  obtain ⟨-, rfl⟩ := of_guard ht
  dsimp only
  split
  · rw [List.count_append]
    exact Nat.le_add_right ..
  · exact Nat.le_refl _

/-- An accept that comes too early overwrites a descriptor. -/
theorem Fair.lost (h : Fair s) (hc : s.pending ≠ 0)
    (ht : Handoff.step L s (.accept fd ok) = some t) : Lost s.cell t := by
  have hcount := count_given ht (v := s.cell)
  obtain ⟨hfd, rfl⟩ := of_guard ht
  rcases h.pending with ⟨h0, -⟩ | ⟨-, hg, ho, hs⟩
  · exact (hc h0).elim
  · have hne : fd ≠ s.cell := fun he => hfd (he ▸ ho)
    have hshort : s.read.count s.cell < s.given.count s.cell := by
      rw [hg, List.count_append, List.count_singleton_self]
      exact Nat.lt_succ_self _
    exact ⟨Nat.lt_of_lt_of_le hshort hcount, hne, List.mem_cons_of_mem _ ho, hs⟩

/-- As it stays open and no handler has it, it does not come back. -/
theorem Lost.step (h : Lost v s) (ht : Handoff.step L s a = some t) : Lost v t := by
  cases a with
  | accept fd ok =>
    have hcount := count_given ht (v := v)
    obtain ⟨hfd, rfl⟩ := of_guard ht
    have hne : fd ≠ v := fun he => hfd (he ▸ h.opened)
    exact ⟨Nat.lt_of_lt_of_le h.short hcount, hne, List.mem_cons_of_mem _ h.opened, h.serving⟩
  | start =>
    obtain ⟨-, rfl⟩ := of_guard ht
    refine ⟨?_, h.cell, h.opened, ?_⟩
    · dsimp only
      rw [List.count_append, List.count_cons_of_ne h.cell, List.count_nil]
      exact h.short
    · rw [List.mem_cons, not_or]
      exact ⟨h.cell.symm, h.serving⟩
  | finish fd =>
    obtain ⟨hfd, rfl⟩ := of_guard ht
    have hne : v ≠ fd := fun he => h.serving (he ▸ hfd)
    refine ⟨h.short, h.cell, ?_, fun hm => h.serving (List.mem_of_mem_erase hm)⟩
    dsimp only
    split
    · exact (List.mem_erase_of_ne hne).2 h.opened
    · exact h.opened

theorem Lost.not_perm (h : Lost v s) : ¬ s.read.Perm s.given := fun hp =>
  Nat.ne_of_lt h.short (hp.count_eq v)

theorem Fair.perm (h : Fair s) (hp : s.pending = 0) : s.read.Perm s.given := by
  rcases h.pending with ⟨-, hg⟩ | ⟨h1, -⟩
  · rw [hg]
  · rw [hp] at h1
    cases h1

theorem Fair.perm_iff (h : Fair s) (hr : (sys L).run as s = some t) (hp : t.pending = 0) :
    t.read.Perm t.given ↔ (sys L).Along Calm as s := by
  have hrun : (sys L).Along Calm as s ∧ Fair t ∨ ¬ (sys L).Along Calm as s ∧ ∃ v, Lost v t := by
    refine Sys.along_or (G := Calm) (B := fun t => ∃ v, Lost v t) ?_ ?_ ?_ h hr
    · intro s a t hs hc hu
      exact hs.step hc hu
    · intro s a t hs hc hu
      cases a with
      | accept fd ok => exact ⟨_, hs.lost hc hu⟩
      | start => exact (hc trivial).elim
      | finish fd => exact (hc trivial).elim
    · rintro s a t ⟨v, hv⟩ hu
      exact ⟨v, hv.step hu⟩
  rcases hrun with ⟨ha, ht⟩ | ⟨ha, v, hv⟩
  · exact ⟨fun _ => ha, fun _ => ht.perm hp⟩
  · exact ⟨fun hperm => (hv.not_perm hperm).elim, fun hb => (ha hb).elim⟩

end

/-- Once all handlers have started, they have read the descriptors that were accepted for them
exactly if each had started before the next `accept`. -/
theorem handed_over_iff (v : Server) (c : Int) {s : St v.State}
    (h : (sys v.listener).run as (begin v.listener c) = some s) (hp : s.pending = 0) :
    s.read.Perm s.given ↔ (sys v.listener).Along Calm as (begin v.listener c) :=
  (Fair.begin v.listener c).perm_iff h hp

/-- Two clients connect before the first handler has started. -/
theorem not_handed_over :
    (∃ as s, (sys t1s).run as (begin t1s 0) = some s ∧ s.pending = 0 ∧ ¬ s.read.Perm s.given) ∧
    ∃ as s, (sys s1).run as (begin s1 0) = some s ∧ s.pending = 0 ∧ ¬ s.read.Perm s.given := by
  constructor
  · exact ⟨[.accept 4 true, .accept 5 true, .start, .start], _, rfl, rfl, by decide⟩
  · exact ⟨[.accept 4 true, .accept 5 true, .start, .start], _, rfl, rfl, by decide⟩

/-- The second client connects when the first one has left. -/
def slowly : List Act := [.accept 4 true, .start, .finish 4, .accept 4 true, .start]

theorem handed_over_iff_slowly : ∃ s,
    (sys Server.s1.listener).run slowly (begin Server.s1.listener 0) = some s ∧
      s.given = [4, 4] ∧ s.read.Perm s.given := by
  have hr : ∃ s, (sys Server.s1.listener).run slowly (begin Server.s1.listener 0) = some s ∧
      s.pending = 0 ∧ s.given = [4, 4] := ⟨_, rfl, rfl, rfl⟩
  obtain ⟨s, hs, hp, hg⟩ := hr
  exact ⟨s, hs, hg, (handed_over_iff .s1 0 hs hp).2 (by decide)⟩

end LinuxIpc.SlotChat.Handoff
