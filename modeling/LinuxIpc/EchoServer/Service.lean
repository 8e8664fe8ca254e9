import LinuxIpc.EchoServer.Worker

namespace LinuxIpc.EchoServer
set_option autoImplicit true

/-- The parent is back at `accept` from waiting for a worker that has written back `bytes` and
closed the connection. -/
def Served (old : List Worker) (bytes : List UInt8) (s : St) : Prop :=
  s.parent = .accept ∧ ∃ w, s.served = old ++ [w] ∧ w.closed = true ∧ w.echoed = bytes

/-- The state after `accept`, `fork`, and the parent's `close`. -/
def St.serving (s : St) (conn : Conn) : St :=
  { s with parent := .waitpid, worker := some (.start s.buf conn) }

/-- A worker on its way through the connection it has been given. -/
structure Worker.On (conn : Conn) (w : Worker) : Prop where
  reset : w.conn.reset = conn.reset
  echoed : w.echoed ++ echo w.conn.chunks = echo conn.chunks
  left : w.pc ≠ .read → conn.reset = true ∧ w.conn.chunks = []
  closed : w.closed = true ↔ w.pc = .exit ∨ w.pc = .done

theorem Worker.On.start (b : Buf 1024) (c : Conn) : (Worker.start b c).On c where
  reset := rfl
  echoed := rfl
  left h := absurd rfl h
  closed := by simp [Worker.start]

theorem Worker.On.turn {w : Worker} {c : Conn} (h : w.On c) (hp : w.pc = .read) :
    w.turn.On c := by
  have hopen : w.closed = false := by
    have hc := h.closed
    rw [hp] at hc
    simpa using hc
  cases hc : w.conn.chunks with
  | cons d chunks =>
    obtain ⟨b, p, ht⟩ := w.turn_data hc
    have he := h.echoed
    rw [hc] at he
    rw [ht]
    exact ⟨h.reset, (List.append_assoc _ _ _).trans he, fun hn => absurd hp hn, h.closed⟩
  | nil =>
    cases hr : w.conn.reset with
    | false =>
      rw [w.turn_eof hc hr]
      exact ⟨h.reset, h.echoed, h.left, h.closed⟩
    | true =>
      rw [w.turn_failed hc hr]
      exact ⟨h.reset, h.echoed, fun _ => ⟨h.reset ▸ hr, hc⟩, by simp [hopen]⟩

theorem Worker.On.step {w v : Worker} {c : Conn} (h : w.On c) (hv : w.step = some v) :
    v.On c := by
  rcases Worker.step_cases hv with ⟨hp, rfl⟩ | ⟨hp, rfl⟩ | ⟨hp, rfl⟩
  · exact h.turn hp
  · exact ⟨h.reset, h.echoed, fun _ => h.left (by simp [hp]), by simp⟩
  · exact ⟨h.reset, h.echoed, fun _ => h.left (by simp [hp]), by simp [h.closed, hp]⟩

theorem served_step {s t : St} (ht : step s a = some t) : ∃ ws, t.served = s.served ++ ws := by
  cases a with
  | accept c =>
    obtain ⟨-, rfl⟩ := of_guard ht
    exact ⟨[], (List.append_nil _).symm⟩
  | work =>
    obtain ⟨w, -, rfl⟩ := Option.map_eq_some_iff.1 ht
    exact ⟨[], (List.append_nil _).symm⟩
  | waitpid =>
    simp only [step] at ht
    split at ht
    · obtain ⟨-, rfl⟩ := of_guard ht
      exact ⟨_, rfl⟩
    · cases ht

/-- From `accept` on: the parent waits for the worker of the connection, or has done so. -/
inductive Serving (old : List Worker) (c : Conn) : St → Prop
  | waiting {w : Worker} : w.On c → Serving old c ⟨.waitpid, b, some w, old⟩
  | served {w : Worker} : w.On c → w.pc = .done → s.served = old ++ w :: later →
      Serving old c s

theorem Serving.step {s t : St} (h : Serving old c s) (ht : EchoServer.step s a = some t) :
    Serving old c t := by
  cases h with
  | waiting hw =>
    cases a with
    | accept => cases ht
    | work =>
      obtain ⟨v, hv, rfl⟩ := Option.map_eq_some_iff.1 ht
      exact .waiting (hw.step hv)
    | waitpid =>
      obtain ⟨hd, rfl⟩ := of_guard ht
      exact .served hw hd rfl
  | served hw hd hs =>
    obtain ⟨ws, ht⟩ := served_step ht
    rw [hs, List.append_assoc, List.cons_append] at ht
    exact .served hw hd ht

theorem Worker.On.ended {w : Worker} {c : Conn} (h : w.On c) (hp : w.pc = .done) :
    c.reset = true ∧ w.closed = true ∧ w.echoed = echo c.chunks := by
  obtain ⟨hr, hc⟩ := h.left (by simp [hp])
  have he := h.echoed
  rw [hc] at he
  exact ⟨hr, h.closed.2 (.inr hp), (List.append_nil _).symm.trans he⟩

theorem Serving.of_served {s : St} (h : Serving old c s) (hs : Served old bytes s) :
    c.reset = true ∧ bytes = echo c.chunks := by
  obtain ⟨hp, v, hv, -, he⟩ := hs
  cases h with
  | waiting => cases hp
  | served hw hd hs =>
    rw [hs, List.append_cancel_left_eq, List.cons_eq_cons] at hv
    obtain ⟨hr, -, hw⟩ := hw.ended hd
    exact ⟨hr, he.symm.trans (hv.1 ▸ hw)⟩

def Pc.rank : Pc → Nat
  | .read => 3
  | .close => 2
  | .exit => 1
  | .done => 0

/-- What is left of the service of a connection that is reset. -/
def St.rank (s : St) : Nat :=
  s.worker.elim 0 fun w => w.conn.chunks.length + w.pc.rank + 1

theorem Worker.rank_step {w v : Worker} (hr : w.conn.reset = true) (hv : w.step = some v) :
    v.conn.chunks.length + v.pc.rank < w.conn.chunks.length + w.pc.rank := by
  rcases Worker.step_cases hv with ⟨hp, rfl⟩ | ⟨hp, rfl⟩ | ⟨hp, rfl⟩
  · cases hc : w.conn.chunks with
    | cons d chunks =>
      obtain ⟨b, p, ht⟩ := w.turn_data hc
      rw [ht, hp]
      exact Nat.add_lt_add_right (Nat.lt_succ_self _) _
    | nil =>
      rw [w.turn_failed hc hr, hp, hc]
      exact Nat.lt_succ_self _
  · rw [hp]
    exact Nat.lt_succ_self _
  · rw [hp]
    exact Nat.lt_succ_self _

theorem exists_work {w : Worker} (hp : w.pc ≠ .done) : ∃ v, w.step = some v := by
  unfold Worker.step
  cases h : w.pc with
  | done => exact (hp h).elim
  | _ => exact ⟨_, rfl⟩

/-- A connection that is reset is served to its end, in every schedule. -/
theorem inevitable_of_reset {s : St} {c : Conn} (hr : c.reset = true) :
    sys.Inevitable (Served s.served (echo c.chunks)) (s.serving c) := by
  apply Sys.Inevitable.of_wellFounded (S := sys)
    (I := fun t => Served s.served (echo c.chunks) t ∨ ∃ w : Worker, w.On c ∧
      t = ⟨.waitpid, s.buf, some w, s.served⟩) (InvImage.wf St.rank Nat.lt_wfRel.wf)
  · rintro t (ht | ⟨w, hw, rfl⟩) hg
    · exact (hg ht).elim
    · by_cases hd : w.pc = .done
      · exact ⟨.waitpid, _, if_pos hd⟩
      · obtain ⟨v, hv⟩ := exists_work hd
        exact ⟨.work, _, Option.map_eq_some_iff.2 ⟨v, hv, rfl⟩⟩
  · rintro t a u (ht | ⟨w, hw, rfl⟩) hg hu
    · exact (hg ht).elim
    · cases a with
      | accept => cases hu
      | work =>
        obtain ⟨v, hv, rfl⟩ := Option.map_eq_some_iff.1 hu
        refine ⟨.inr ⟨v, hw.step hv, rfl⟩, ?_⟩
        exact Nat.succ_lt_succ (w.rank_step (hw.reset.trans hr) hv)
      | waitpid =>
        obtain ⟨hd, rfl⟩ := of_guard hu
        obtain ⟨-, hcl, he⟩ := hw.ended hd
        exact ⟨.inl ⟨rfl, w, rfl, hcl, he⟩, Nat.succ_pos _⟩
  · exact .inr ⟨_, .start _ _, rfl⟩

/-- A connection is served as it should be if a failing `read` ends it, which the end of file is
not, and if it carries no NUL. -/
theorem served_iff (s : St) (c : Conn) :
    sys.Inevitable (Served s.served (stream c.chunks)) (s.serving c) ↔
      c.reset = true ∧ ∀ d ∈ c.chunks, 0 ∉ d.bytes := by
  rw [← echo_eq_iff]
  constructor
  · intro h
    obtain ⟨t, ht, hs⟩ := h.reaches (I := Serving s.served c) (.waiting (.start _ _))
      fun _ _ _ hI => hI.step
    exact (ht.of_served hs).imp id Eq.symm
  · rintro ⟨hr, he⟩
    rw [← he]
    exact inevitable_of_reset hr

/-- The parent at `accept` takes a connection whose end of file comes behind the chunks: the worker
writes them back and ends, and the parent returns. -/
def Echoes (s : St) (chunks : List Chunk) : Prop :=
  ∃ t, step s (.accept ⟨chunks, false⟩) = some t ∧
    sys.Inevitable (Served s.served (stream chunks)) t

theorem never_echoes (s : St) (chunks : List Chunk) : ¬ Echoes s chunks := by
  rintro ⟨t, ht, h⟩
  obtain ⟨-, rfl⟩ := of_guard ht
  cases ((served_iff s ⟨chunks, false⟩).1 h).1

def hi : Chunk := ⟨ascii "hi", by decide, by decide⟩

/-- A client sends `hi` and closes: the worker is in its loop for ever. -/
theorem not_echoes : ¬ ∀ s chunks, s.parent = .accept → Echoes s chunks := by
  intro h
  obtain ⟨t, ht, he⟩ := h ⟨.accept, .zero 1024, none, []⟩ [hi] rfl
  obtain rfl := Option.some.inj ht
  cases ((served_iff _ ⟨[hi], false⟩).1 he).1

end LinuxIpc.EchoServer
