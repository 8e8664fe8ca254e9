import LinuxIpc.FifoChat.Loop

namespace LinuxIpc.FifoChat
set_option autoImplicit true

open Function (update update_self update_of_ne)

/-- The chat of two people who type no NUL, with the bytes that each program has written and the
strings that it has printed for what it has read. -/
structure Log extends St where
  sent : Prog → List UInt8
  printed : Prog → List (List UInt8)

/-- `printf` takes its string from `str` and, where that holds no NUL, from what stands behind
it. -/
def Log.step (s : Log) : Act × List UInt8 → Option Log
  | (.read p k, beyond) => (FifoChat.step s.toSt (.read p k)).map fun t =>
      { s with
        toSt := t
        printed := update s.printed p
          (s.printed p ++ [cstr ((t.side p).str.bytes ++ beyond)]) }
  | (.type p l, _) =>
    if 0 ∈ l then none
    else (FifoChat.step s.toSt (.type p l)).map fun t =>
      { s with
        toSt := t
        sent := if (s.side p.peer).pc.gone then s.sent
          else update s.sent p (s.sent p ++ cstr (t.side p).str.bytes) }
  | (a, _) => (FifoChat.step s.toSt a).map fun t => { s with toSt := t }

structure Log.Init (s : Log) : Prop extends FifoChat.Init s.toSt where
  sent : ∀ p, s.sent p = []
  printed : ∀ p, s.printed p = []

def logSys : Sys Log (Act × List UInt8) := ⟨Log.Init, Log.step⟩

/-- The strings printed end inside `str`; one after the other they are what has been sent, up to
what is still in the FIFO. -/
structure Faithful (s : Log) : Prop where
  ends : ∀ p, ∀ l ∈ s.printed p, l.length < 32
  stream : ∀ p, (s.printed p).flatten ++ (s.fifo p).map Byte.val = s.sent p.peer

/-- The read leaves room for a NUL. -/
def Short : Act × List UInt8 → Prop
  | (.read _ k, _) => k < 32
  | _ => True

instance (a : Act × List UInt8) : Decidable (Short a) := by
  unfold Short
  split <;> infer_instance

/-- One direction: the reading side, its FIFO, what it has printed and what it has been sent. -/
structure Lane (b : Side) (f : List Byte) (printed : List (List UInt8)) (sent : List UInt8) :
    Prop where
  blank : ∀ stdin, b.pc = .read stdin → b.str = .zero 32
  bytes : ∀ x ∈ f, x.val ≠ 0
  ends : ∀ l ∈ printed, l.length < 32
  stream : printed.flatten ++ f.map Byte.val = sent

theorem map_val_mark (st : Bool) (d : List UInt8) : (mark st d).map Byte.val = d := by
  cases d with
  | nil => rfl
  | cons c d =>
    rw [mark, List.map_cons, List.map_map]
    exact congrArg (c :: ·) (List.map_id d)

theorem Lane.idle (h : Lane b f printed sent) (hb : ∀ stdin, b'.pc ≠ .read stdin) :
    Lane b' f printed sent :=
  { h with blank := fun stdin hpc => (hb stdin hpc).elim }

theorem Lane.select (h : Lane b f printed sent) (fifo stdin : Bool) :
    Lane (b.select fifo stdin) f printed sent :=
  { h with blank := fun _ _ => rfl }

theorem Lane.send (h : Lane b f printed sent) (hz : 0 ∉ l) (st : Bool) :
    Lane b (f ++ mark st l) printed (sent ++ l) where
  blank := h.blank
  bytes x hx := by
    rcases List.mem_append.1 hx with hx | hx
    · exact h.bytes x hx
    · have hv := List.mem_map_of_mem (f := Byte.val) hx
      rw [map_val_mark] at hv
      exact fun h0 => hz (h0 ▸ hv)
  ends := h.ends
  stream := by rw [List.map_append, map_val_mark, ← List.append_assoc, h.stream]

theorem Lane.notMem (h : Lane b f printed sent) (k : Nat) : 0 ∉ (f.take k).map Byte.val := by
  intro h0
  obtain ⟨x, hx, hv⟩ := List.mem_map.1 h0
  exact h.bytes x (List.mem_of_mem_take hx) hv

/-- What is printed for a read that leaves room for a NUL is what has been read. -/
theorem Lane.read (h : Lane b f printed sent) (hpc : b.pc = .read stdin) (hk : k < 32)
    (beyond : List UInt8) :
    Lane (b.read stdin ((f.take k).map Byte.val)) (f.drop k)
      (printed ++ [cstr ((b.read stdin ((f.take k).map Byte.val)).str.bytes ++ beyond)]) sent := by
  have hlen : ((f.take k).map Byte.val).length < 32 := by
    rw [List.length_map, List.length_take]
    omega
  have hstr : cstr ((b.read stdin ((f.take k).map Byte.val)).str.bytes ++ beyond) =
      (f.take k).map Byte.val := by
    change cstr ((b.str.overwrite _).bytes ++ beyond) = _
    rw [h.blank stdin hpc]
    have hread : cstr ((Buf.zero 32).overwrite ((f.take k).map Byte.val)).bytes = _ :=
      Buf.cstr_overwrite_zero (fun x hx h0 => h.notMem k (h0 ▸ hx)) hlen
    have hz := Buf.zero_mem _ (lt_of_eq_of_lt (congrArg List.length hread) hlen)
    rw [cstr_append_of_mem hz, hread]
  rw [hstr]
  constructor
  case blank =>
    intro _ hc
    cases stdin <;> cases hc
  case bytes => exact fun x hx => h.bytes x (List.mem_of_mem_drop hx)
  case ends =>
    intro l hl
    rcases List.mem_append.1 hl with hl | hl
    · exact h.ends l hl
    · exact List.mem_singleton.1 hl ▸ hlen
  case stream =>
    rw [List.flatten_append, List.flatten_singleton, List.append_assoc, ← List.map_append,
      List.take_append_drop, h.stream]

/-- A read that fills `str` leaves no NUL in it. -/
theorem Lane.read_full (h : Lane b f printed sent) (stdin : Bool) (hk : k = 32)
    (hf : k ≤ f.length) (beyond : List UInt8) :
    32 ≤ (cstr ((b.read stdin ((f.take k).map Byte.val)).str.bytes ++ beyond)).length := by
  have hlen : ((f.take k).map Byte.val).length = 32 := by
    rw [List.length_map, List.length_take]
    omega
  change 32 ≤ (cstr ((b.str.overwrite _).bytes ++ beyond)).length
  rw [b.str.overwrite_full hlen, cstr_append_of_notMem (h.notMem k), List.length_append, hlen]
  exact Nat.le_add_right 32 _

/-- In every state both directions are in order. -/
def InOrder (s : Log) : Prop :=
  ∀ p, Lane (s.side p) (s.fifo p) (s.printed p) (s.sent p.peer)

theorem InOrder.init (h : s.Init) : InOrder s := by
  intro p
  rw [h.fifo, h.printed, h.sent]
  constructor
  case blank =>
    rw [h.pc]
    nofun
  case bytes => nofun
  case ends => nofun
  case stream => rfl

theorem InOrder.faithful (h : InOrder s) : Faithful s := ⟨fun p => (h p).ends, fun p => (h p).stream⟩

/-- The direction in which `p` writes. -/
theorem InOrder.writer {s : Log} (h : InOrder s) (p : Prog) :
    Lane (s.side p.peer) (s.fifo p.peer) (s.printed p.peer) (s.sent p) := by
  have hw := h p.peer
  rw [p.peer_peer] at hw
  exact hw

/-- A move of `p` is one of the reader of its own FIFO and of the writer of the other one. -/
theorem InOrder.of_lanes {s : Log} (p : Prog)
    (hr : Lane (s.side p) (s.fifo p) (s.printed p) (s.sent p.peer))
    (hw : Lane (s.side p.peer) (s.fifo p.peer) (s.printed p.peer) (s.sent p)) : InOrder s := by
  refine p.forall_iff.2 ⟨hr, ?_⟩
  rw [p.peer_peer]
  exact hw

theorem InOrder.step {s : Log} (h : InOrder s) (hg : Short a) (ht : s.step a = some t) :
    InOrder t := by
  obtain ⟨a, beyond⟩ := a
  cases a with
  | select p fifo stdin =>
    obtain ⟨u, hu, rfl⟩ := Option.map_eq_some_iff.1 ht
    obtain ⟨-, rfl⟩ := of_guard hu
    apply InOrder.of_lanes p
    · simp only [update_self]
      exact (h p).select fifo stdin
    · simp only [update_of_ne p.peer_ne]
      exact h.writer p
  | read p k =>
    obtain ⟨u, hu, rfl⟩ := Option.map_eq_some_iff.1 ht
    simp only [FifoChat.step] at hu
    split at hu
    · rename_i stdin hpc
      obtain ⟨-, rfl⟩ := of_guard hu
      apply InOrder.of_lanes p
      · simp only [update_self]
        exact (h p).read hpc hg beyond
      · simp only [update_of_ne p.peer_ne]
        exact h.writer p
    · cases hu
  | type p l =>
    simp only [Log.step] at ht
    split at ht
    · cases ht
    rename_i hz
    obtain ⟨u, hu, rfl⟩ := Option.map_eq_some_iff.1 ht
    simp only [FifoChat.step, Option.ite_none_right_eq_some] at hu
    obtain ⟨⟨-, -, hl, -⟩, hu⟩ := hu
    have hpc : ∀ r stdin, ((s.side p).type l r).pc ≠ .read stdin := by
      intro r stdin
      cases r <;> nofun
    split at hu
    · rename_i hgone
      obtain rfl := Option.some.inj hu
      apply InOrder.of_lanes p
      · simp only [update_self, if_pos hgone]
        exact (h p).idle (hpc false)
      · simp only [update_of_ne p.peer_ne, if_pos hgone]
        exact h.writer p
    · rename_i hgone
      obtain rfl := Option.some.inj hu
      have hstr : cstr ((s.side p).type l true).str.bytes = l :=
        (Buf.cstr_overwrite _ (Nat.lt_succ_of_le hl)).trans (cstr_of_notMem hz)
      apply InOrder.of_lanes p
      · simp only [update_self, update_of_ne p.peer_ne, update_of_ne p.peer_ne.symm, if_neg hgone]
        exact (h p).idle (hpc true)
      · simp only [update_self, update_of_ne p.peer_ne, if_neg hgone, hstr]
        exact (h.writer p).send hz _
  | test p =>
    obtain ⟨u, hu, rfl⟩ := Option.map_eq_some_iff.1 ht
    simp only [FifoChat.step] at hu
    split at hu
    · rename_i typed hpc
      obtain rfl := Option.some.inj hu
      apply InOrder.of_lanes p
      · simp only [update_self]
        refine (h p).idle fun stdin => ?_
        unfold Side.test
        split <;> nofun
      · simp only [update_of_ne p.peer_ne]
        exact h.writer p
    · cases hu

/-- A string that does not end inside `str` has been printed. -/
def Overrun (s : Log) : Prop := ∃ p, ∃ l ∈ s.printed p, 32 ≤ l.length

/-- What has been printed stays. -/
theorem Overrun.step {s t : Log} (h : Overrun s) (ht : s.step a = some t) : Overrun t := by
  obtain ⟨p, l, hl, hlen⟩ := h
  refine ⟨p, l, ?_, hlen⟩
  obtain ⟨a, beyond⟩ := a
  cases a with
  | select q fifo stdin =>
    obtain ⟨u, -, rfl⟩ := Option.map_eq_some_iff.1 ht
    exact hl
  | read q k =>
    obtain ⟨u, -, rfl⟩ := Option.map_eq_some_iff.1 ht
    by_cases hq : p = q
    · subst hq
      simp only [update_self]
      exact List.mem_append_left _ hl
    · simp only [update_of_ne hq]
      exact hl
  | type q l =>
    simp only [Log.step, Option.ite_none_left_eq_some] at ht
    obtain ⟨u, -, rfl⟩ := Option.map_eq_some_iff.1 ht.2
    exact hl
  | test q =>
    obtain ⟨u, -, rfl⟩ := Option.map_eq_some_iff.1 ht
    exact hl

/-- Only a read that fills `str` is not short. -/
theorem InOrder.overrun {s : Log} (h : InOrder s) (hg : ¬ Short a) (ht : s.step a = some t) :
    Overrun t := by
  obtain ⟨a, beyond⟩ := a
  cases a with
  | read p k =>
    obtain ⟨u, hu, rfl⟩ := Option.map_eq_some_iff.1 ht
    simp only [FifoChat.step] at hu
    split at hu
    · rename_i stdin hpc
      obtain ⟨⟨hk, hf, -⟩, rfl⟩ := of_guard hu
      have hk' : k = 32 := Nat.le_antisymm hk (Nat.le_of_not_lt hg)
      refine ⟨p, _, ?_, (h p).read_full stdin hk' hf beyond⟩
      simp only [update_self]
      exact List.mem_append_right _ (List.mem_singleton_self _)
    · cases hu
  | _ => exact (hg trivial).elim

theorem faithful_iff {s t : Log} (h : s.Init) (hr : logSys.run as s = some t) :
    Faithful t ↔ logSys.Along (fun _ => Short) as s := by
  have hor := logSys.along_or (G := fun _ => Short) (I := InOrder) (B := Overrun)
    (fun _ _ _ hI => hI.step) (fun _ _ _ hI => hI.overrun) (fun _ _ _ hB => hB.step) (.init h) hr
  rcases hor with ⟨ha, ht⟩ | ⟨hna, p, l, hl, hlen⟩
  · exact iff_of_true ht.faithful ha
  · exact iff_of_false (fun hf => Nat.not_lt_of_le hlen (hf.ends p l hl)) hna

def Log.start : Log where
  side _ := ⟨.select, .zero 32, true, false⟩
  fifo _ := []
  sent _ := []
  printed _ := []

theorem Log.start_init : Log.start.Init where
  pc _ := rfl
  fresh _ := rfl
  exited _ := rfl
  fifo _ := rfl
  sent _ := rfl
  printed _ := rfl

/-- `pzs` sends two lines, and `pls` reads the first `k` bytes of them. -/
def greetings (k : Nat) : List (Act × List UInt8) :=
  [.select .pzs false true, .type .pzs (ascii "good evening!\n"), .test .pzs,
    .select .pzs false true, .type .pzs (ascii "how was your day?\n"), .test .pzs,
    .select .pls true false, .read .pls k].map fun a => (a, ascii " (behind str)")

theorem faithful_iff_greetings : ∃ t, logSys.run (greetings 31) Log.start = some t ∧
    Faithful t := by
  obtain ⟨t, ht⟩ : ∃ t, logSys.run (greetings 31) Log.start = some t :=
    Option.isSome_iff_exists.1 (by decide)
  exact ⟨t, ht, (faithful_iff Log.start_init ht).2 (by decide)⟩

theorem not_faithful : ∃ t, logSys.run (greetings 32) Log.start = some t ∧ ¬ Faithful t := by
  have hr : (logSys.run (greetings 32) Log.start).map (fun t => t.printed .pls) =
      some [ascii "good evening!\nhow was your day?\n (behind str)"] := by decide
  obtain ⟨t, ht, hp⟩ := Option.map_eq_some_iff.1 hr
  refine ⟨t, ht, fun hf => ?_⟩
  exact absurd (hf.ends .pls _ (hp ▸ List.mem_singleton_self _)) (by decide)

end LinuxIpc.FifoChat
