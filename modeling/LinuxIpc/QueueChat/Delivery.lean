import LinuxIpc.QueueChat.Conservation

namespace LinuxIpc.QueueChat
set_option autoImplicit true
set_option linter.unusedSectionVars false

open Function (update)

section
variable {ι : Type} [Fintype ι] [DecidableEq ι] {R : Room ι} {s t : St ι}

/-- How often `p` has printed `m`. -/
def St.prints (s : St ι) (p : ι) (m : Msg ι) : Nat :=
  s.printed.countP fun x => x.reader = p ∧ x.msg = m

/-- A message is out when it is neither in the queue nor in a receiver's hand. -/
def St.Out (s : St ι) (m : Msg ι) : Prop :=
  m ∈ s.sent ∧ m ∉ s.queue ∧ ∀ p, (s.recv p).held ≠ some m

/-- A message that has been printed was printed once, by one participant. -/
theorem Kept.prints_eq (h : Kept R s) (hx : x ∈ s.printed) (p : ι) :
    s.prints p x.msg = if p = x.reader then 1 else 0 := by
  have huniq : ∀ y ∈ s.printed, y.msg = x.msg → y = x := fun y hy he =>
    List.inj_on_of_nodup_map h.apart.2.1 hy hx he
  by_cases hp : p = x.reader
  · rw [if_pos hp, St.prints]
    have hiff : ∀ y ∈ s.printed, (decide (y.reader = p ∧ y.msg = x.msg) = true ↔
        (Printed.msg y == x.msg) = true) := by
      intro y hy
      rw [decide_eq_true_eq, beq_iff_eq]
      constructor
      · exact And.right
      · intro he
        exact ⟨by rw [huniq y hy he, hp], he⟩
    rw [List.countP_congr hiff, ← List.count_eq_one_of_mem h.apart.2.1 (List.mem_map_of_mem hx),
      List.count, List.countP_map]
    rfl
  · rw [if_neg hp, St.prints, List.countP_eq_zero]
    intro y hy he
    obtain ⟨hr, hm⟩ := of_decide_eq_true he
    exact hp (hr ▸ congrArg Printed.reader (huniq y hy hm))

/-- A message that is out has been printed by exactly one participant, exactly once. It is another
one than the author where the author's name ends in its field, and of the same group where it
asked for one. -/
theorem delivered_to_one (h : (sys R).Reachable s) (hm : s.Out m) :
    ∃ q, (R.Short m.author → q ≠ m.author) ∧ (0 < R.group q → R.group q = R.group m.author) ∧
      ∀ p, s.prints p m = if p = q then 1 else 0 := by
  have hk := kept_of_reachable h
  obtain ⟨hsent, hqueue, hheld⟩ := hm
  rcases hk.located hsent with hq | ⟨p, hp⟩ | ⟨x, hx, rfl⟩
  · exact (hqueue hq).elim
  · exact (hheld p hp).elim
  · refine ⟨x.reader, ?_, hk.selected hx, hk.prints_eq hx⟩
    intro hs he
    exact (hk.printed x hx).2 hs (by rw [he])

end

/-- The room before anyone has typed. -/
def assembled (R : Room ι) : St ι :=
  ⟨[], fun p => ⟨R.group p, (Buf.zero 10).overwrite (R.name p).bytes,
      (Buf.zero 100).overwrite ((R.name p).bytes.drop 10)⟩, fun _ => .loop,
    fun _ => ⟨⟨0, .zero 10, .zero 100⟩, none⟩, [], []⟩

theorem assembled_init (R : Room ι) : Init R (assembled R) where
  queue := rfl
  mtype _ := rfl
  name p := by
    change (R.name p).bytes.take 10 ++ (Buf.zero 10).bytes.drop (R.name p).bytes.length = _
    rw [(R.name p).length_bytes]
    exact List.append_nil _
  sender _ := rfl
  own _ := rfl
  sent := rfl
  printed := rfl

/-- Three members of one group. -/
def trio : Room (Fin 3) :=
  ⟨fun _ => 1, fun p => (Buf.zero 110).overwrite [97 + p.val.toUInt8], by decide⟩

/-- The third of three members never sees what the second one has taken from the queue. -/
theorem not_delivered_to_all : ∃ as s m, (sys trio).run as (assembled trio) = some s ∧ s.Out m ∧
    ∃ p, p ≠ m.author ∧ trio.group p = trio.group m.author ∧ s.prints p m ≠ 1 := by
  refine ⟨[.send 0 [104, 105, 10], .receive 1], _,
    ((assembled trio).type 0 [104, 105, 10]).message 0, rfl, ?_, 2, ?_, rfl, ?_⟩
  · refine ⟨List.mem_singleton_self _, List.not_mem_nil, ?_⟩
    decide
  · decide
  · decide

theorem delivered_to_one_trio : ∃ s m, (sys trio).run [.send 0 [104, 105, 10], .receive 1]
    (assembled trio) = some s ∧ s.Out m ∧ m.author = 0 ∧
    ∃ q, q ≠ 0 ∧ ∀ p, s.prints p m = if p = q then 1 else 0 := by
  have hr : ∃ s, (sys trio).run [.send 0 [104, 105, 10], .receive 1] (assembled trio) = some s ∧
      s.Out (((assembled trio).type 0 [104, 105, 10]).message 0) := by
    refine ⟨_, rfl, List.mem_singleton_self _, List.not_mem_nil, ?_⟩
    decide
  obtain ⟨s, hs, hm⟩ := hr
  obtain ⟨q, hq, -, hprints⟩ := delivered_to_one (.of_run (assembled_init trio) hs) hm
  have hshort : trio.Short 0 := by
    change (cstr (trio.name 0).bytes).length ≤ 9
    decide
  exact ⟨s, _, hs, hm, rfl, q, hq hshort, hprints⟩

end LinuxIpc.QueueChat
