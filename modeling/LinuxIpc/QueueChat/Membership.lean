import LinuxIpc.QueueChat.Delivery

namespace LinuxIpc.QueueChat
set_option autoImplicit true
set_option linter.unusedSectionVars false

open Function (update)
open MsgQueue (Selects)

section
variable {ι : Type} [DecidableEq ι] {R : Room ι} {s t : St ι}

theorem step_send (h : s.sender p = .loop) (hl : Piece l) :
    (sys R).step s (.send p l) = some ((s.type p l).send p) := if_pos ⟨h, hl⟩

theorem step_confirm (h : s.sender p = .confirm) : (sys R).step s (.confirm p a) =
    some { s with sender := update s.sender p (if a = 121 then .left else .loop) } := if_pos h

theorem step_receive (h : (s.recv p).own = none)
    (hr : MsgQueue.receive Msg.mtype (R.group p) s.queue = some (m, rest)) :
    (sys R).step s (.receive p) = some (s.take p (R.name p) m rest) := by
  change step R s (.receive p) = _
  rw [step, if_pos h, hr]
  rfl

theorem St.send_pos (h : 1 ≤ (s.msgs p).mtype) : s.send p = { s with
    queue := s.queue ++ [s.message p]
    sent := s.sent ++ [s.message p]
    sender := update s.sender p
      (if cstr (s.msgs p).mtext.bytes = ascii "886...\n" then .confirm else .loop) } := if_pos h

theorem St.type_msgs (s : St ι) (p : ι) (l : List UInt8) : (s.type p l).msgs =
    update s.msgs p { s.msgs p with mtext := (s.msgs p).mtext.overwrite (l ++ [0]) } := rfl

theorem St.take_queue : (s.take p name m rest).queue = rest := by
  unfold take
  dsimp only
  split <;> rfl

theorem St.take_sender : (s.take p name m rest).sender = s.sender := by
  unfold take
  dsimp only
  split <;> rfl

theorem St.take_msgs : (s.take p name m rest).msgs = s.msgs := by
  unfold take
  dsimp only
  split <;> rfl

theorem St.take_sent : (s.take p name m rest).sent = s.sent := by
  unfold take
  dsimp only
  split <;> rfl

theorem St.take_recv (h : q ≠ p) : (s.take p name m rest).recv q = s.recv q := by
  unfold take
  dsimp only
  split <;> exact Function.update_of_ne h _ _

/-- The text that goes out is the piece typed. -/
theorem St.type_text (s : St ι) (hl : Piece l) :
    cstr ((s.type p l).msgs p).mtext.bytes = cstr l := by
  rw [type_msgs, Function.update_self]
  exact Buf.cstr_overwrite _ (Nat.lt_succ_of_le hl.2.1)

/-- `fgets` leaves room for the NUL. -/
theorem type_mtext (s : St ι) (p : ι) (hl : Piece l) :
    ∃ r, ((s.type p l).msgs p).mtext.bytes = l ++ 0 :: r := by
  have hle : (l ++ [0]).length ≤ 100 := by
    rw [List.length_append]
    exact Nat.succ_le_succ hl.2.1
  refine ⟨(s.msgs p).mtext.bytes.drop (l ++ [0]).length, ?_⟩
  rw [St.type_msgs, Function.update_self]
  simp only [Buf.overwrite, List.take_of_length_le hle, List.append_assoc, List.singleton_append]

theorem St.type_mtype (s : St ι) (p q : ι) (l : List UInt8) :
    ((s.type p l).msgs q).mtype = (s.msgs q).mtype := by
  rw [type_msgs]
  by_cases h : q = p
  · rw [h, Function.update_self]
  · rw [Function.update_of_ne h]

end

section
variable {ι : Type} [Fintype ι] [DecidableEq ι] {R : Room ι} {s t : St ι}

/-- Everyone prints, and so takes for good, only what was sent under the number that it has
entered. -/
def Isolated (R : Room ι) : Prop := ∀ s, (sys R).Reachable s →
  (∀ x ∈ s.printed, x.msg.mtype = R.group x.reader) ∧
  ∀ m, s.Out m → ∃ x ∈ s.printed, x.msg = m

/-- No one who has entered zero or a negative number asks for the type of someone else, unless
both have the same name and this ends in its field. -/
def Separate (R : Room ι) : Prop := ∀ p q, R.group p ≤ 0 → 0 < R.group q →
  (R.group p = 0 ∨ R.group q ≤ -R.group p) →
    R.Short q ∧ cstr (R.name p).bytes = cstr (R.name q).bytes

theorem Separate.isolated (h : Separate R) : Isolated R := by
  intro s hs
  have hk := kept_of_reachable hs
  constructor
  · intro x hx
    have hx' := hk.sent_of_printed hx
    obtain ⟨hsel, hne⟩ := hk.printed x hx
    by_cases hpos : 0 < R.group x.reader
    · rw [hk.selected hx hpos, (hk.genuine _ hx').1]
    · have hm := (hk.genuine _ hx').1
      have hlow := hk.positive _ hx'
      rw [Selects, if_neg hpos] at hsel
      have hasks : R.group x.reader = 0 ∨ R.group x.msg.author ≤ -R.group x.reader := by
        rw [← hm]
        by_cases h0 : R.group x.reader = 0
        · exact .inl h0
        · exact .inr (by rwa [if_neg h0] at hsel)
      obtain ⟨hshort, he⟩ := h _ _ (not_lt.1 hpos) (hm ▸ hlow) hasks
      exact (hne hshort he.symm).elim
  · rintro m ⟨hm, hq, hp⟩
    rcases hk.located hm with h | ⟨p, h⟩ | h
    · exact (hq h).elim
    · exact (hp p h).elim
    · exact h

/-- A name in the ten bytes of its field, and behind it what has been typed. -/
theorem message_string (b : Msgbuf) (hn : (s.msgs q).name.bytes = (R.name q).bytes.take 10)
    (hl : Piece l) (hlen : l.length < 90) :
    (b.store k ((s.type q l).message q).body).string = cstr ((R.name q).bytes.take 10 ++ l) := by
  obtain ⟨r, hr⟩ := type_mtext s q hl
  have hname : ((s.type q l).msgs q).name.bytes = (R.name q).bytes.take 10 := by
    rw [St.type_msgs, Function.update_self, hn]
  have hbody : ((s.type q l).message q).body.bytes =
      (R.name q).bytes.take 10 ++ l ++ 0 :: r.take (89 - l.length) := by
    change (((s.type q l).msgs q).name.bytes ++ ((s.type q l).msgs q).mtext.bytes).take 100 = _
    have hlen' : ((R.name q).bytes.take 10).length = 10 := by
      rw [List.length_take, (R.name q).length_bytes]
      rfl
    have h90 : 100 - ((R.name q).bytes.take 10 ++ l).length = (89 - l.length) + 1 := by
      rw [List.length_append, hlen']
      omega
    rw [hname, hr, ← List.append_assoc, List.take_append, h90, List.take_succ_cons,
      List.take_of_length_le]
    rw [List.length_append, hlen']
    omega
  rw [Msgbuf.store_string, hbody, List.append_assoc, List.cons_append, cstr_append_zero]

/-- What is typed in an empty room goes to the first who asks for it. -/
theorem printed_first (hq : 0 < R.group q) (hsel : Selects (R.group p) (R.group q))
    (hl : Piece l) (hlen : l.length < 90)
    (hne : cstr ((R.name q).bytes.take 10 ++ l) ≠ cstr (R.name p).bytes) :
    ∃ s, (sys R).Reachable s ∧ ∃ x ∈ s.printed, x.reader = p ∧ x.msg.mtype = R.group q := by
  let a := (assembled R).type q l
  have hpos : 1 ≤ (a.msgs q).mtype := by
    rw [St.type_mtype]
    exact hq
  have h1 : (sys R).Reachable (a.send q) :=
    .step (.init (assembled_init R)) trivial (step_send rfl hl)
  have hmt : (a.message q).mtype = R.group q := St.type_mtype ..
  have hqueue : (a.send q).queue = [a.message q] := by
    rw [St.send_pos hpos]
    rfl
  have hown : ((a.send q).recv p).own = none := by
    rw [St.send_pos hpos]
    rfl
  have hr : MsgQueue.receive Msg.mtype (R.group p) (a.send q).queue = some (a.message q, []) := by
    rw [hqueue]
    exact MsgQueue.receive_singleton (hmt ▸ hsel)
  refine ⟨_, .step h1 trivial (step_receive hown hr), ?_⟩
  have hne' : ¬ (((a.send q).recv p).msgr.store (a.message q).mtype
      (a.message q).body).string = cstr (R.name p).bytes := by
    rw [message_string _ ((assembled_init R).name q) hl hlen]
    exact hne
  rw [St.take, if_neg hne']
  exact ⟨_, List.mem_append_right _ (List.mem_singleton_self _), rfl, hmt⟩

theorem isolated_iff : Isolated R ↔ Separate R := by
  refine ⟨?_, Separate.isolated⟩
  intro h p q hp hq hsel
  by_contra hne
  have hs : Selects (R.group p) (R.group q) := by
    rw [Selects, if_neg (not_lt.2 hp)]
    split
    · trivial
    · exact hsel.resolve_left ‹_›
  obtain ⟨l, hl, hlen, hl'⟩ : ∃ l, Piece l ∧ l.length < 90 ∧
      cstr ((R.name q).bytes.take 10 ++ l) ≠ cstr (R.name p).bytes := by
    by_cases hshort : R.Short q
    · refine ⟨[97, 10], by decide, by decide, ?_⟩
      rw [hshort.cstr_append]
      exact fun he => hne ⟨hshort, he.symm⟩
    · -- one of two lines makes a string that is not the name of `p`
      have hstring (l : List UInt8) : cstr ((R.name q).bytes.take 10 ++ l) =
          (R.name q).bytes.take 10 ++ cstr l :=
        cstr_append_of_notMem (Room.notMem_of_not_short hshort)
      by_cases ha : cstr ((R.name q).bytes.take 10 ++ [97, 10]) = cstr (R.name p).bytes
      · refine ⟨[98, 10], by decide, by decide, fun hb => ?_⟩
        have hab := ha.trans hb.symm
        rw [hstring, hstring] at hab
        exact absurd (List.append_cancel_left hab) (by decide)
      · exact ⟨[97, 10], by decide, by decide, ha⟩
  obtain ⟨s, hreach, x, hx, rfl, hm⟩ := printed_first hq hs hl hlen hl'
  have he := (h s hreach).1 x hx
  rw [hm] at he
  exact absurd hq (not_lt.2 (he ▸ hp))

/-- The message that the receiver of `p` is about to remove from the queue. -/
def St.next (R : Room ι) (s : St ι) (p : ι) : Option (Msg ι) :=
  if (s.recv p).own = none then
    (MsgQueue.receive Msg.mtype (R.group p) s.queue).map Prod.fst
  else none

/-- Whoever has left takes nothing that another member of its group sends from then on. -/
def Retires (R : Room ι) : Prop := ∀ s p as t, (sys R).Reachable s → s.sender p = .left →
  (sys R).run as s = some t → ∀ m ∈ t.next R p, m.author ≠ p → R.group m.author = R.group p →
  m.id < s.sent.length

/-- Someone says goodbye and leaves, with the farewell still in the queue. -/
theorem left_first (hp : 0 < R.group p) : ∃ s m, (sys R).Reachable s ∧ s.sender p = .left ∧
    (∀ q, q ≠ p → s.sender q = .loop) ∧ (∀ q, (s.recv q).own = none) ∧ s.queue = [m] ∧
    m.mtype = R.group p := by
  have hl : Piece (ascii "886...\n") := by decide
  let a := (assembled R).type p (ascii "886...\n")
  have hpos : 1 ≤ (a.msgs p).mtype := by
    rw [St.type_mtype]
    exact hp
  have h1 : (sys R).Reachable (a.send p) :=
    .step (.init (assembled_init R)) trivial (step_send rfl hl)
  have hbye : cstr (a.msgs p).mtext.bytes = ascii "886...\n" := by
    rw [St.type_text _ hl]
    decide
  have hconfirm : (a.send p).sender p = .confirm := by
    rw [St.send_pos hpos]
    change update a.sender p _ p = _
    rw [Function.update_self, if_pos hbye]
  refine ⟨_, a.message p, .step h1 trivial (step_confirm (a := 121) hconfirm), ?_⟩
  rw [St.send_pos hpos]
  refine ⟨Function.update_self .., ?_, fun _ => rfl, rfl, St.type_mtype ..⟩
  intro q hq
  change update (update a.sender p _) p _ q = _
  rw [Function.update_of_ne hq, Function.update_of_ne hq]
  rfl

/-- Once the farewell has been taken, the receiver that stays behind is the only one to take what
comes next. -/
theorem taken_after_left (hne : p ≠ q) (hg : R.group p = R.group q) (hp : 0 < R.group p) :
    ¬ Retires R := by
  intro h
  have hl : Piece (ascii "hi\n") := by decide
  obtain ⟨s, m, hs, hleft, hloop, hown, hqueue, hm⟩ := left_first hp
  have hrecv : MsgQueue.receive Msg.mtype (R.group q) s.queue = some (m, []) := by
    rw [hqueue]
    apply MsgQueue.receive_singleton
    rw [hm, hg]
    exact .self (hg ▸ hp)
  let t := s.take q (R.name q) m []
  have htq : t.sender q = .loop := by
    rw [St.take_sender]
    exact hloop q hne.symm
  let u := t.type q (ascii "hi\n")
  have hmt : (u.message q).mtype = R.group q := by
    change (u.msgs q).mtype = _
    rw [St.type_mtype, St.take_msgs]
    exact (kept_of_reachable hs).mtype q
  have hpos : 1 ≤ (u.msgs q).mtype := by
    change 0 < (u.message q).mtype
    rw [hmt, ← hg]
    exact hp
  have hr : (sys R).run [.receive q, .send q (ascii "hi\n")] s = some (u.send q) := by
    rw [Sys.run_cons (step_receive (hown q) hrecv), Sys.run_cons (step_send htq hl)]
    rfl
  have hnext : (u.send q).next R p = some (u.message q) := by
    have hqueue : (u.send q).queue = [u.message q] := by
      rw [St.send_pos hpos]
      change t.queue ++ _ = _
      rw [St.take_queue]
      rfl
    have hown : ((u.send q).recv p).own = none := by
      rw [St.send_pos hpos]
      change (t.recv p).own = none
      rw [St.take_recv hne, hown p]
    rw [St.next, if_pos hown, hqueue, MsgQueue.receive_singleton]
    · rfl
    · rw [hmt, hg]
      exact .self (hg ▸ hp)
  have hlt := h s p _ _ hs hleft hr _ hnext hne.symm hg.symm
  have hid : (u.message q).id = s.sent.length := by
    change t.sent.length = _
    rw [St.take_sent]
  exact absurd hlt (by rw [hid]; exact Nat.lt_irrefl _)

theorem retires_iff : Retires R ↔ ∀ p q, p ≠ q → R.group p = R.group q → R.group p ≤ 0 := by
  constructor
  · intro h p q hne hg
    by_contra hpos
    exact taken_after_left hne hg (not_le.1 hpos) h
  · intro h s p as t hs _ hr m hm hne hg
    have hk := kept_of_reachable (hs.run (fun _ _ => trivial) hr)
    simp only [St.next, Option.mem_def, Option.ite_none_right_eq_some, Option.map_eq_some_iff,
      Prod.exists, exists_and_right, exists_eq_right] at hm
    obtain ⟨-, rest, hrecv⟩ := hm
    have hsent := hk.sent_of_queue
      ((MsgQueue.receive_perm hrecv).mem_iff.2 (List.mem_cons_self ..))
    have hpos := hk.positive m hsent
    rw [(hk.genuine m hsent).1] at hpos
    exact absurd (h _ _ hne hg) (not_le.2 hpos)

end

/-- One member of group 1 and one who has entered 0. -/
def visited : Room (Fin 2) := { couple with group := fun p => p.val }

theorem not_isolated : ¬ Isolated visited := by
  intro h
  obtain ⟨s, hs, x, hx, hp, hm⟩ := printed_first (R := visited) (p := 0) (q := 1)
    (l := ascii "hi\n") (by decide) (by decide) (by decide) (by decide) (by decide)
  have he := (h s hs).1 x hx
  rw [hm, hp] at he
  exact absurd he (by decide)

theorem not_retires : ¬ Retires couple :=
  taken_after_left (p := 0) (q := 1) (by decide) rfl (by decide)

end LinuxIpc.QueueChat
