import LinuxIpc.QueueChat.Bounded

namespace LinuxIpc.QueueChat.Bounded
set_option autoImplicit true
set_option linter.unusedSectionVars false

open Function (update update_self update_of_ne)
open MsgQueue (Selects)

/-- What the parent process does once a line is in the queue. -/
def after (line : List UInt8) : Sender := if cstr line = ascii "886...\n" then .confirm else .loop

/-- How many messages a parent process sends if it never has to wait for good, given what is typed
to it from then on. -/
def sends : Sender → List UInt8 → Nat
  | .left, _ => 0
  | .confirm, [] => 0
  | .confirm, a :: l => sends (if a = 121 then .left else .loop) (l.drop 1)
  | .loop, [] => 0
  | .loop, b :: l => 1 + sends (after (Stdin.fgets 99 (b :: l)).1) (Stdin.fgets 99 (b :: l)).2
termination_by _ l => l.length
decreasing_by
  · rw [List.length_drop, List.length_cons]
    omega
  · exact Stdin.fgets_rest (by decide) (List.cons_ne_nil b l)

/-- The messages that are still to come from the parent process of `p`. -/
def St.left (s : St ι) (p : ι) : Nat :=
  if s.typed p then 1 + sends (after (s.room.msgs p).mtext.bytes) (s.input p)
  else sends (s.room.sender p) (s.input p)

section
variable {ι : Type} [Fintype ι] [DecidableEq ι] {R : Room ι} {s t : St ι}

/-- The messages in a list that `p` has typed. -/
def authored (p : ι) (l : List (Msg ι)) : Nat := l.countP fun m => m.author = p

/-- There are messages in the queue, and from now on none is ever added or taken. -/
def Stuck (cap : Nat) (R : Room ι) (s : St ι) : Prop :=
  s.room.queue ≠ [] ∧ ∀ as t, (sys cap R).run as s = some t → t.room.queue = s.room.queue

theorem left_congr (ht : t.typed p = s.typed p) (hm : t.room.msgs p = s.room.msgs p)
    (hs : t.room.sender p = s.room.sender p) (hi : t.input p = s.input p) :
    t.left p = s.left p := by
  rw [St.left, ht, hm, hs, hi, St.left]

theorem left_of_typed (h : s.typed p = true) :
    s.left p = 1 + sends (after (s.room.msgs p).mtext.bytes) (s.input p) := if_pos h

theorem left_of_idle (h : s.typed p = false) : s.left p = sends (s.room.sender p) (s.input p) := by
  rw [St.left, h]
  rfl

theorem sends_loop (hl : l ≠ []) :
    sends .loop l = 1 + sends (after (Stdin.fgets 99 l).1) (Stdin.fgets 99 l).2 := by
  cases l with
  | nil => exact (hl rfl).elim
  | cons b l => rw [sends]

theorem authored_append (q : ι) (l : List (Msg ι)) (m : Msg ι) :
    authored q (l ++ [m]) = authored q l + if m.author = q then 1 else 0 := by
  simp only [authored, List.countP_append, List.countP_singleton, decide_eq_true_eq]

theorem of_receive (h : step cap R s (.receive p) = some t) : (s.room.recv p).own = none ∧
    ∃ m rest, MsgQueue.receive Msg.mtype (R.group p) s.room.queue = some (m, rest) ∧
      t = { s with room := s.room.take p (R.name p) m rest } := by
  simp only [step, QueueChat.step, Option.map_eq_some_iff, Option.ite_none_right_eq_some,
    Prod.exists] at h
  obtain ⟨r, ⟨hown, m, rest, hr, rfl⟩, rfl⟩ := h
  exact ⟨hown, m, rest, hr, rfl⟩

theorem step_receive (cap : Nat) (h : (s.room.recv p).own = none)
    (hr : MsgQueue.receive Msg.mtype (R.group p) s.room.queue = some (m, rest)) :
    (sys cap R).step s (.receive p) =
      some { s with room := s.room.take p (R.name p) m rest } := by
  change step cap R s (.receive p) = _
  rw [step, QueueChat.step, if_pos h, hr]
  rfl

theorem of_resend (h : step cap R s (.resend p) = some t) : ∃ m, (s.room.recv p).held = some m ∧
    t = { s with room := { s.room with
      queue := if 1 ≤ m.mtype then s.room.queue ++ [m] else s.room.queue
      recv := update s.room.recv p ⟨(s.room.recv p).msgr, none⟩ } } := by
  obtain ⟨-, h⟩ := Option.ite_none_right_eq_some.1 h
  obtain ⟨r, hr, rfl⟩ := Option.map_eq_some_iff.1 h
  obtain ⟨m, hm, rfl⟩ := Option.map_eq_some_iff.1 hr
  exact ⟨m, hm, rfl⟩

theorem held_mtype {r : Receiver ι} (h : r.held = some m) : m.mtype = r.msgr.mtype := by
  obtain ⟨x, -, rfl⟩ := Option.map_eq_some_iff.1 h
  rfl

theorem exists_held {r : Receiver ι} (h : r.own ≠ none) : ∃ m, r.held = some m := by
  obtain ⟨x, hx⟩ := Option.ne_none_iff_exists'.1 h
  exact ⟨_, congrArg (Option.map _) hx⟩

theorem step_resend (hm : (s.room.recv p).held = some m) (hlt : s.room.queue.length < cap) :
    (sys cap R).step s (.resend p) = some { s with room := { s.room with
      queue := if 1 ≤ m.mtype then s.room.queue ++ [m] else s.room.queue
      recv := update s.room.recv p ⟨(s.room.recv p).msgr, none⟩ } } := by
  have hfits : s.Fits cap (s.room.recv p).msgr.mtype := fun _ => hlt
  change step cap R s (.resend p) = _
  rw [step, if_pos hfits, QueueChat.step, hm]
  rfl

theorem of_confirm (h : step cap R s (.confirm p) = some t) : s.room.sender p = .confirm ∧
    ∃ a l, s.input p = a :: l ∧ t = { s with
      room := { s.room with
        sender := update s.room.sender p (if a = 121 then .left else .loop) }
      input := update s.input p (l.drop 1) } := by
  unfold step at h
  dsimp only at h
  split at h
  · cases h
  · rename_i a l hi
    obtain ⟨r, hr, rfl⟩ := Option.map_eq_some_iff.1 h
    obtain ⟨hc, rfl⟩ := of_guard hr
    exact ⟨hc, a, l, hi, rfl⟩

/-- A message goes into the queue. -/
theorem send_eq (hs : Kept R s.room) (hR : R.Proper) (p : ι) : s.room.send p = { s.room with
    queue := s.room.queue ++ [s.room.message p]
    sent := s.room.sent ++ [s.room.message p]
    sender := update s.room.sender p (after (s.room.msgs p).mtext.bytes) } := by
  apply St.send_pos
  rw [hs.mtype p]
  exact hR.positive p

/-- What a parent process has sent and what is still to come from it stay the same in total. -/
theorem left_step (hs : (sys cap R).Reachable s) (hR : R.Proper) (ht : step cap R s x = some t)
    (q : ι) : authored q t.room.sent + t.left q = authored q s.room.sent + s.left q := by
  cases x with
  | fgets p =>
    obtain ⟨⟨hloop, hp, hi⟩, rfl⟩ := of_guard ht
    congr 1
    by_cases hq : q = p
    · subst hq
      have hpiece := Stdin.fgets_piece (n := 99) (by decide) hi
      rw [left_of_typed (update_self ..), left_of_idle hp, hloop, sends_loop hi, after,
        St.type_text _ hpiece, after]
      simp only [update_self]
    · apply left_congr
      · exact update_of_ne hq ..
      · change (s.room.type p _).msgs q = _
        rw [St.type_msgs, update_of_ne hq]
      · rfl
      · exact update_of_ne hq ..
  | msgsnd p =>
    obtain ⟨⟨hp, -⟩, rfl⟩ := of_guard ht
    rw [send_eq (kept_of_reachable hs) hR, authored_append,
      show (s.room.message p).author = p from rfl]
    by_cases hq : q = p
    · subst hq
      rw [left_of_typed hp, left_of_idle (update_self ..), if_pos rfl, Nat.add_assoc]
      simp only [update_self]
    · rw [if_neg (Ne.symm hq), Nat.add_zero]
      congr 1
      apply left_congr
      · exact update_of_ne hq ..
      · rfl
      · exact update_of_ne hq ..
      · rfl
  | confirm p =>
    obtain ⟨hc, a, l, hi, rfl⟩ := of_confirm ht
    congr 1
    by_cases hq : q = p
    · subst hq
      have hp : s.typed q = false := by
        cases hp : s.typed q with
        | false => rfl
        | true =>
          rw [loop_of_typed hs hp] at hc
          cases hc
      refine Eq.trans (left_of_idle hp) ?_
      rw [left_of_idle hp, hc, hi, sends]
      simp only [update_self]
    · apply left_congr
      · rfl
      · rfl
      · exact update_of_ne hq ..
      · exact update_of_ne hq ..
  | receive p =>
    obtain ⟨-, m, rest, -, rfl⟩ := of_receive ht
    rw [St.take_sent]
    congr 1
    apply left_congr
    · rfl
    · rw [St.take_msgs]
    · rw [St.take_sender]
    · rfl
  | resend p =>
    obtain ⟨m, -, rfl⟩ := of_resend ht
    rfl

theorem left_run (hs : (sys cap R).Reachable s) (hR : R.Proper)
    (hr : (sys cap R).run as s = some t) (q : ι) :
    authored q t.room.sent + t.left q = authored q s.room.sent + s.left q := by
  induction as generalizing s with
  | nil =>
    obtain rfl := Option.some.inj hr
    rfl
  | cons x as ih =>
    obtain ⟨u, hu, hr⟩ := Option.bind_eq_some_iff.1 hr
    rw [ih (.step hs trivial hu) hr, left_step hs hR hu]

/-- `t` is `s` with one more message of `p` in the queue. -/
structure Sent (p : ι) (s t : St ι) : Prop where
  recv : t.room.recv = s.room.recv
  message : ∃ m, m.author = p ∧ t.room.queue = s.room.queue ++ [m] ∧
    t.room.sent = s.room.sent ++ [m]

theorem send_of_typed (hs : (sys cap R).Reachable s) (hR : R.Proper) (hp : s.typed p = true)
    (hcap : s.room.queue.length < cap) : ∃ as t, (sys cap R).run as s = some t ∧ Sent p s t := by
  have hstep : (sys cap R).step s (.msgsnd p) =
      some { s with room := s.room.send p, typed := update s.typed p false } :=
    if_pos ⟨hp, fun _ => hcap⟩
  refine ⟨[.msgsnd p], _, (Sys.run_cons hstep).trans rfl, ?_⟩
  rw [send_eq (kept_of_reachable hs) hR]
  exact ⟨rfl, s.room.message p, rfl, rfl, rfl⟩

theorem send_of_loop (hs : (sys cap R).Reachable s) (hR : R.Proper) (hp : s.typed p = false)
    (hloop : s.room.sender p = .loop) (hleft : 0 < s.left p) (hcap : s.room.queue.length < cap) :
    ∃ as t, (sys cap R).run as s = some t ∧ Sent p s t := by
  have hi : s.input p ≠ [] := by
    intro hi
    rw [left_of_idle hp, hloop, hi, sends] at hleft
    exact absurd hleft (Nat.lt_irrefl 0)
  have hstep : (sys cap R).step s (.fgets p) = some _ := if_pos ⟨hloop, hp, hi⟩
  obtain ⟨as, t, hr, ht⟩ := send_of_typed (.step hs trivial hstep) hR (update_self ..) hcap
  exact ⟨.fgets p :: as, t, (Sys.run_cons hstep).trans hr, ht.recv, ht.message⟩

/-- A parent process with something to send sends it where there is room in the queue. -/
theorem exists_send (hs : (sys cap R).Reachable s) (hR : R.Proper) (hleft : 0 < s.left p)
    (hcap : s.room.queue.length < cap) : ∃ as t, (sys cap R).run as s = some t ∧ Sent p s t := by
  cases hp : s.typed p with
  | true => exact send_of_typed hs hR hp hcap
  | false =>
    cases hc : s.room.sender p with
    | loop => exact send_of_loop hs hR hp hc hleft hcap
    | left =>
      rw [left_of_idle hp, hc, sends] at hleft
      exact absurd hleft (Nat.lt_irrefl 0)
    | confirm =>
      rw [left_of_idle hp, hc] at hleft
      cases hi : s.input p with
      | nil =>
        rw [hi, sends] at hleft
        exact absurd hleft (Nat.lt_irrefl 0)
      | cons a l =>
        rw [hi, sends] at hleft
        split at hleft
        · rw [sends] at hleft
          exact absurd hleft (Nat.lt_irrefl 0)
        rename_i ha
        have hstep : (sys cap R).step s (.confirm p) = some { s with
            room := { s.room with sender := update s.room.sender p .loop }
            input := update s.input p (l.drop 1) } := by
          change step cap R s (.confirm p) = _
          simp only [step, hi, QueueChat.step, hc, ha, if_true, if_false, Option.map_some]
        have hu := Sys.ReachableIf.step hs trivial hstep
        have hleft' : 0 < St.left { s with
            room := { s.room with sender := update s.room.sender p .loop }
            input := update s.input p (l.drop 1) } p := by
          refine Nat.lt_of_lt_of_eq hleft (Eq.trans ?_ (Eq.symm (left_of_idle hp)))
          simp only [update_self]
        obtain ⟨as, t, hr, ht⟩ := send_of_loop hu hR hp (update_self ..) hleft' hcap
        exact ⟨.confirm p :: as, t, (Sys.run_cons hstep).trans hr, ht.recv, ht.message⟩

theorem sum_authored (l : List (Msg ι)) : ∑ p, authored p l = l.length := by
  induction l with
  | nil => exact Finset.sum_const_zero
  | cons m l ih =>
    simp only [authored, List.countP_cons, Finset.sum_add_distrib, decide_eq_true_eq,
      Finset.sum_ite_eq, Finset.mem_univ, if_true]
    rw [List.length_cons, ← ih]
    rfl

/-- The queue is full, and no receiver can take anything. -/
def Jam (cap : Nat) (R : Room ι) (s : St ι) : Prop :=
  cap ≤ s.room.queue.length ∧
    ∀ p, (s.room.recv p).own = none → MsgQueue.receive Msg.mtype (R.group p) s.room.queue = none

theorem Jam.step (h : Jam cap R s) (hs : (sys cap R).Reachable s) (hR : R.Proper)
    (ht : Bounded.step cap R s x = some t) :
    t.room.queue = s.room.queue ∧ t.room.recv = s.room.recv := by
  have hk := kept_of_reachable hs
  cases x with
  | fgets p =>
    obtain ⟨-, rfl⟩ := of_guard ht
    exact ⟨rfl, rfl⟩
  | msgsnd p =>
    obtain ⟨⟨-, hfits⟩, -⟩ := of_guard ht
    have hlt := hfits ((hk.mtype p).symm ▸ hR.positive p)
    exact absurd h.1 (Nat.not_le.2 hlt)
  | confirm p =>
    obtain ⟨-, a, l, -, rfl⟩ := of_confirm ht
    exact ⟨rfl, rfl⟩
  | receive p =>
    obtain ⟨hown, m, rest, hr, -⟩ := of_receive ht
    rw [h.2 p hown] at hr
    cases hr
  | resend p =>
    obtain ⟨hfits, -⟩ := Option.ite_none_right_eq_some.1 ht
    obtain ⟨m, hm, -⟩ := of_resend ht
    have hpos := hk.positive m (hk.sent_of_held hm)
    exact absurd h.1 (Nat.not_le.2 (hfits (held_mtype hm ▸ hpos)))

theorem Jam.run (h : Jam cap R s) (hs : (sys cap R).Reachable s) (hR : R.Proper)
    (hr : (sys cap R).run as s = some t) : t.room.queue = s.room.queue := by
  induction as generalizing s with
  | nil =>
    obtain rfl := Option.some.inj hr
    rfl
  | cons x as ih =>
    obtain ⟨u, hu, hr⟩ := Option.bind_eq_some_iff.1 hr
    obtain ⟨hq, hv⟩ := h.step hs hR hu
    have hjam : Jam cap R u := by
      rw [Jam, hq, hv]
      exact h
    rw [ih hjam (.step hs trivial hu) hr, hq]

/-- Where no message is ever added or taken again, the queue is full, and every member of the
groups whose messages are in it waits to put one of its own back. -/
theorem Stuck.own (h : Stuck cap R s) (hs : (sys cap R).Reachable s) (hR : R.Proper)
    (hm : m ∈ s.room.queue) (hq : R.group q = R.group m.author) :
    (s.room.recv q).own ≠ none := by
  intro hown
  have hk := kept_of_reachable hs
  have htype : m.mtype = R.group q := by
    rw [(hk.genuine m (hk.sent_of_queue hm)).1, hq]
  obtain ⟨x, rest, hr⟩ := MsgQueue.exists_receive (hR.positive q) hm htype
  have hsame := h.2 [.receive q] _ ((Sys.run_cons (step_receive cap hown hr)).trans rfl)
  have hlen := (MsgQueue.receive_perm hr).length_eq
  rw [← hsame, St.take_queue, List.length_cons] at hlen
  omega

theorem Stuck.full (h : Stuck cap R s) (hs : (sys cap R).Reachable s) (hR : R.Proper) :
    cap ≤ s.room.queue.length := by
  by_contra hlt
  have hk := kept_of_reachable hs
  obtain ⟨m, hm⟩ := List.exists_mem_of_ne_nil _ h.1
  obtain ⟨x, hx⟩ := exists_held (h.own hs hR hm rfl)
  have hpos := hk.positive x (hk.sent_of_held hx)
  have hstep := step_resend (R := R) hx (Nat.not_le.1 hlt)
  have hsame := h.2 [.resend m.author] _ ((Sys.run_cons hstep).trans rfl)
  have hlen := congrArg List.length hsame
  rw [if_pos hpos, List.length_append, List.length_singleton] at hlen
  omega

/-- What a receiver is to put back counts besides what is in the queue. -/
theorem authored_queue (hk : Kept R s.room) (hR : R.Proper) (p : ι) :
    authored p s.room.queue + (if (s.room.recv p).own = none then 0 else 1) ≤
      authored p s.room.sent := by
  have hc := congrArg (Multiset.countP fun m => m.author = p) hk.conserved
  rw [Multiset.countP_add, Multiset.countP_add, Multiset.coe_countP, Multiset.coe_countP] at hc
  have hle : s.room.held p ≤ ∑ q, s.room.held q :=
    Finset.single_le_sum (fun _ _ => Multiset.zero_le _) (Finset.mem_univ p)
  have hcount := Multiset.countP_le_of_le (fun m => m.author = p) hle
  have hheld : (if (s.room.recv p).own = none then 0 else 1) ≤
      (s.room.held p).countP fun m => m.author = p := by
    split
    · exact Nat.zero_le _
    · rename_i hown
      obtain ⟨m, hm⟩ := exists_held hown
      have hp : m.author = p := (hk.inv hR).own p m hm
      rw [St.held, hm]
      change 1 ≤ Multiset.countP (fun m => m.author = p) {m}
      rw [Multiset.countP_eq_card.2 fun x hx => Multiset.mem_singleton.1 hx ▸ hp,
        Multiset.card_singleton]
  unfold authored
  omega

/-- The members of the groups in which everyone sends something. -/
def talking (R : Room ι) (n : ι → Nat) : Finset ι := {p | ∀ q, R.group q = R.group p → 0 < n q}

theorem mem_talking {n : ι → Nat} :
    p ∈ talking R n ↔ ∀ q, R.group q = R.group p → 0 < n q := by
  rw [talking, Finset.mem_filter]
  exact and_iff_right (Finset.mem_univ p)

/-- So many messages fit into the queue and the hands of those who talk. -/
theorem Stuck.le (h : Stuck cap R s) (hs : (sys cap R).Reachable s) (hR : R.Proper)
    (hn : ∀ p, authored p s.room.sent ≤ n p) : cap ≤ ∑ p ∈ talking R n, (n p - 1) := by
  have hk := kept_of_reachable hs
  have htalk (m : Msg ι) (hm : m ∈ s.room.queue) : m.author ∈ talking R n := by
    refine mem_talking.2 fun q hq => ?_
    have hle := authored_queue hk hR q
    rw [if_neg (h.own hs hR hm hq)] at hle
    have hq := hn q
    omega
  have hzero (p : ι) (hp : p ∉ talking R n) : authored p s.room.queue = 0 := by
    rw [authored, List.countP_eq_zero]
    intro m hm he
    exact hp (of_decide_eq_true he ▸ htalk m hm)
  calc cap ≤ s.room.queue.length := h.full hs hR
    _ = ∑ p, authored p s.room.queue := (sum_authored _).symm
    _ = ∑ p ∈ talking R n, authored p s.room.queue :=
      (Finset.sum_subset (Finset.subset_univ _) fun p _ hp => hzero p hp).symm
    _ ≤ ∑ p ∈ talking R n, (n p - 1) := by
      apply Finset.sum_le_sum
      intro p hp
      by_cases he : authored p s.room.queue = 0
      · omega
      · obtain ⟨m, hm, hp⟩ := List.countP_pos_iff.1 (Nat.pos_of_ne_zero he)
        have hle := authored_queue hk hR p
        rw [if_neg (h.own hs hR hm (by rw [of_decide_eq_true hp]))] at hle
        have hq := hn p
        omega

/-- A receiver that takes a message of its own member is left to put it back. -/
theorem take_own (hk : Kept R s.room) (hR : R.Proper) (hm : m ∈ s.room.sent) (rest : List (Msg ι)) :
    s.room.take m.author (R.name m.author) m rest = { s.room with
      queue := rest
      recv := update s.room.recv m.author
        ⟨(s.room.recv m.author).msgr.store m.mtype m.body, some (m.id, m.author)⟩ } := by
  unfold St.take
  dsimp only
  rw [if_pos (hk.store_string _ hm (hR.length _))]

/-- Each of `B` sends a message, and its own receiver takes it. -/
theorem exists_held_run (hs : Init R s) (hR : R.Proper) (hcap : 0 < cap) (B : Finset ι)
    (hB : ∀ p ∈ B, 0 < s.left p) : ∃ as t, (sys cap R).run as s = some t ∧ t.room.queue = [] ∧
      (∀ p, (t.room.recv p).own = none ↔ p ∉ B) ∧
      ∀ p, authored p t.room.sent = if p ∈ B then 1 else 0 := by
  have hreach : (sys cap R).Reachable s := .init hs
  induction B using Finset.induction_on with
  | empty =>
    refine ⟨[], s, rfl, hs.room.queue, fun p => ?_, fun p => ?_⟩
    · exact ⟨fun _ => Finset.notMem_empty p, fun _ => hs.room.own p⟩
    · rw [hs.room.sent]
      rfl
  | insert p B hp ih =>
    obtain ⟨as, t, hr, hqueue, hown, hsent⟩ := ih fun q hq => hB q (Finset.mem_insert_of_mem hq)
    have ht : (sys cap R).Reachable t := hreach.run (fun _ _ => trivial) hr
    have hleft : 0 < t.left p := by
      have hrun := left_run hreach hR hr p
      have hpos := hB p (Finset.mem_insert_self p B)
      rw [hsent, if_neg hp, hs.room.sent] at hrun
      change 0 + _ = 0 + _ at hrun
      omega
    obtain ⟨bs, u, hr', hrecv, m, rfl, huq, hus⟩ :=
      exists_send ht hR hleft (by rw [hqueue]; exact hcap)
    have hu : (sys cap R).Reachable u := ht.run (fun _ _ => trivial) hr'
    have hk := kept_of_reachable hu
    have hm : m ∈ u.room.sent := by
      rw [hus]
      exact List.mem_append_right _ (List.mem_singleton_self m)
    have hnone : (u.room.recv m.author).own = none := by
      rw [hrecv]
      exact (hown m.author).2 hp
    have hget : MsgQueue.receive Msg.mtype (R.group m.author) u.room.queue = some (m, []) := by
      rw [huq, hqueue]
      apply MsgQueue.receive_singleton
      rw [(hk.genuine m hm).1]
      exact .self (hR.positive _)
    refine ⟨as ++ (bs ++ [.receive m.author]), _,
      Sys.run_trans hr (Sys.run_trans hr' ((Sys.run_cons (step_receive cap hnone hget)).trans rfl)),
      ?_⟩
    rw [take_own hk hR hm]
    refine ⟨rfl, fun q => ?_, fun q => ?_⟩
    · change (update u.room.recv m.author _ q).own = none ↔ _
      rw [Finset.mem_insert, not_or]
      by_cases hq : q = m.author
      · subst hq
        rw [update_self]
        exact ⟨nofun, fun h => absurd rfl h.1⟩
      · rw [update_of_ne hq, hrecv, hown q]
        exact ⟨fun h => ⟨hq, h⟩, And.right⟩
    · change authored q u.room.sent = _
      rw [hus, authored_append, hsent q]
      by_cases hq : q = m.author
      · subst hq
        rw [if_neg hp, if_pos rfl, if_pos (Finset.mem_insert_self ..)]
      · simp only [Ne.symm hq, if_false, Finset.mem_insert, hq, false_or, Nat.add_zero]

/-- The receivers of `B` hold messages, and only those members talk. -/
structure Loaded (B : Finset ι) (s : St ι) : Prop where
  own : ∀ p ∈ B, (s.room.recv p).own ≠ none
  queue : ∀ m ∈ s.room.queue, m.author ∈ B
  sent : ∑ p ∈ B, authored p s.room.sent = B.card + s.room.queue.length

theorem Loaded.send (h : Loaded B s) (ht : Sent p s t) (hp : p ∈ B) : Loaded B t := by
  obtain ⟨hrecv, m, rfl, hqueue, hsent⟩ := ht
  constructor
  case own =>
    rw [hrecv]
    exact h.own
  case queue =>
    intro x hx
    rw [hqueue] at hx
    rcases List.mem_append.1 hx with hx | hx
    · exact h.queue x hx
    · rw [List.mem_singleton.1 hx]
      exact hp
  case sent =>
    simp only [hsent, hqueue, authored_append, Finset.sum_add_distrib, Finset.sum_ite_eq, hp,
      if_true, h.sent, List.length_append, List.length_singleton]
    omega

/-- They fill the queue. -/
theorem Loaded.fill (h : Loaded B s) (hs : (sys cap R).Reachable s) (hR : R.Proper)
    (hq : s.room.queue = []) (hB : cap + B.card ≤ ∑ p ∈ B, (authored p s.room.sent + s.left p))
    (hk : k ≤ cap) :
    ∃ as t, (sys cap R).run as s = some t ∧ Loaded B t ∧ t.room.queue.length = k := by
  induction k with
  | zero => exact ⟨[], s, rfl, h, by rw [hq]; rfl⟩
  | succ k ih =>
    obtain ⟨as, t, hr, ht, hlen⟩ := ih (Nat.le_of_succ_le hk)
    obtain ⟨p, hp, hleft⟩ : ∃ p ∈ B, 0 < t.left p := by
      by_contra hnone
      have hzero (p : ι) (hp : p ∈ B) : t.left p = 0 :=
        Nat.eq_zero_of_not_pos fun hpos => hnone ⟨p, hp, hpos⟩
      have hsum : ∑ p ∈ B, (authored p s.room.sent + s.left p) =
          ∑ p ∈ B, authored p t.room.sent := by
        apply Finset.sum_congr rfl
        intro p hp
        rw [← left_run hs hR hr p, hzero p hp, Nat.add_zero]
      rw [hsum, ht.sent, hlen] at hB
      omega
    obtain ⟨bs, u, hr', hu⟩ := exists_send (hs.run (fun _ _ => trivial) hr) hR hleft
      (by rw [hlen]; exact hk)
    obtain ⟨-, m, -, hqueue, -⟩ := id hu
    refine ⟨as ++ bs, u, Sys.run_trans hr hr', ht.send hu hp, ?_⟩
    rw [hqueue, List.length_append, hlen]
    rfl

/-- Of the groups whose messages fill the queue no receiver is free, and the others wait. -/
theorem Loaded.jam {n : ι → Nat} (h : Loaded (talking R n) s) (hs : (sys cap R).Reachable s)
    (hR : R.Proper) (hfull : cap ≤ s.room.queue.length) : Jam cap R s := by
  refine ⟨hfull, fun q hown => ?_⟩
  have hk := kept_of_reachable hs
  rw [Option.eq_none_iff_forall_ne_some]
  rintro ⟨m, rest⟩ hr
  have hm : m ∈ s.room.queue := (MsgQueue.receive_perm hr).mem_iff.2 List.mem_cons_self
  have hsel := MsgQueue.receive_selects hr
  rw [Selects, if_neg (ne_of_gt (hR.positive q)), if_pos (hR.positive q),
    (hk.genuine m (hk.sent_of_queue hm)).1] at hsel
  have hq : q ∈ talking R n := by
    refine mem_talking.2 fun r hr => mem_talking.1 (h.queue m hm) r ?_
    rw [hr, hsel]
  exact h.own q hq hown

/-- A queue of bounded size can come to hold messages for good, with the queue full and everyone
who could take one waiting to put one back, exactly if it takes no more messages than those
members type beyond their first who are in groups in which everyone types. -/
theorem stuck_iff (hR : R.Proper) (hcap : 0 < cap) (hs : Init R s) :
    (∃ as t, (sys cap R).run as s = some t ∧ Stuck cap R t) ↔
      cap ≤ ∑ p ∈ talking R (fun p => sends .loop (s.input p)), (sends .loop (s.input p) - 1) := by
  have hreach : (sys cap R).Reachable s := .init hs
  have hleft (p : ι) : s.left p = sends .loop (s.input p) := by
    rw [left_of_idle (hs.typed p), hs.room.sender p]
  have hnil (p : ι) : authored p s.room.sent = 0 := by
    rw [hs.room.sent]
    rfl
  constructor
  · rintro ⟨as, t, hr, ht⟩
    apply ht.le (hreach.run (fun _ _ => trivial) hr) hR
    intro p
    have hrun := left_run hreach hR hr p
    have hp := hleft p
    have hz := hnil p
    omega
  · intro hle
    set n : ι → Nat := fun p => sends .loop (s.input p) with hn
    have hpos (p : ι) (hp : p ∈ talking R n) : 0 < n p := mem_talking.1 hp p rfl
    obtain ⟨as, t, hr, hqueue, hown, hsent⟩ := exists_held_run hs hR hcap (talking R n)
      fun p hp => (hleft p).symm ▸ hpos p hp
    have ht : (sys cap R).Reachable t := hreach.run (fun _ _ => trivial) hr
    have hload : Loaded (talking R n) t := by
      refine ⟨fun p hp hnone => (hown p).1 hnone hp, ?_, ?_⟩
      · rw [hqueue]
        nofun
      · rw [hqueue, Finset.card_eq_sum_ones]
        exact Finset.sum_congr rfl fun p hp => by rw [hsent p, if_pos hp]
    have hsum : cap + (talking R n).card ≤
        ∑ p ∈ talking R n, (authored p t.room.sent + t.left p) := by
      calc cap + (talking R n).card ≤ ∑ p ∈ talking R n, (n p - 1) + (talking R n).card :=
            Nat.add_le_add_right hle _
        _ = ∑ p ∈ talking R n, (n p - 1 + 1) := by
          rw [Finset.sum_add_distrib, Finset.card_eq_sum_ones]
        _ = ∑ p ∈ talking R n, (authored p t.room.sent + t.left p) := by
          apply Finset.sum_congr rfl
          intro p hp
          have hrun := left_run hreach hR hr p
          have hl := hleft p
          have hz := hnil p
          have hp' := hpos p hp
          simp only [hn] at hp' ⊢
          omega
    obtain ⟨bs, u, hr', hu, hlen⟩ := hload.fill ht hR hqueue hsum (Nat.le_refl cap)
    have hreachu := ht.run (fun _ _ => trivial) hr'
    refine ⟨as ++ bs, u, Sys.run_trans hr hr', ?_, ?_⟩
    · apply List.ne_nil_of_length_pos
      omega
    · intro cs v hv
      exact (hu.jam hreachu hR hlen.ge).run hreachu hR hv

end

/-- Two members of one group who type two lines each can fill a queue of two for good. -/
theorem stuck_iff_couple : ∃ as t, (sys 2 couple).run as
    ⟨coupled, fun _ => ascii "a\nb\n", fun _ => false⟩ = some t ∧ Stuck 2 couple t := by
  refine (stuck_iff couple_proper (by decide) ⟨coupled_init, fun _ => rfl⟩).2 ?_
  have h2 : sends .loop (ascii "a\nb\n") = 2 := by
    change sends .loop [97, 10, 98, 10] = 2
    have hf : Stdin.fgets 99 [97, 10, 98, 10] = ([97, 10], [98, 10]) := rfl
    have hf' : Stdin.fgets 99 [98, 10] = ([98, 10], []) := rfl
    have ha : after [97, 10] = .loop := by decide
    have hb : after [98, 10] = .loop := by decide
    rw [sends, hf, ha, sends, hf', hb, sends]
  simp only [h2]
  decide

end LinuxIpc.QueueChat.Bounded
