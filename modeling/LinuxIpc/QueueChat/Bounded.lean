import LinuxIpc.Lib.Simulation
import LinuxIpc.Lib.Stdin
import LinuxIpc.QueueChat.Membership

namespace LinuxIpc.QueueChat.Bounded
set_option autoImplicit true
set_option linter.unusedSectionVars false

open Function (update update_self update_of_ne)
open Stdin (fgets)

/-- A room whose queue takes only so many messages, with what its members have still to type.
`typed` says that the parent process has read a line and is in `msgsnd`. -/
structure St (ι : Type) where
  room : QueueChat.St ι
  input : ι → List UInt8
  typed : ι → Bool

inductive Act (ι : Type) where
  | fgets (p : ι)
  | msgsnd (p : ι)
  -- `scanf("%c",&a)` and `getchar()` in `fun_ctrl_c`
  | confirm (p : ι)
  | receive (p : ι)
  | resend (p : ι)

/-- `msgsnd` waits until there is room for a message, unless it refuses the type. -/
def St.Fits (s : St ι) (cap : Nat) (mtype : Int) : Prop := 1 ≤ mtype → s.room.queue.length < cap

instance (s : St ι) (cap : Nat) (mtype : Int) : Decidable (s.Fits cap mtype) :=
  inferInstanceAs (Decidable (_ → _))

section
variable {ι : Type} [DecidableEq ι] {R : Room ι}

/-- At the end of its input a parent process says for ever that an empty message cannot be
sent. -/
def step (cap : Nat) (R : Room ι) (s : St ι) : Act ι → Option (St ι)
  | .fgets p =>
    if s.room.sender p = .loop ∧ s.typed p = false ∧ s.input p ≠ [] then
      some
        { room := s.room.type p (fgets 99 (s.input p)).1
          input := update s.input p (fgets 99 (s.input p)).2
          typed := update s.typed p true }
    else none
  | .msgsnd p =>
    if s.typed p = true ∧ s.Fits cap (s.room.msgs p).mtype then
      some { s with room := s.room.send p, typed := update s.typed p false }
    else none
  | .confirm p =>
    match s.input p with
    | [] => none
    | a :: l => (QueueChat.step R s.room (.confirm p a)).map fun r =>
      { s with room := r, input := update s.input p (l.drop 1) }
  | .receive p => (QueueChat.step R s.room (.receive p)).map fun r => { s with room := r }
  | .resend p =>
    if s.Fits cap (s.room.recv p).msgr.mtype then
      (QueueChat.step R s.room (.resend p)).map fun r => { s with room := r }
    else none

structure Init (R : Room ι) (s : St ι) : Prop where
  room : QueueChat.Init R s.room
  typed : ∀ p, s.typed p = false

def sys (cap : Nat) (R : Room ι) : Sys (St ι) (Act ι) := ⟨Init R, step cap R⟩

/-- The same room where no one has to wait: a line that waits in `msgsnd` has yet to be typed. -/
structure Ahead (typed : ι → Bool) (r a : QueueChat.St ι) : Prop where
  eq : { a with msgs := r.msgs } = r
  idle : ∀ p, typed p = false → r.msgs p = a.msgs p
  typed : ∀ p, typed p = true → a.sender p = .loop ∧
    ∃ l, Piece l ∧ r.msgs p = (a.type p l).msgs p

theorem type_msgs_self (a : QueueChat.St ι) (p : ι) (l : List UInt8) :
    (a.type p l).msgs p = { a.msgs p with mtext := (a.msgs p).mtext.overwrite (l ++ [0]) } :=
  update_self ..

theorem send_msgs (r : QueueChat.St ι) (p : ι) : (r.send p).msgs = r.msgs := by
  unfold St.send
  split <;> rfl

theorem send_sender {r : QueueChat.St ι} (h : q ≠ p) : (r.send p).sender q = r.sender q := by
  unfold St.send
  split
  · exact update_of_ne h ..
  · rfl

/-- An action of the unbounded room that types nothing. -/
def Quiet : QueueChat.Act ι → Prop
  | .send _ _ => False
  | .confirm _ _ | .receive _ | .resend _ => True

/-- It does not look at what has been typed. -/
theorem step_msgs (hx : Quiet x) (a : QueueChat.St ι) (m : ι → Msgbuf) :
    QueueChat.step R { a with msgs := m } x =
      (QueueChat.step R a x).map fun b => { b with msgs := m } := by
  cases x with
  | send p l => exact hx.elim
  | confirm p c =>
    unfold QueueChat.step
    dsimp only
    split <;> rfl
  | receive p =>
    unfold QueueChat.step
    dsimp only
    split
    · rw [Option.map_map]
      congr 1
      funext ⟨y, rest⟩
      simp only [Function.comp_apply, St.take]
      split <;> rfl
    · rfl
  | resend p =>
    unfold QueueChat.step
    dsimp only
    rw [Option.map_map]
    rfl

theorem msgs_of_step {a b : QueueChat.St ι} (hx : Quiet x)
    (h : QueueChat.step R a x = some b) : b.msgs = a.msgs := by
  have hm := step_msgs hx a a.msgs (R := R)
  change QueueChat.step R a x = _ at hm
  rw [h, Option.map_some] at hm
  rw [Option.some.inj hm]

/-- Only an answer moves a parent process. -/
theorem sender_of_step {a b : QueueChat.St ι} (hx : Quiet x)
    (h : QueueChat.step R a x = some b) (hp : a.sender p = .loop) : b.sender p = .loop := by
  cases x with
  | send q l => exact hx.elim
  | confirm q c =>
    obtain ⟨hq, rfl⟩ := of_guard h
    have hne : p ≠ q := by
      rintro rfl
      rw [hp] at hq
      cases hq
    change update a.sender q _ p = _
    rw [update_of_ne hne, hp]
  | receive q =>
    simp only [QueueChat.step, Option.ite_none_right_eq_some, Option.map_eq_some_iff,
      Prod.exists] at h
    obtain ⟨-, m, rest, -, rfl⟩ := h
    rw [St.take_sender, hp]
  | resend q =>
    obtain ⟨m, -, rfl⟩ := Option.map_eq_some_iff.1 h
    exact hp

namespace Ahead

variable {typed : ι → Bool} {r r' a : QueueChat.St ι}

theorem init (ht : ∀ p, typed p = false) : Ahead typed r r where
  eq := rfl
  idle _ _ := rfl
  typed p hp := by
    rw [ht p] at hp
    cases hp

theorem type (h : Ahead typed r a) (hloop : r.sender p = .loop) (hp : typed p = false)
    (hl : Piece l) : Ahead (update typed p true) (r.type p l) a where
  eq := by
    rw [← h.eq]
    rfl
  idle q hq := by
    have hne : q ≠ p := by
      rintro rfl
      rw [update_self] at hq
      cases hq
    rw [update_of_ne hne] at hq
    rw [St.type_msgs, update_of_ne hne]
    exact h.idle q hq
  typed q hq := by
    by_cases hne : q = p
    · subst hne
      rw [← h.eq] at hloop
      exact ⟨hloop, l, hl, by rw [type_msgs_self, type_msgs_self, h.idle q hp]⟩
    · rw [update_of_ne hne] at hq
      rw [St.type_msgs, update_of_ne hne]
      exact h.typed q hq

/-- Once a line is in the queue, it has been typed. -/
theorem send (h : Ahead typed r a) (hp : typed p = true) :
    ∃ l, QueueChat.step R a (.send p l) = some ((a.type p l).send p) ∧
      Ahead (update typed p false) (r.send p) ((a.type p l).send p) := by
  obtain ⟨hloop, l, hl, he⟩ := h.typed p hp
  have hmsgs : ((a.type p l).send p).msgs = (a.type p l).msgs := send_msgs ..
  have hother {q : ι} (hne : q ≠ p) : (a.type p l).msgs q = a.msgs q := by
    rw [St.type_msgs, update_of_ne hne]
  refine ⟨l, step_send (R := R) hloop hl, ⟨?_, fun q hq => ?_, fun q hq => ?_⟩⟩
  · have hsent : r.sent = a.sent := by rw [← h.eq]
    have hm : r.message p = (a.type p l).message p := by
      rw [St.message, St.message, he, hsent]
      rfl
    rw [send_msgs, St.send, St.send, hm, he]
    split
    · conv_rhs => rw [← h.eq]
      rfl
    · conv_rhs => rw [← h.eq]
      rfl
  · rw [send_msgs, hmsgs]
    by_cases hne : q = p
    · rw [hne, he]
    · rw [update_of_ne hne] at hq
      rw [hother hne, h.idle q hq]
  · have hne : q ≠ p := by
      rintro rfl
      rw [update_self] at hq
      cases hq
    rw [update_of_ne hne] at hq
    obtain ⟨hloop', l', hl', he'⟩ := h.typed q hq
    refine ⟨?_, l', hl', ?_⟩
    · rw [send_sender hne]
      exact hloop'
    · rw [send_msgs, he', type_msgs_self, type_msgs_self, hmsgs, hother hne]

/-- All else goes on in step. -/
theorem step (h : Ahead typed r a) (hx : Quiet x) (hr : QueueChat.step R r x = some r') :
    ∃ b, QueueChat.step R a x = some b ∧ Ahead typed r' b := by
  rw [← h.eq, step_msgs hx] at hr
  obtain ⟨b, hb, rfl⟩ := Option.map_eq_some_iff.1 hr
  have hm := msgs_of_step hx hb
  refine ⟨b, hb, ⟨rfl, fun p hp => ?_, fun p hp => ?_⟩⟩
  · rw [hm]
    exact h.idle p hp
  · obtain ⟨hloop, l, hl, he⟩ := h.typed p hp
    refine ⟨sender_of_step hx hb hloop, l, hl, ?_⟩
    change r.msgs p = _
    rw [he, type_msgs_self, type_msgs_self, hm]

end Ahead

/-- What a step of the bounded room is in the unbounded one. -/
theorem step_ahead {s t : St ι} {a : QueueChat.St ι} (h : Ahead s.typed s.room a)
    (ht : step cap R s x = some t) :
    Ahead t.typed t.room a ∨ ∃ y b, QueueChat.step R a y = some b ∧ Ahead t.typed t.room b := by
  cases x with
  | fgets p =>
    obtain ⟨⟨hloop, hp, hi⟩, rfl⟩ := of_guard ht
    exact .inl (h.type hloop hp (Stdin.fgets_piece (by decide) hi))
  | msgsnd p =>
    obtain ⟨⟨hp, -⟩, rfl⟩ := of_guard ht
    obtain ⟨l, hl, hb⟩ := h.send hp
    exact .inr ⟨_, _, hl, hb⟩
  | confirm p =>
    unfold step at ht
    dsimp only at ht
    split at ht
    · cases ht
    · obtain ⟨r, hr, rfl⟩ := Option.map_eq_some_iff.1 ht
      obtain ⟨b, hb⟩ := h.step (x := .confirm p _) trivial hr
      exact .inr ⟨_, b, hb⟩
  | receive p =>
    obtain ⟨r, hr, rfl⟩ := Option.map_eq_some_iff.1 ht
    obtain ⟨b, hb⟩ := h.step (x := .receive p) trivial hr
    exact .inr ⟨_, b, hb⟩
  | resend p =>
    obtain ⟨-, ht⟩ := Option.ite_none_right_eq_some.1 ht
    obtain ⟨r, hr, rfl⟩ := Option.map_eq_some_iff.1 ht
    obtain ⟨b, hb⟩ := h.step (x := .resend p) trivial hr
    exact .inr ⟨_, b, hb⟩

theorem simulates (cap : Nat) (R : Room ι) :
    (sys cap R).Simulates (fun _ _ => True) (QueueChat.sys R)
      fun s a => Ahead s.typed s.room a where
  init s hs := ⟨s.room, hs.room, .init hs.typed⟩
  step s x t a h _ ht := by
    rcases step_ahead h ht with h' | ⟨y, b, hy, h'⟩
    · exact .inl h'
    · exact .inr ⟨y, b, hy, h'⟩

/-- Where members have to wait for room in the queue, nothing happens that could not happen where
they do not: all but the lines that they have typed and not sent yet is as in a room without that
bound. -/
theorem bounded_refines {s : St ι} (h : (sys cap R).Reachable s) :
    ∃ a, (QueueChat.sys R).Reachable a ∧ { a with msgs := s.room.msgs } = s.room := by
  obtain ⟨a, ha, hs⟩ := (simulates cap R).reachable h
  exact ⟨a, ha, hs.eq⟩

end

/-- Both have typed a line, and there is room in the queue for one of them. -/
theorem bounded_refines_couple : ∃ s, (sys 1 couple).run [.fgets 0, .fgets 1, .msgsnd 1]
    ⟨coupled, fun _ => ascii "hi\n", fun _ => false⟩ = some s ∧ s.typed 0 = true ∧
    s.room.queue.length = 1 ∧
    ∃ a, (QueueChat.sys couple).Reachable a ∧ { a with msgs := s.room.msgs } = s.room := by
  have hr : ((sys 1 couple).run [.fgets 0, .fgets 1, .msgsnd 1]
      ⟨coupled, fun _ => ascii "hi\n", fun _ => false⟩).map
        (fun s => (s.typed 0, s.room.queue.length)) = some (true, 1) := by decide
  obtain ⟨s, hs, he⟩ := Option.map_eq_some_iff.1 hr
  obtain ⟨htyped, hlen⟩ := Prod.mk.inj he
  have hinit : Init couple ⟨coupled, fun _ => ascii "hi\n", fun _ => false⟩ :=
    ⟨coupled_init, fun _ => rfl⟩
  exact ⟨s, hs, htyped, hlen, bounded_refines (.of_run hinit hs)⟩

section
variable {ι : Type} [Fintype ι] [DecidableEq ι] {R : Room ι}

theorem kept_of_reachable {s : St ι} (h : (sys cap R).Reachable s) : Kept R s.room := by
  obtain ⟨a, ha, hs⟩ := (simulates cap R).reachable h
  have hk := QueueChat.kept_of_reachable ha
  have hm (p : ι) : (s.room.msgs p).mtype = (a.msgs p).mtype ∧
      (s.room.msgs p).name = (a.msgs p).name := by
    cases hp : s.typed p with
    | false => rw [hs.idle p hp]; exact ⟨rfl, rfl⟩
    | true =>
      obtain ⟨-, l, -, he⟩ := hs.typed p hp
      rw [he, type_msgs_self]
      exact ⟨rfl, rfl⟩
  rw [← hs.eq]
  exact { hk with
    mtype := fun p => (hm p).1.trans (hk.mtype p)
    name := fun p => (congrArg Buf.bytes (hm p).2).trans (hk.name p) }

/-- A parent process that has read a line is in its loop. -/
theorem loop_of_typed {s : St ι} (h : (sys cap R).Reachable s) (hp : s.typed p = true) :
    s.room.sender p = .loop := by
  obtain ⟨a, -, hs⟩ := (simulates cap R).reachable h
  rw [← hs.eq]
  exact (hs.typed p hp).1

end

end LinuxIpc.QueueChat.Bounded
