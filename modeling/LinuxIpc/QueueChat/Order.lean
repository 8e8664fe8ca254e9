import LinuxIpc.QueueChat.Delivery
import Mathlib.Data.List.Sort

namespace LinuxIpc.QueueChat
set_option autoImplicit true
set_option linter.unusedSectionVars false

open Function (update)

section
variable {ι : Type} [DecidableEq ι] {R : Room ι} {s t : St ι}

/-- What `b` has printed of the messages of `a`. -/
def St.seen (s : St ι) (b a : ι) : List (Msg ι) :=
  (s.printed.filter fun x => x.reader = b ∧ x.msg.author = a).map Printed.msg

/-- The author has sent nothing since. -/
def St.Latest (s : St ι) (m : Msg ι) : Prop := ∀ n ∈ s.sent, n.author = m.author → n.id ≤ m.id

instance (s : St ι) (m : Msg ι) : Decidable (s.Latest m) :=
  inferInstanceAs (Decidable (∀ n ∈ s.sent, _))

/-- A receiver puts a message back only while its author has sent no later one. -/
def InTurn (s : St ι) : Act ι → Prop
  | .resend p => ∀ m ∈ (s.recv p).held, s.Latest m
  | _ => True

instance (s : St ι) (a : Act ι) : Decidable (InTurn s a) := by
  cases a <;> unfold InTurn <;> infer_instance

/-- Of one author's messages the earlier one comes first. -/
def Earlier (m n : Msg ι) : Prop := m.author = n.author → m.id < n.id

variable [Fintype ι]

structure Ordered (R : Room ι) (s : St ι) : Prop extends Kept R s where
  queued : s.queue.Pairwise Earlier
  ahead : ∀ x ∈ s.printed, ∀ m ∈ s.queue, Earlier x.msg m
  seen : (s.printed.map Printed.msg).Pairwise Earlier

theorem Kept.id_lt (h : Kept R s) (hm : m ∈ s.sent) : m.id < s.sent.length := by
  rw [← List.mem_range, ← h.ids]
  exact List.mem_map_of_mem hm

theorem Ordered.init (h : Init R s) : Ordered R s where
  toKept := .init h
  queued := by rw [h.queue]; exact .nil
  ahead := by rw [h.printed]; nofun
  seen := by rw [h.printed]; exact .nil

theorem Ordered.send (h : Ordered R s) (p : ι) (l : List UInt8) :
    Ordered R ((s.type p l).send p) := by
  have hk := (h.toKept.type p l).send p
  have hnew : ∀ m ∈ s.sent, Earlier m ((s.type p l).message p) := fun m hm _ => h.id_lt hm
  refine { hk with queued := ?_, ahead := ?_, seen := ?_ } <;> unfold St.send <;> split
  · apply List.pairwise_append.2
    refine ⟨h.queued, List.pairwise_singleton .., ?_⟩
    intro m hm n hn
    obtain rfl := List.mem_singleton.1 hn
    exact hnew m (h.sent_of_queue hm)
  · exact h.queued
  · intro x hx m hm
    rcases List.mem_append.1 hm with hm | hm
    · exact h.ahead x hx m hm
    · obtain rfl := List.mem_singleton.1 hm
      exact hnew x.msg (h.sent_of_printed hx)
  · exact h.ahead
  · exact h.seen
  · exact h.seen

theorem Ordered.take (h : Ordered R s) (hown : (s.recv p).own = none)
    (hr : MsgQueue.receive Msg.mtype (R.group p) s.queue = some (m, rest)) :
    Ordered R (s.take p (R.name p) m rest) := by
  have hk := h.toKept.take hown hr
  obtain ⟨front, back, hq, rfl, hfront⟩ := MsgQueue.receive_split hr
  have hsub : (front ++ back).Sublist s.queue := by
    rw [hq]
    exact (List.sublist_cons_self m back).append_left front
  have hmq : m ∈ s.queue := hq ▸ List.mem_append_right front List.mem_cons_self
  have hm := h.sent_of_queue hmq
  have hpair := h.queued
  rw [hq, List.pairwise_append, List.pairwise_cons] at hpair
  refine { hk with queued := ?_, ahead := ?_, seen := ?_ } <;> unfold St.take <;>
    dsimp only <;> split
  · exact h.queued.sublist hsub
  · exact h.queued.sublist hsub
  · exact fun x hx n hn => h.ahead x hx n (hsub.subset hn)
  · intro x hx n hn
    rcases List.mem_append.1 hx with hx | hx
    · exact h.ahead x hx n (hsub.subset hn)
    · obtain rfl := List.mem_singleton.1 hx
      rcases List.mem_append.1 hn with hn | hn
      · -- one author's messages are all of one type, and none of that type stood before `m`
        intro he
        have hns := h.sent_of_queue (hq ▸ List.mem_append_left (m :: back) hn)
        apply (hfront n hn _).elim
        rw [(h.genuine n hns).1, (h.genuine m hm).1, ← he]
      · exact hpair.2.1.1 n hn
  · exact h.seen
  · rw [List.map_append, List.pairwise_append]
    refine ⟨h.seen, List.pairwise_singleton .., ?_⟩
    intro n hn n' hn'
    obtain ⟨x, hx, rfl⟩ := List.mem_map.1 hn
    obtain rfl := List.mem_singleton.1 hn'
    exact h.ahead x hx n' hmq

theorem Ordered.resend (h : Ordered R s) (hm : (s.recv p).held = some m) (hl : s.Latest m) :
    Ordered R { s with
      queue := if 1 ≤ m.mtype then s.queue ++ [m] else s.queue
      recv := update s.recv p ⟨(s.recv p).msgr, none⟩ } := by
  have hk := h.toKept.resend hm
  have hms := h.sent_of_held hm
  obtain ⟨hmq, hmp⟩ := h.apart.2.2.1 p m hm
  rw [if_pos (h.positive m hms)] at hk ⊢
  have hlast : ∀ n ∈ s.sent, n ≠ m → Earlier n m := by
    intro n hn hne he
    exact Nat.lt_of_le_of_ne (hl n hn he) fun hid => hne (h.id_inj hn hms hid)
  refine { hk with queued := ?_, ahead := ?_, seen := h.seen }
  · apply List.pairwise_append.2
    refine ⟨h.queued, List.pairwise_singleton .., ?_⟩
    intro n hn n' hn'
    obtain rfl := List.mem_singleton.1 hn'
    exact hlast n (h.sent_of_queue hn) fun he => hmq (he ▸ hn)
  · intro x hx n hn
    rcases List.mem_append.1 hn with hn | hn
    · exact h.ahead x hx n hn
    · obtain rfl := List.mem_singleton.1 hn
      exact hlast x.msg (h.sent_of_printed hx) fun he => hmp (he ▸ List.mem_map_of_mem hx)

theorem Ordered.step (h : Ordered R s) (hg : InTurn s a) (ht : QueueChat.step R s a = some t) :
    Ordered R t := by
  cases a with
  | send p l =>
    obtain ⟨-, rfl⟩ := of_guard ht
    exact h.send p l
  | confirm p a =>
    have hk := h.toKept.step ht
    obtain ⟨-, rfl⟩ := of_guard ht
    exact { hk with queued := h.queued, ahead := h.ahead, seen := h.seen }
  | receive p =>
    simp only [QueueChat.step, Option.ite_none_right_eq_some, Option.map_eq_some_iff,
      Prod.exists] at ht
    obtain ⟨hown, m, rest, hr, rfl⟩ := ht
    exact h.take hown hr
  | resend p =>
    obtain ⟨m, hm, rfl⟩ := Option.map_eq_some_iff.1 ht
    exact h.resend hm (hg m hm)

theorem Kept.sent_pairwise (h : Kept R s) : s.sent.Pairwise fun m n => m.id < n.id := by
  rw [← List.pairwise_map (f := Msg.id) (R := (· < ·)), h.ids]
  exact List.pairwise_lt_range

/-- What has been seen of one author in the order of its numbers was seen in the order in which
it was sent. -/
theorem Kept.sublist_of_pairwise (h : Kept R s) {l : List (Msg ι)} (hl : l ⊆ s.sent)
    (hp : l.Pairwise fun m n => m.id < n.id) : l.Sublist s.sent := by
  have hn : l.Nodup := by
    apply hp.imp
    intro m n hlt he
    rw [he] at hlt
    exact Nat.lt_irrefl _ hlt
  have : Std.Antisymm fun m n : Msg ι => m.id < n.id :=
    ⟨fun m n hmn hnm => (Nat.lt_asymm hmn hnm).elim⟩
  exact List.sublist_of_subperm_of_pairwise (List.subperm_of_subset hn hl) hp h.sent_pairwise

/-- Where nothing is put back behind a later message of its author, everyone prints the messages of
each author in the order in which they were sent. -/
theorem seen_in_order (h : (sys R).ReachableIf InTurn s) (b a : ι) :
    (s.seen b a).Sublist s.sent := by
  have ho : Ordered R s := by
    apply h.invariant
    · intro s hs
      exact .init hs
    · intro s a t hs hg ht
      exact hs.step hg ht
  apply ho.sublist_of_pairwise
  · intro m hm
    obtain ⟨x, hx, rfl⟩ := List.mem_map.1 hm
    exact ho.sent_of_printed (List.mem_filter.1 hx).1
  · have hsub : (s.seen b a).Sublist (s.printed.map Printed.msg) := List.filter_sublist.map _
    have ha : ∀ m ∈ s.seen b a, m.author = a := by
      intro m hm
      obtain ⟨x, hx, rfl⟩ := List.mem_map.1 hm
      exact (of_decide_eq_true (List.mem_filter.1 hx).2).2
    apply (ho.seen.sublist hsub).imp_of_mem
    intro m n hm hn he
    exact he ((ha m hm).trans (ha n hn).symm)

end

/-- The first message is in the hand of its author's receiver while the second one is printed. -/
theorem not_seen_in_order : couple.Proper ∧ ∃ as s, (sys couple).run as coupled = some s ∧
    ¬ (s.seen 1 0).Sublist s.sent := by
  have hr : (((sys couple).run [.send 0 [97, 10], .send 0 [98, 10], .receive 0, .receive 1,
      .resend 0, .receive 1] coupled).map fun s =>
        ((s.seen 1 0).map Msg.id, s.sent.map Msg.id)) = some ([1, 0], [0, 1]) := by decide
  obtain ⟨s, hs, he⟩ := Option.map_eq_some_iff.1 hr
  obtain ⟨hseen, hsent⟩ := Prod.mk.inj he
  refine ⟨couple_proper, _, s, hs, fun hsub => ?_⟩
  have hids := hsub.map Msg.id
  rw [hseen, hsent] at hids
  exact absurd hids (by decide)

theorem seen_in_order_couple : ∃ s, (sys couple).runIf InTurn [.send 0 [97, 10], .receive 0,
    .resend 0, .send 0 [98, 10], .receive 1, .receive 1] coupled = some s ∧
    s.printed.length = 2 ∧ (s.seen 1 0).Sublist s.sent := by
  have hr : (((sys couple).runIf InTurn [.send 0 [97, 10], .receive 0, .resend 0,
      .send 0 [98, 10], .receive 1, .receive 1] coupled).map fun s => s.printed.length) =
      some 2 := by decide
  obtain ⟨s, hs, hp⟩ := Option.map_eq_some_iff.1 hr
  exact ⟨s, hs, hp, seen_in_order (.runIf (.init coupled_init) hs) 1 0⟩

end LinuxIpc.QueueChat
