import LinuxIpc.Lib.Family
import LinuxIpc.QueueChat.Room
import Mathlib.Algebra.Order.Group.Multiset
import Mathlib.Tactic.Abel

namespace LinuxIpc.QueueChat
set_option autoImplicit true
set_option linter.unusedSectionVars false

open Function (update)
open MsgQueue (Selects)

section
variable {ι : Type} [Fintype ι] [DecidableEq ι] {R : Room ι} {s t : St ι}

/-- The message that the receiver of `p` has taken and not put back yet, as a multiset. -/
def St.held (s : St ι) (p : ι) : Multiset (Msg ι) := ((s.recv p).held.toList : Multiset (Msg ι))

/-- All that has been sent is in the queue, in the hand of its author's receiver, or printed. -/
def St.Conserved (s : St ι) : Prop :=
  (s.sent : Multiset (Msg ι)) =
    s.queue + ∑ p, s.held p + (s.printed.map Printed.msg : List (Msg ι))

/-- A message as its author sends it. -/
def Genuine (R : Room ι) (m : Msg ι) : Prop :=
  m.mtype = R.group m.author ∧ m.body.bytes.take 10 = (R.name m.author).bytes.take 10

/-- What holds in any room, whatever the group numbers and names. -/
structure Kept (R : Room ι) (s : St ι) : Prop where
  conserved : s.Conserved
  ids : s.sent.map Msg.id = List.range s.sent.length
  genuine : ∀ m ∈ s.sent, Genuine R m
  positive : ∀ m ∈ s.sent, 1 ≤ m.mtype
  mtype : ∀ p, (s.msgs p).mtype = R.group p
  name : ∀ p, (s.msgs p).name.bytes = (R.name p).bytes.take 10
  own : ∀ p, ∀ m ∈ (s.recv p).held, R.Short m.author →
    cstr (R.name m.author).bytes = cstr (R.name p).bytes
  printed : ∀ x ∈ s.printed, Selects (R.group x.reader) x.msg.mtype ∧ (R.Short x.msg.author →
    cstr (R.name x.msg.author).bytes ≠ cstr (R.name x.reader).bytes)

structure Inv (R : Room ι) (s : St ι) : Prop where
  conserved : s.Conserved
  ids : s.sent.map Msg.id = List.range s.sent.length
  genuine : ∀ m ∈ s.sent, Genuine R m
  mtype : ∀ p, (s.msgs p).mtype = R.group p
  name : ∀ p, (s.msgs p).name.bytes = (R.name p).bytes.take 10
  own : ∀ p, ∀ m ∈ (s.recv p).held, m.author = p
  printed : ∀ x ∈ s.printed,
    R.group x.reader = R.group x.msg.author ∧ x.reader ≠ x.msg.author

theorem held_update (s : St ι) (p : ι) (r : Receiver ι) :
    (∑ q, ((update s.recv p r q).held.toList : Multiset (Msg ι))) + s.held p =
      (∑ q, s.held q) + (r.held.toList : Multiset (Msg ι)) := by
  rw [← sum_update s.held p]
  congr 2
  funext q
  by_cases hq : q = p
  · subst hq
    rw [Function.update_self, Function.update_self]
  · rw [Function.update_of_ne hq, Function.update_of_ne hq, St.held]

/-- A receiver may be replaced by one that holds nothing but a message under its own name. -/
theorem Kept.own_update (h : Kept R s)
    (hr : ∀ m ∈ r.held, R.Short m.author →
      cstr (R.name m.author).bytes = cstr (R.name p).bytes) (q : ι) :
    ∀ m ∈ (update s.recv p r q).held, R.Short m.author →
      cstr (R.name m.author).bytes = cstr (R.name q).bytes :=
  (Function.forall_update_iff s.recv fun q r => ∀ m ∈ r.held, R.Short m.author →
    cstr (R.name m.author).bytes = cstr (R.name q).bytes).2
    ⟨hr, fun q _ => h.own q⟩ q

theorem Kept.init (h : Init R s) : Kept R s where
  conserved := by
    have hheld : ∀ p, s.held p = 0 := by
      intro p
      rw [St.held, Receiver.held, h.own p]
      rfl
    simp [St.Conserved, h.queue, h.sent, h.printed, hheld]
  ids := by rw [h.sent]; rfl
  genuine := by rw [h.sent]; nofun
  positive := by rw [h.sent]; nofun
  mtype := h.mtype
  name := h.name
  own p := by rw [Receiver.held, h.own p]; nofun
  printed := by rw [h.printed]; nofun

theorem Kept.type (h : Kept R s) (p : ι) (l : List UInt8) : Kept R (s.type p l) :=
  { h with
    mtype := (Function.forall_update_iff s.msgs fun q b => b.mtype = R.group q).2
      ⟨h.mtype p, fun q _ => h.mtype q⟩
    name := (Function.forall_update_iff s.msgs fun q b =>
      b.name.bytes = (R.name q).bytes.take 10).2
      ⟨h.name p, fun q _ => h.name q⟩ }

theorem Kept.send (h : Kept R s) (p : ι) : Kept R (s.send p) := by
  unfold St.send
  split
  · rename_i hpos
    constructor
    case conserved =>
      have hc := h.conserved
      unfold St.Conserved at hc ⊢
      change ((s.sent ++ [s.message p] : List (Msg ι)) : Multiset (Msg ι)) =
        ((s.queue ++ [s.message p] : List (Msg ι)) : Multiset (Msg ι)) + ∑ q, s.held q + _
      rw [← Multiset.coe_add, ← Multiset.coe_add, hc]
      abel
    case ids =>
      change (s.sent ++ [s.message p]).map Msg.id = List.range (s.sent ++ [s.message p]).length
      rw [List.map_append, h.ids, List.length_append, List.length_singleton, List.range_succ]
      rfl
    case genuine =>
      intro m hm
      rcases List.mem_append.1 hm with hm | hm
      · exact h.genuine m hm
      · obtain rfl := List.mem_singleton.1 hm
        exact ⟨h.mtype p, by rw [St.message, Msgbuf.body_name, h.name p]⟩
    case positive =>
      intro m hm
      rcases List.mem_append.1 hm with hm | hm
      · exact h.positive m hm
      · obtain rfl := List.mem_singleton.1 hm
        exact hpos
    case mtype => exact h.mtype
    case name => exact h.name
    case own => exact h.own
    case printed => exact h.printed
  · exact h

/-- A message that is in the queue has been sent. -/
theorem Kept.sent_of_queue (h : Kept R s) (hm : m ∈ s.queue) : m ∈ s.sent := by
  have hc : m ∈ (s.sent : Multiset (Msg ι)) := by
    rw [h.conserved, Multiset.mem_add, Multiset.mem_add]
    exact .inl (.inl hm)
  exact hc

/-- So has one that a receiver holds. -/
theorem Kept.sent_of_held (h : Kept R s) (hm : (s.recv p).held = some m) : m ∈ s.sent := by
  have hp : m ∈ s.held p := by
    rw [St.held, hm]
    exact Multiset.mem_singleton_self m
  have hc : m ∈ (s.sent : Multiset (Msg ι)) := by
    rw [h.conserved, Multiset.mem_add, Multiset.mem_add, Multiset.mem_sum]
    exact .inl (.inr ⟨p, Finset.mem_univ p, hp⟩)
  exact hc

theorem Kept.sent_of_printed (h : Kept R s) (hx : x ∈ s.printed) : x.msg ∈ s.sent := by
  have hc : x.msg ∈ (s.sent : Multiset (Msg ι)) := by
    rw [h.conserved, Multiset.mem_add]
    exact .inr (List.mem_map_of_mem hx)
  exact hc

/-- The receiver compares names: what it has stored carries that of the author, where this ends
in its field. -/
theorem Kept.store_string (h : Kept R s) (b : Msgbuf) (hm : m ∈ s.sent) (hs : R.Short m.author) :
    (b.store m.mtype m.body).string = cstr (R.name m.author).bytes := by
  rw [Msgbuf.store_string, ← List.take_append_drop 10 m.body.bytes, (h.genuine m hm).2,
    List.append_assoc, hs.cstr_append]

theorem held_store (b : Msgbuf) (m : Msg ι) :
    Receiver.held ⟨b.store m.mtype m.body, some (m.id, m.author)⟩ = some m := by
  rw [Receiver.held, Option.map_some, Msgbuf.store_body]
  rfl

/-- The first message that a receiver asks for, which is put back where it carries the receiver's
own name and printed where it does not. -/
theorem Kept.take (h : Kept R s) (hown : (s.recv p).own = none)
    (hr : MsgQueue.receive Msg.mtype (R.group p) s.queue = some (m, rest)) :
    Kept R (s.take p (R.name p) m rest) := by
  have hperm := MsgQueue.receive_perm hr
  have hqueue : (s.queue : Multiset (Msg ι)) = (rest : Multiset (Msg ι)) + {m} := by
    rw [Multiset.coe_eq_coe.2 hperm, add_comm]
    rfl
  have hsent : m ∈ s.sent := h.sent_of_queue (hperm.mem_iff.2 (List.mem_cons_self ..))
  have hheld : s.held p = 0 := by
    rw [St.held, Receiver.held, hown]
    rfl
  have hc := h.conserved
  unfold St.Conserved at hc
  have hname := h.store_string (s.recv p).msgr hsent
  unfold St.take
  dsimp only
  split
  · rename_i heq
    have hback := held_store (s.recv p).msgr m
    exact { h with
      conserved := by
        have hsum := held_update s p
          ⟨(s.recv p).msgr.store m.mtype m.body, some (m.id, m.author)⟩
        rw [hheld, add_zero, hback] at hsum
        unfold St.Conserved
        change (s.sent : Multiset (Msg ι)) = (rest : Multiset (Msg ι)) +
          ∑ q, ((update s.recv p _ q).held.toList : Multiset (Msg ι)) + _
        rw [hsum, hc, hqueue]
        change _ = _ + (_ + {m}) + _
        abel
      own := by
        apply h.own_update
        intro x hx
        rw [hback] at hx
        obtain rfl := Option.some.inj hx
        exact fun hs => (hname hs).symm.trans heq }
  · rename_i hne
    exact { h with
      conserved := by
        have hsum := held_update s p ⟨(s.recv p).msgr.store m.mtype m.body, none⟩
        rw [hheld, add_zero] at hsum
        unfold St.Conserved
        change (s.sent : Multiset (Msg ι)) = (rest : Multiset (Msg ι)) +
          ∑ q, ((update s.recv p _ q).held.toList : Multiset (Msg ι)) +
          ((s.printed ++ [_]).map Printed.msg : List (Msg ι))
        rw [hsum, hc, hqueue, List.map_append, ← Multiset.coe_add]
        change _ = (rest : Multiset (Msg ι)) + ((∑ q, s.held q) + (0 : Multiset (Msg ι))) +
          (_ + ({m} : Multiset (Msg ι)))
        abel
      own := h.own_update nofun
      printed := by
        intro x hx
        rcases List.mem_append.1 hx with hx | hx
        · exact h.printed x hx
        · obtain rfl := List.mem_singleton.1 hx
          exact ⟨MsgQueue.receive_selects hr, fun hs he => hne ((hname hs).trans he)⟩ }

/-- A message goes back to the end of the queue. -/
theorem Kept.resend (h : Kept R s) (hheld : (s.recv p).held = some m) :
    Kept R { s with
      queue := if 1 ≤ m.mtype then s.queue ++ [m] else s.queue
      recv := update s.recv p ⟨(s.recv p).msgr, none⟩ } := by
  have hc := h.conserved
  unfold St.Conserved at hc
  have hsum := held_update s p ⟨(s.recv p).msgr, none⟩
  have hp : s.held p = {m} := by
    rw [St.held, hheld]
    rfl
  rw [if_pos (h.positive m (h.sent_of_held hheld))]
  exact { h with
    conserved := by
      rw [hp] at hsum
      unfold St.Conserved
      change (s.sent : Multiset (Msg ι)) =
        ((s.queue ++ [m] : List (Msg ι)) : Multiset (Msg ι)) +
          ∑ q, ((update s.recv p _ q).held.toList : Multiset (Msg ι)) + _
      have hsum' : (∑ q, s.held q) =
          (∑ q, ((update s.recv p ⟨(s.recv p).msgr, none⟩ q).held.toList :
            Multiset (Msg ι))) + {m} := by
        rw [hsum]
        exact (add_zero _).symm
      rw [hc, hsum', ← Multiset.coe_add]
      change _ = _ + {m} + _ + _
      abel
    own := h.own_update nofun }

theorem Kept.step (h : Kept R s) (ht : QueueChat.step R s a = some t) : Kept R t := by
  cases a with
  | send p l =>
    obtain ⟨-, rfl⟩ := of_guard ht
    exact (h.type p l).send p
  | confirm p a =>
    obtain ⟨-, rfl⟩ := of_guard ht
    exact { h with }
  | receive p =>
    simp only [QueueChat.step, Option.ite_none_right_eq_some, Option.map_eq_some_iff,
      Prod.exists] at ht
    obtain ⟨hown, m, rest, hr, rfl⟩ := ht
    exact h.take hown hr
  | resend p =>
    obtain ⟨m, hm, rfl⟩ := Option.map_eq_some_iff.1 ht
    exact h.resend hm

theorem kept_of_reachable (h : (sys R).Reachable s) : Kept R s := by
  apply h.invariant
  · intro s hs
    exact .init hs
  · intro s a t hs _ ht
    exact hs.step ht

/-- Whoever asks for a positive type prints messages of its own group. -/
theorem Kept.selected (h : Kept R s) (hx : x ∈ s.printed) (hpos : 0 < R.group x.reader) :
    R.group x.reader = R.group x.msg.author := by
  obtain ⟨hsel, -⟩ := h.printed x hx
  rw [Selects, if_neg (ne_of_gt hpos), if_pos hpos] at hsel
  rw [← hsel, (h.genuine _ (h.sent_of_printed hx)).1]

/-- With distinct names and positive group numbers, own means by oneself and selected means in
one's group. -/
theorem Kept.inv (h : Kept R s) (hR : R.Proper) : Inv R s where
  conserved := h.conserved
  ids := h.ids
  genuine := h.genuine
  mtype := h.mtype
  name := h.name
  own p m hm := hR.distinct _ _ (h.own p m hm (hR.length m.author))
  printed := by
    intro x hx
    refine ⟨h.selected hx (hR.positive x.reader), ?_⟩
    intro he
    exact (h.printed x hx).2 (hR.length _) (by rw [he])

theorem Kept.sent_nodup (h : Kept R s) : (s.sent.map Msg.id).Nodup := by
  rw [h.ids]
  exact List.nodup_range

/-- Two messages sent under one number are the same one. -/
theorem Kept.id_inj (h : Kept R s) (hm : m ∈ s.sent) (hn : n ∈ s.sent) (he : m.id = n.id) :
    m = n :=
  List.inj_on_of_nodup_map h.sent_nodup hm hn he

/-- No message is in two places. -/
theorem Kept.apart (h : Kept R s) : s.queue.Nodup ∧ (s.printed.map Printed.msg).Nodup ∧
    (∀ p, ∀ m ∈ (s.recv p).held, m ∉ s.queue ∧ m ∉ s.printed.map Printed.msg) ∧
    ∀ m ∈ s.queue, m ∉ s.printed.map Printed.msg := by
  have hn : (s.sent : Multiset (Msg ι)).Nodup := h.sent_nodup.of_map
  rw [h.conserved, Multiset.nodup_add, Multiset.nodup_add, Multiset.disjoint_add_left] at hn
  obtain ⟨⟨hq, -, hqh⟩, hp, hqp, hhp⟩ := hn
  refine ⟨hq, hp, ?_, fun m hm hpm => Multiset.disjoint_left.1 hqp hm hpm⟩
  intro p m hm
  have hsum : m ∈ ∑ q, s.held q := by
    rw [Multiset.mem_sum]
    refine ⟨p, Finset.mem_univ p, ?_⟩
    rw [St.held, Option.mem_def.1 hm]
    exact Multiset.mem_singleton_self m
  exact ⟨fun hm => Multiset.disjoint_left.1 hqh hm hsum, Multiset.disjoint_left.1 hhp hsum⟩

/-- And every message sent is in one. -/
theorem Kept.located (h : Kept R s) (hm : m ∈ s.sent) :
    m ∈ s.queue ∨ (∃ p, (s.recv p).held = some m) ∨ ∃ x ∈ s.printed, x.msg = m := by
  have hc : m ∈ (s.sent : Multiset (Msg ι)) := hm
  rw [h.conserved, Multiset.mem_add, Multiset.mem_add, Multiset.mem_sum] at hc
  rcases hc with (hq | ⟨p, -, hp⟩) | hx
  · exact .inl hq
  · rw [St.held, Multiset.mem_coe, Option.mem_toList] at hp
    exact .inr (.inl ⟨p, hp⟩)
  · exact .inr (.inr (List.mem_map.1 hx))

/-- No message is printed twice. -/
theorem Kept.printed_nodup (h : Kept R s) : (s.printed.map fun x => x.msg.id).Nodup := by
  have hp : ((s.printed.map Printed.msg).map Msg.id).Nodup := by
    apply h.apart.2.1.map_on
    intro m hm n hn he
    obtain ⟨x, hx, rfl⟩ := List.mem_map.1 hm
    obtain ⟨y, hy, rfl⟩ := List.mem_map.1 hn
    exact h.id_inj (h.sent_of_printed hx) (h.sent_of_printed hy) he
  rwa [List.map_map] at hp

theorem conservation (hR : R.Proper) (h : (sys R).Reachable s) :
    s.Conserved ∧ (∀ p, ∀ m ∈ (s.recv p).held, m.author = p) ∧
    (s.printed.map fun x => x.msg.id).Nodup ∧
    ∀ x ∈ s.printed, R.group x.reader = R.group x.msg.author ∧ x.reader ≠ x.msg.author := by
  have hk := kept_of_reachable h
  have hi := hk.inv hR
  exact ⟨hi.conserved, hi.own, hk.printed_nodup, hi.printed⟩

end

/-- Two members of one group. -/
def couple : Room (Fin 2) :=
  ⟨fun _ => 1, fun p => (Buf.zero 110).overwrite [97 + p.val.toUInt8], by decide⟩

theorem couple_proper : couple.Proper := by
  constructor
  · intro _
    exact Int.one_pos
  · decide
  · decide

def coupled : St (Fin 2) :=
  ⟨[], fun p => ⟨1, (Buf.zero 10).overwrite [97 + p.val.toUInt8], .zero 100⟩, fun _ => .loop,
    fun _ => ⟨⟨0, .zero 10, .zero 100⟩, none⟩, [], []⟩

theorem coupled_init : Init couple coupled :=
  ⟨rfl, fun _ => rfl, fun _ => rfl, fun _ => rfl, fun _ => rfl, rfl, rfl⟩

/-- A message goes round once before it is printed. -/
theorem conservation_round : ∃ s, (sys couple).run [.send 0 [104, 105, 10], .receive 0, .resend 0,
    .receive 1] coupled = some s ∧ s.printed.map (fun x => (x.reader, x.text)) =
    [(1, [104, 105, 10])] ∧ s.Conserved := by
  have hr : (((sys couple).run [.send 0 [104, 105, 10], .receive 0, .resend 0, .receive 1]
      coupled).map fun s => s.printed.map fun x => (x.reader, x.text)) =
      some [(1, [104, 105, 10])] := by decide
  obtain ⟨s, hs, hp⟩ := Option.map_eq_some_iff.1 hr
  exact ⟨s, hs, hp, (conservation couple_proper (.of_run coupled_init hs)).1⟩

end LinuxIpc.QueueChat
