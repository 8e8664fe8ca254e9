import LinuxIpc.QueueChat.Membership
import LinuxIpc.QueueChat.Order

namespace LinuxIpc.QueueChat
set_option autoImplicit true
set_option linter.unusedSectionVars false

open Function (update update_self update_of_ne)
open MsgQueue (Selects)

section
variable {ι : Type} [Fintype ι] [DecidableEq ι] {R : Room ι} {s t u : St ι} {a b : ι}

/-- A message goes back to the end of the queue. -/
def St.putBack (s : St ι) (p : ι) (m : Msg ι) : St ι := { s with
  queue := if 1 ≤ m.mtype then s.queue ++ [m] else s.queue
  recv := update s.recv p ⟨(s.recv p).msgr, none⟩ }

theorem step_resend (h : (s.recv p).held = some m) :
    (sys R).step s (.resend p) = some (s.putBack p m) := by
  change step R s (.resend p) = _
  rw [step, h]
  rfl

/-- A group of two, with distinct names. -/
structure Pair (R : Room ι) (a b : ι) : Prop extends R.Proper where
  ne : a ≠ b
  all : ∀ p, p = a ∨ p = b
  group : R.group a = R.group b

theorem Pair.mtype (h : Pair R a b) (hk : Kept R s) (hm : m ∈ s.sent) :
    m.mtype = R.group b := by
  rw [(hk.genuine m hm).1]
  rcases h.all m.author with ha | ha
  · rw [ha, h.group]
  · rw [ha]

/-- Whatever stands first is given to `b`. -/
theorem Pair.receive_head (h : Pair R a b) (hk : Kept R s) (hq : s.queue = m :: rest) :
    MsgQueue.receive Msg.mtype (R.group b) s.queue = some (m, rest) := by
  have hm : m ∈ s.sent := hk.sent_of_queue (by rw [hq]; exact List.mem_cons_self)
  rw [hq]
  apply MsgQueue.receive_cons (le_of_lt (h.positive b))
  rw [h.mtype hk hm]
  exact .self (h.positive b)

/-- From `s` to `t` the receiver of `b` alone has moved, and has printed `ms` of what `a` sent. -/
structure Printing (R : Room ι) (a b : ι) (s t : St ι) (ms : List (Msg ι)) : Prop where
  run : ∃ as, (sys R).run as s = some t
  kept : Kept R t
  seen : t.seen b a = s.seen b a ++ ms
  other : t.recv a = s.recv a
  free : (t.recv b).own = none
  sent : t.sent = s.sent

theorem Printing.trans (h : Printing R a b s t ms) (h' : Printing R a b t u ns) :
    Printing R a b s u (ms ++ ns) where
  run := by
    obtain ⟨as, hr⟩ := h.run
    obtain ⟨bs, hr'⟩ := h'.run
    exact ⟨as ++ bs, Sys.run_trans hr hr'⟩
  kept := h'.kept
  seen := by rw [h'.seen, h.seen, List.append_assoc]
  other := h'.other.trans h.other
  free := h'.free
  sent := h'.sent.trans h.sent

/-- A message of `a` that stands first is printed. -/
theorem Pair.print (h : Pair R a b) (hk : Kept R s) (hown : (s.recv b).own = none)
    (hq : s.queue = m :: rest) (ha : m.author = a) :
    ∃ t, Printing R a b s t [m] ∧ t.queue = rest := by
  have hm : m ∈ s.sent := hk.sent_of_queue (by rw [hq]; exact List.mem_cons_self)
  have hr := h.receive_head hk hq
  have hname : ¬ ((s.recv b).msgr.store m.mtype m.body).string = cstr (R.name b).bytes := by
    rw [hk.store_string _ hm (h.length _), ha]
    exact fun he => h.ne (h.distinct a b he)
  have ht : s.take b (R.name b) m rest = { s with
      queue := rest
      recv := update s.recv b ⟨(s.recv b).msgr.store m.mtype m.body, none⟩
      printed := s.printed ++ [⟨b, m, ((s.recv b).msgr.store m.mtype m.body).string,
        cstr ((s.recv b).msgr.store m.mtype m.body).mtext.bytes⟩] } := if_neg hname
  refine ⟨s.take b (R.name b) m rest, ?_, St.take_queue⟩
  constructor
  case run => exact ⟨[.receive b], by rw [Sys.run_cons (step_receive hown hr)]; rfl⟩
  case kept => exact hk.take hown hr
  case seen =>
    rw [ht, St.seen, List.filter_append, List.map_append, List.filter_singleton]
    rw [decide_eq_true (⟨rfl, ha⟩ : b = b ∧ m.author = a)]
    rfl
  case other => exact St.take_recv h.ne
  case free =>
    rw [ht]
    change (update s.recv b _ b).own = none
    rw [update_self]
  case sent => exact St.take_sent

/-- One that `b` holds or takes of its own goes to the end. -/
theorem Pair.putBack (h : Pair R a b) (hk : Kept R s) (hm : (s.recv b).held = some m) :
    ∃ t, Printing R a b s t [] ∧ t.queue = s.queue ++ [m] := by
  have hq : (s.putBack b m).queue = s.queue ++ [m] := if_pos (hk.positive m (hk.sent_of_held hm))
  refine ⟨s.putBack b m, ?_, hq⟩
  constructor
  case run => exact ⟨[.resend b], by rw [Sys.run_cons (step_resend hm)]; rfl⟩
  case kept => exact hk.resend hm
  case seen => exact (List.append_nil _).symm
  case other => exact update_of_ne h.ne ..
  case free =>
    change (update s.recv b _ b).own = none
    rw [update_self]
  case sent => rfl

theorem Pair.circulate (h : Pair R a b) (hk : Kept R s) (hown : (s.recv b).own = none)
    (hq : s.queue = m :: rest) (hb : m.author = b) :
    ∃ t, Printing R a b s t [] ∧ t.queue = rest ++ [m] := by
  have hm : m ∈ s.sent := hk.sent_of_queue (by rw [hq]; exact List.mem_cons_self)
  have hr := h.receive_head hk hq
  have hname : ((s.recv b).msgr.store m.mtype m.body).string = cstr (R.name b).bytes := by
    rw [hk.store_string _ hm (h.length _), hb]
  have ht : s.take b (R.name b) m rest = { s with
      queue := rest
      recv := update s.recv b ⟨(s.recv b).msgr.store m.mtype m.body, some (m.id, m.author)⟩ } :=
    if_pos hname
  have hheld : ((s.take b (R.name b) m rest).recv b).held = some m := by
    rw [ht]
    change (update s.recv b _ b).held = _
    rw [update_self, held_store]
  obtain ⟨t, hp, hqt⟩ := h.putBack (hk.take hown hr) hheld
  rw [St.take_queue] at hqt
  refine ⟨t, ?_, hqt⟩
  obtain ⟨as, has⟩ := hp.run
  constructor
  case run => exact ⟨.receive b :: as, by rw [Sys.run_cons (step_receive hown hr), has]⟩
  case kept => exact hp.kept
  case seen =>
    rw [hp.seen, ht]
    rfl
  case other => exact hp.other.trans (St.take_recv h.ne)
  case free => exact hp.free
  case sent => exact hp.sent.trans St.take_sent

/-- So `b` comes to print all that is in the queue of `a`, in its order. -/
theorem Pair.drain (h : Pair R a b) (hk : Kept R s) (hown : (s.recv b).own = none)
    (hq : s.queue = front ++ back) :
    ∃ t, Printing R a b s t (front.filter fun m => m.author = a) := by
  induction front generalizing s back with
  | nil => exact ⟨s, ⟨[], rfl⟩, hk, (List.append_nil _).symm, rfl, hown, rfl⟩
  | cons m front ih =>
    rcases h.all m.author with ha | hb
    · obtain ⟨t, hp, hqt⟩ := h.print hk hown hq ha
      obtain ⟨u, hu⟩ := ih hp.kept hp.free hqt
      refine ⟨u, ?_⟩
      rw [List.filter_cons, if_pos (decide_eq_true ha)]
      exact hp.trans hu
    · obtain ⟨t, hp, hqt⟩ := h.circulate hk hown hq hb
      have hqt' : t.queue = front ++ (back ++ [m]) := hqt.trans (List.append_assoc ..)
      obtain ⟨u, hu⟩ := ih hp.kept hp.free hqt'
      have hne : m.author ≠ a := fun ha => h.ne (ha.symm.trans hb)
      refine ⟨u, ?_⟩
      rw [List.filter_cons, if_neg (by rwa [decide_eq_true_eq])]
      exact hp.trans hu

/-- A receiver that holds a message of its own may put it back first. -/
theorem Pair.release (h : Pair R a b) (hk : Kept R s) :
    ∃ t, Printing R a b s t [] ∧ s.queue ⊆ t.queue := by
  by_cases hown : (s.recv b).own = none
  · exact ⟨s, ⟨⟨[], rfl⟩, hk, (List.append_nil _).symm, rfl, hown, rfl⟩, fun _ => id⟩
  · obtain ⟨⟨i, c⟩, ho⟩ := Option.ne_none_iff_exists'.1 hown
    obtain ⟨m, hm⟩ : ∃ m, (s.recv b).held = some m := by
      rw [Receiver.held, ho]
      exact ⟨_, rfl⟩
    obtain ⟨t, hp, hq⟩ := h.putBack hk hm
    refine ⟨t, hp, ?_⟩
    rw [hq]
    exact List.subset_append_left ..

/-- A later message of `a` can be printed while its receiver holds an earlier one. -/
theorem Pair.print_later (h : Pair R a b) (hk : Kept R s) (hm : (s.recv a).held = some m)
    (hn : n ∈ s.sent) (ha : n.author = a) (hlt : m.id < n.id) :
    ∃ t ms, Printing R a b s t ms ∧ n ∈ t.seen b a := by
  obtain ⟨t, ht, hsub⟩ := h.release hk
  obtain ⟨u, hu⟩ := h.drain ht.kept ht.free (List.append_nil t.queue).symm
  refine ⟨u, _, ht.trans hu, ?_⟩
  rw [hu.seen, ht.seen, List.append_nil]
  rcases hk.located hn with hq | ⟨p, hp⟩ | ⟨x, hx, rfl⟩
  · apply List.mem_append_right
    exact List.mem_filter.2 ⟨hsub hq, decide_eq_true ha⟩
  · rcases h.all p with rfl | rfl
    · rw [hm] at hp
      obtain rfl := Option.some.inj hp
      exact (Nat.lt_irrefl _ hlt).elim
    · have he := h.distinct _ _ (hk.own p n hp (h.length _))
      exact (h.ne (ha.symm.trans he)).elim
  · apply List.mem_append_left
    have hr : x.reader = b := by
      refine (h.all x.reader).resolve_left fun he => ?_
      exact (hk.printed x hx).2 (h.length _) (by rw [ha, he])
    exact List.mem_map_of_mem (List.mem_filter.2 ⟨hx, decide_eq_true ⟨hr, ha⟩⟩)

/-- From every state in which a receiver holds a message that is no longer its author's latest, the
other member can come to print the two the wrong way round. -/
theorem Pair.overtaken (h : Pair R a b) (hs : (sys R).Reachable s)
    (hm : (s.recv a).held = some m) (hl : ¬ s.Latest m) :
    ∃ as t, (sys R).run as s = some t ∧ ¬ (t.seen b a).Sublist t.sent := by
  have hk := kept_of_reachable hs
  have ha : m.author = a := h.distinct _ _ (hk.own a m hm (h.length _))
  obtain ⟨n, hn, hna, hlt⟩ : ∃ n ∈ s.sent, n.author = m.author ∧ m.id < n.id := by
    simpa only [St.Latest, not_forall, not_le, exists_prop] using hl
  obtain ⟨t, ms, ht, hseen⟩ := h.print_later hk hm hn (hna.trans ha) hlt
  have hmt : (t.recv a).held = some m := by rw [ht.other, hm]
  have hqueue : m ∈ (t.putBack a m).queue := by
    change m ∈ if 1 ≤ m.mtype then t.queue ++ [m] else t.queue
    rw [if_pos (ht.kept.positive m (ht.kept.sent_of_held hmt))]
    exact List.mem_append_right _ (List.mem_singleton_self m)
  have hfree : ((t.putBack a m).recv b).own = none := by
    change (update t.recv a _ b).own = none
    rw [update_of_ne h.ne.symm]
    exact ht.free
  have hk' : Kept R (t.putBack a m) := ht.kept.resend hmt
  obtain ⟨u, hu⟩ := h.drain hk' hfree
    (List.append_nil (t.putBack a m).queue).symm
  obtain ⟨as, has⟩ := ht.run
  obtain ⟨bs, hbs⟩ := hu.run
  refine ⟨as ++ .resend a :: bs, u, ?_, ?_⟩
  · exact Sys.run_trans has (by rw [Sys.run_cons (step_resend hmt), hbs])
  · intro hsub
    have htwo : ([n] ++ [m]).Sublist (u.seen b a) := by
      rw [hu.seen]
      apply List.Sublist.append
      · exact List.singleton_sublist.2 hseen
      · exact List.singleton_sublist.2 (List.mem_filter.2 ⟨hqueue, decide_eq_true ha⟩)
    have hp := hu.kept.sent_pairwise.sublist (htwo.trans hsub)
    have hnm := List.rel_of_pairwise_cons hp (List.mem_singleton_self m)
    exact Nat.lt_asymm hlt hnm

end

end LinuxIpc.QueueChat
