import LinuxIpc.TcpChat.Serial

namespace LinuxIpc.TcpChat
set_option autoImplicit true

/-- The entries that a broadcast of `c` is for. -/
def recipients (es : List Client) (c : Client) : List Client := es.filter fun e => e.cfd ≠ c.cfd

theorem recipients_cons_self (h : e.cfd = c.cfd) : recipients (e :: es) c = recipients es c :=
  List.filter_cons_of_neg (by rw [decide_eq_true_eq]; exact not_not_intro h)

theorem recipients_cons_of_ne (h : e.cfd ≠ c.cfd) :
    recipients (e :: es) c = e :: recipients es c :=
  List.filter_cons_of_pos (decide_eq_true h)

/-- The loop sends to the recipients in their order, until it stops. -/
theorem sends_in_order (msg : List UInt8) (c : Client) (fail : List Int) (es : List Client) :
    sends msg c fail es <+: (recipients es c).map fun e => (e.cfd, msg) := by
  induction es with
  | nil => exact List.prefix_refl _
  | cons e es ih =>
    by_cases h : e.cfd ≠ c.cfd
    · rw [sends, if_pos h, recipients_cons_of_ne h, List.map_cons, List.prefix_cons_inj]
      split
      · exact List.nil_prefix
      · exact ih
    · rw [sends, if_neg h, recipients_cons_self (not_not.1 h)]
      exact ih

/-- It gets to the last of them exactly if no failing one stands before another. -/
theorem sends_all_iff (msg : List UInt8) (c : Client) (fail : List Int) (es : List Client) :
    sends msg c fail es = ((recipients es c).map fun e => (e.cfd, msg)) ↔
      (recipients es c).Pairwise fun e _ => e.cfd ∉ fail := by
  induction es with
  | nil => exact ⟨fun _ => .nil, fun _ => rfl⟩
  | cons e es ih =>
    by_cases h : e.cfd ≠ c.cfd
    · rw [sends, if_pos h, recipients_cons_of_ne h, List.map_cons, List.cons_inj_right,
        List.pairwise_cons]
      by_cases hf : e.cfd ∈ fail
      · rw [if_pos hf]
        constructor
        · intro hn
          have hnil : recipients es c = [] := List.map_eq_nil_iff.1 hn.symm
          rw [hnil]
          exact ⟨List.forall_mem_nil _, .nil⟩
        · rintro ⟨hall, -⟩
          have hnil : recipients es c = [] :=
            List.eq_nil_iff_forall_not_mem.2 fun x hx => hall x hx hf
          rw [hnil]
          rfl
      · rw [if_neg hf, ih]
        exact ⟨fun hp => ⟨fun _ _ => hf, hp⟩, And.right⟩
    · rw [sends, if_neg h, recipients_cons_self (not_not.1 h)]
      exact ih

/-- Of what is sent, that for which `send` succeeds. -/
def delivered (fail : List Int) (sent : List (Int × List UInt8)) : List (Int × List UInt8) :=
  sent.filter fun m => m.1 ∉ fail

/-- The broadcast has been tried once for everyone else, so that those whose own `send` succeeds
have it. -/
structure Table.Told (t : Table) (msg : List UInt8) (c : Client) (fail : List Int) : Prop where
  tried : ∀ e ∈ recipients t.entries c, (t.broadcast msg c fail).count (e.cfd, msg) = 1
  delivered : ∀ e ∈ recipients t.entries c, e.cfd ∉ fail →
    (delivered fail (t.broadcast msg c fail)).count (e.cfd, msg) = 1

theorem count_delivered (h : f ∉ fail) : (delivered fail sent).count (f, msg) =
    sent.count (f, msg) :=
  List.count_filter (decide_eq_true h)

theorem recipients_nodup (msg : List UInt8) (c : Client) (h : (es.map Client.cfd).Nodup) :
    ((recipients es c).map fun e => (e.cfd, msg)).Nodup := by
  have hn : ((recipients es c).map Client.cfd).Nodup := h.sublist (List.filter_sublist.map _)
  rw [List.nodup_map_iff_inj_on hn.of_map]
  intro e he e' he' heq
  exact List.inj_on_of_nodup_map hn he he' (Prod.mk.inj heq).1

/-- A broadcast tries everyone else once exactly if no entry whose `send` fails stands before
another entry that it is for. -/
theorem told_iff (t : Table) (msg : List UInt8) (c : Client) (fail : List Int)
    (h : (t.entries.map Client.cfd).Nodup) :
    t.Told msg c fail ↔ (recipients t.entries c).Pairwise fun e _ => e.cfd ∉ fail := by
  have hn := recipients_nodup msg c h
  rw [← sends_all_iff msg c fail t.entries]
  constructor
  · intro ht
    apply (sends_in_order msg c fail t.entries).eq_of_length_le
    refine (List.subperm_of_subset hn fun m hm => ?_).length_le
    obtain ⟨e, he, rfl⟩ := List.mem_map.1 hm
    refine List.count_pos_iff.1 ?_
    rw [← Table.broadcast, ht.tried e he]
    exact Nat.one_pos
  · intro hs
    have htried : ∀ e ∈ recipients t.entries c,
        (t.broadcast msg c fail).count (e.cfd, msg) = 1 := by
      intro e he
      rw [Table.broadcast, hs]
      exact List.count_eq_one_of_mem hn (List.mem_map.2 ⟨e, he, rfl⟩)
    refine ⟨htried, ?_⟩
    intro e he hf
    rw [count_delivered hf]
    exact htried e he

def three : Table := ((Table.empty.login 4 [97, 0]).login 5 [98, 0]).login 6 [99, 0]

theorem three_nodup : (three.entries.map Client.cfd).Nodup := by decide

/-- The second of three has gone, and the third does not hear of the first. -/
theorem not_told : (three.entries.map Client.cfd).Nodup ∧
    ¬ three.Told [104] (three.client 0) [5] := by
  refine ⟨three_nodup, fun h => ?_⟩
  have hm : three.client 2 ∈ recipients three.entries (three.client 0) :=
    List.mem_filter.2 ⟨List.mem_map_of_mem (List.mem_range.2 (by decide)), by decide⟩
  have hc := h.tried _ hm
  revert hc
  decide

theorem told_iff_last : (three.entries.map Client.cfd).Nodup ∧
    three.Told [104] (three.client 0) [6] := by
  refine ⟨three_nodup, ?_⟩
  exact (told_iff three [104] (three.client 0) [6] three_nodup).2 (by decide)

end LinuxIpc.TcpChat
