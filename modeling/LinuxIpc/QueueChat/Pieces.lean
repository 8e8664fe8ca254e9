import LinuxIpc.QueueChat.Membership
import Mathlib.Data.List.Forall2

namespace LinuxIpc.QueueChat
set_option autoImplicit true
set_option linter.unusedSectionVars false

open Function (update)

/-- What of the 100 bytes that `msgsnd` takes is left for `mtext`. -/
def room : Nat := 90

theorem Msgbuf.body_text (b : Msgbuf) : b.body.bytes.drop 10 = b.mtext.bytes.take room := by
  rw [body_bytes, List.drop_take, List.drop_left' b.name.length_bytes]
  rfl

section
variable {ι : Type} [Fintype ι] [DecidableEq ι] {R : Room ι} {s t : St ι}

/-- What an action adds to the pieces that are typed and sent, with their authors; `msgsnd` refuses
types below 1. -/
def Act.piece (R : Room ι) : Act ι → List (ι × List UInt8)
  | .send p l => if 1 ≤ R.group p then [(p, l)] else []
  | .confirm _ _ | .receive _ | .resend _ => []

def pieces (R : Room ι) (as : List (Act ι)) : List (ι × List UInt8) := as.flatMap (Act.piece R)

/-- A message carries as much of a piece as there is room for, with the NUL behind it. -/
structure Carries (m : Msg ι) (x : ι × List UInt8) : Prop where
  author : m.author = x.1
  text : ∃ r, m.body.bytes.drop 10 = (x.2 ++ 0 :: r).take room

/-- The messages carry what has been typed, and what is printed begins with what they carry. -/
structure Typed (ps : List (ι × List UInt8)) (s : St ι) : Prop where
  sent : List.Forall₂ Carries s.sent ps
  text : ∀ x ∈ s.printed, ∃ r, x.text = cstr (x.msg.body.bytes.drop 10 ++ r)

theorem Typed.init (h : Init R s) : Typed [] s where
  sent := by rw [h.sent]; exact .nil
  text := by rw [h.printed]; nofun

theorem carries_message (s : St ι) (p : ι) (hl : Piece l) :
    Carries ((s.type p l).message p) (p, l) := by
  obtain ⟨r, hr⟩ := type_mtext s p hl
  refine ⟨rfl, r, ?_⟩
  change ((s.type p l).msgs p).body.bytes.drop 10 = _
  rw [Msgbuf.body_text, hr]

theorem Typed.send (h : Typed ps s) (hk : Kept R s) (p : ι) (hl : Piece l) :
    Typed (ps ++ Act.piece R (.send p l)) ((s.type p l).send p) := by
  have hm : ((s.type p l).msgs p).mtype = R.group p := (hk.type p l).mtype p
  unfold St.send
  rw [hm, Act.piece]
  split
  · exact ⟨List.rel_append h.sent (.cons (carries_message s p hl) .nil), h.text⟩
  · rw [List.append_nil]
    exact ⟨h.sent, h.text⟩

theorem Typed.take (h : Typed ps s) (p : ι) (name : Buf 110) (m : Msg ι) (rest : List (Msg ι)) :
    Typed ps (s.take p name m rest) := by
  unfold St.take
  dsimp only
  split
  · exact ⟨h.sent, h.text⟩
  · refine ⟨h.sent, fun x hx => ?_⟩
    rcases List.mem_append.1 hx with hx | hx
    · exact h.text x hx
    · obtain rfl := List.mem_singleton.1 hx
      exact ⟨_, congrArg cstr (Msgbuf.store_mtext ..)⟩

theorem Typed.step (h : Typed ps s) (hk : Kept R s) (ht : QueueChat.step R s a = some t) :
    Typed (ps ++ a.piece R) t := by
  cases a with
  | send p l =>
    obtain ⟨⟨-, hl⟩, rfl⟩ := of_guard ht
    exact h.send hk p hl
  | confirm p a =>
    obtain ⟨-, rfl⟩ := of_guard ht
    rw [Act.piece, List.append_nil]
    exact ⟨h.sent, h.text⟩
  | receive p =>
    simp only [QueueChat.step, Option.ite_none_right_eq_some, Option.map_eq_some_iff,
      Prod.exists] at ht
    obtain ⟨-, m, rest, -, rfl⟩ := ht
    rw [Act.piece, List.append_nil]
    exact h.take ..
  | resend p =>
    obtain ⟨m, -, rfl⟩ := Option.map_eq_some_iff.1 ht
    rw [Act.piece, List.append_nil]
    exact ⟨h.sent, h.text⟩

/-- Along a run the pieces come to be sent one after the other. -/
theorem Typed.run (h : Typed ps s) (hk : Kept R s) (hr : (sys R).run as s = some t) :
    Typed (ps ++ pieces R as) t ∧ Kept R t := by
  induction as generalizing s ps with
  | nil =>
    obtain rfl := Option.some.inj hr
    rw [pieces, List.flatMap_nil, List.append_nil]
    exact ⟨h, hk⟩
  | cons a as ih =>
    obtain ⟨u, hu, hr⟩ := Option.bind_eq_some_iff.1 hr
    rw [pieces, List.flatMap_cons, ← List.append_assoc]
    exact ih (h.step hk hu) (hk.step hu) hr

/-- The number of a message is its place among those sent. -/
theorem Kept.sent_getElem? (h : Kept R s) (hm : m ∈ s.sent) : s.sent[m.id]? = some m := by
  obtain ⟨i, hi, rfl⟩ := List.mem_iff_getElem.1 hm
  have hid : (s.sent.map Msg.id)[i]? = (List.range s.sent.length)[i]? := by rw [h.ids]
  rw [List.getElem?_map, List.getElem?_eq_getElem hi, List.getElem?_range hi] at hid
  rw [Option.some.inj hid, List.getElem?_eq_getElem hi]

/-- The piece is printed as it was typed, and the string ends within the bytes delivered. -/
def Intact (x : Printed ι) (l : List UInt8) : Prop := x.text = l ∧ x.text.length < room

/-- A piece fills its place in the message exactly if it leaves a byte for the NUL. -/
theorem intact_iff {x : Printed ι} (ht : x.text = cstr ((l ++ 0 :: r).take room ++ r'))
    (h0 : 0 ∉ l) : Intact x l ↔ l.length < room := by
  rw [Intact, ht]
  constructor
  · rintro ⟨he, hlt⟩
    rwa [he] at hlt
  · intro hlt
    obtain ⟨k, hk⟩ := Nat.exists_eq_add_of_lt hlt
    have htake : (l ++ 0 :: r).take room = l ++ 0 :: r.take k := by
      rw [hk, Nat.add_assoc, List.take_length_add_append]
      rfl
    rw [htake, List.append_assoc, List.cons_append, cstr_append_zero, cstr_of_notMem h0]
    exact ⟨rfl, hlt⟩

theorem exists_getElem? {xs : List α} {ys : List β} {i : Nat} (h : List.Forall₂ P xs ys)
    (hx : xs[i]? = some x) : ∃ y, ys[i]? = some y ∧ P x y := by
  obtain ⟨hi, rfl⟩ := List.getElem?_eq_some_iff.1 hx
  have hi' : i < ys.length := h.length_eq ▸ hi
  exact ⟨ys[i], List.getElem?_eq_getElem hi', h.get hi hi'⟩

/-- Whoever prints a message prints the piece that was typed exactly if this has at most 89
bytes. -/
theorem intact_iff_short (hi : Init R s) (hr : (sys R).run as s = some t) (hx : x ∈ t.printed) :
    ∃ l, (pieces R as)[x.msg.id]? = some (x.msg.author, l) ∧
      (0 ∉ l → (Intact x l ↔ l.length ≤ 89)) := by
  obtain ⟨ht, hk⟩ := Typed.run (.init hi) (.init hi) hr
  rw [List.nil_append] at ht
  have hget := hk.sent_getElem? (hk.sent_of_printed hx)
  obtain ⟨⟨p, l⟩, hl, hp, r, hbody⟩ := exists_getElem? ht.sent hget
  obtain ⟨r', htext⟩ := ht.text x hx
  rw [hbody] at htext
  refine ⟨l, by rw [hl, hp], fun h0 => ?_⟩
  exact (intact_iff htext h0).trans Nat.lt_succ_iff

end

/-- A line of 95 bytes is printed without its last five. -/
theorem not_intact : couple.Proper ∧ ∃ as s l, (sys couple).run as coupled = some s ∧ 0 ∉ l ∧
    (pieces couple as)[0]? = some (0, l) ∧ ∃ x ∈ s.printed, x.msg.id = 0 ∧ ¬ Intact x l := by
  have hr : ((sys couple).run [.send 0 (List.replicate 94 120 ++ [10]), .receive 1] coupled).map
      (fun s => s.printed.map fun x => (x.msg.id, x.text)) =
      some [(0, List.replicate 90 120)] := by decide +kernel
  obtain ⟨s, hs, hp⟩ := Option.map_eq_some_iff.1 hr
  obtain ⟨x, hx⟩ : ∃ x, s.printed = [x] := by
    have hlen := congrArg List.length hp
    rw [List.length_map] at hlen
    exact List.length_eq_one_iff.1 hlen
  rw [hx] at hp
  obtain ⟨hid, htext⟩ := Prod.mk.inj (List.singleton_inj.1 hp)
  refine ⟨couple_proper, _, s, List.replicate 94 120 ++ [10], hs, by decide, rfl, x, ?_, hid, ?_⟩
  · rw [hx]
    exact List.mem_singleton_self x
  · rintro ⟨he, -⟩
    rw [htext] at he
    revert he
    decide

theorem intact_iff_short_round : ∃ s, (sys couple).run [.send 0 [104, 105, 10], .receive 0,
    .resend 0, .receive 1] coupled = some s ∧ ∃ x ∈ s.printed, Intact x [104, 105, 10] := by
  have hr : (((sys couple).run [.send 0 [104, 105, 10], .receive 0, .resend 0, .receive 1]
      coupled).map fun s => s.printed.map fun x => x.msg.id) = some [0] := by decide
  obtain ⟨s, hs, hp⟩ := Option.map_eq_some_iff.1 hr
  obtain ⟨x, hx, hid⟩ : ∃ x ∈ s.printed, x.msg.id = 0 := by
    have hm : 0 ∈ s.printed.map fun x => x.msg.id := hp ▸ List.mem_singleton_self 0
    obtain ⟨x, hx, he⟩ := List.mem_map.1 hm
    exact ⟨x, hx, he⟩
  obtain ⟨l, hl, hiff⟩ := intact_iff_short coupled_init hs hx
  have hl' : some (0, [104, 105, 10]) = some (x.msg.author, l) := by
    rw [hid] at hl
    exact hl
  obtain ⟨-, rfl⟩ := Prod.mk.inj (Option.some.inj hl')
  exact ⟨s, hs, x, hx, (hiff (by decide)).2 (by decide)⟩

end LinuxIpc.QueueChat
