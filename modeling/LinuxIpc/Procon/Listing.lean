import LinuxIpc.Procon.Stock
import Mathlib.Data.List.Forall2

namespace LinuxIpc.Procon
set_option autoImplicit true

open Function (update)

/-- The loop of `main` and its thread with a record of what has been written: for each `create` the
reply and whether it came in time, and for each entry of a listing its kind, its place and its
text. -/
structure Log extends St where
  replied : Kind → List (List UInt8 × Bool)
  listed : List (Kind × Nat × List UInt8)

/-- The reply to a `create` comes in time: the new thread has written its id and is not through, or
it happens that the 0 in `tid_p[P]`, or what stands behind the array, is its id. -/
def inTime (s : St) (junk : UInt64) : Bool :=
  match s.thread with
  | some th =>
    match th.pc with
    | .loop _ => true
    | .enter | .ended => (if s.count th.kind < tids then 0 else junk) == th.self
  | none => false

def Log.record (l : Log) (a : Act) (t : St) (o : List UInt8) : Log :=
  match a, l.main with
  | .reply junk, .reply k =>
    { l with
      toSt := t, replied := update l.replied k (l.replied k ++ [(o, inTime l.toSt junk)]) }
  | .list, .list k i =>
    { l with
      toSt := t, listed := if i < l.count k then l.listed ++ [(k, i, o)] else l.listed }
  | _, _ => { l with toSt := t }

def Log.step (l : Log) (a : Act) : Option Log :=
  (Procon.step l.toSt a).map fun (t, o) => l.record a t o

def Log.start : Log := ⟨Procon.start, fun _ => [], []⟩

def logged : Sys Log Act := ⟨(· = .start), Log.step⟩

/-- Each entry of a listing is the reply to the creation of the same number, and a listing has an
entry for each reply. -/
structure Listed (l : Log) : Prop where
  entries : ∀ k i o, (k, i, o) ∈ l.listed → ((l.replied k)[i]?).map Prod.fst = some o
  all : ∀ k i, l.main = .list k i → l.count k = (l.replied k).length

/-- The replies to the creations that have been listed came in time. -/
def Timely (l : Log) : Prop :=
  ∀ k i o, (k, i, o) ∈ l.listed → ((l.replied k)[i]?).map Prod.snd = some true

def St.Busy (s : St) (k : Kind) : Prop :=
  ∃ th b, s.thread = some th ∧ th.kind = k ∧ th.pc = .loop b

/-- What stands in the arrays from the counts on. -/
structure Arrays (s : St) : Prop where
  blank : ∀ k i, s.count k ≤ i → (s.Busy k → i ≠ s.count k) → s.tid k i = 0
  room : ∀ k, s.Busy k → s.count k < tids
  last : ∀ th, s.thread = some th → ∃ ids, s.created th.kind = ids ++ [th.self]

theorem Arrays.start : Arrays start := ⟨fun _ _ _ _ => rfl, nofun, nofun⟩

theorem Arrays.congr (h : Arrays s) (hth : t.thread = s.thread) (hc : t.count = s.count)
    (htid : t.tid = s.tid) (hcr : t.created = s.created) : Arrays t := by
  have hbusy : ∀ k, t.Busy k ↔ s.Busy k := fun k => by rw [St.Busy, St.Busy, hth]
  constructor
  · intro k i
    rw [hbusy, hc, htid]
    exact h.blank k i
  · intro k
    rw [hbusy, hc]
    exact h.room k
  · intro th
    rw [hth, hcr]
    exact h.last th

theorem Arrays.loop (h : Arrays s) (hth : s.thread = some th) (hpc : th.pc = .loop b) (b' : Body)
    (head : List Nat) : Arrays { s.setPc th (.loop b') with head := head } := by
  have hbusy : ∀ k, St.Busy { s.setPc th (.loop b') with head := head } k ↔ s.Busy k := by
    intro k
    constructor
    · rintro ⟨_, c, ⟨⟩, hk, -⟩
      exact ⟨th, b, hth, hk, hpc⟩
    · rintro ⟨th', c, hth', rfl, -⟩
      obtain rfl := Option.some.inj (hth.symm.trans hth')
      exact ⟨_, b', rfl, rfl, rfl⟩
  constructor
  · intro k i
    rw [hbusy]
    exact h.blank k i
  · intro k
    rw [hbusy]
    exact h.room k
  · rintro _ ⟨⟩
    exact h.last th hth

theorem Arrays.enter (h : Arrays s) (hth : s.thread = some th) (hpc : th.pc = .enter)
    (ht : s.enter th = some t) : Arrays t := by
  obtain ⟨hlt, rfl⟩ := of_guard ht
  have hidle : ∀ k, ¬ s.Busy k := by
    rintro k ⟨th', b, hth', -, hb⟩
    obtain rfl := Option.some.inj (hth.symm.trans hth')
    rw [hpc] at hb
    cases hb
  constructor
  · intro k i hle hne
    have hold := h.blank k i hle fun hb => (hidle k hb).elim
    by_cases hk : k = th.kind
    · subst hk
      have hi : i ≠ s.count th.kind := hne ⟨_, _, rfl, rfl, rfl⟩
      change update s.tid th.kind _ th.kind i = 0
      rw [Function.update_self, Function.update_of_ne hi, hold]
    · change update s.tid th.kind _ k i = 0
      rw [Function.update_of_ne hk, hold]
  · rintro k ⟨_, b, ⟨⟩, rfl, -⟩
    exact hlt
  · rintro _ ⟨⟩
    exact h.last th hth

theorem Arrays.finish (h : Arrays s) (hth : s.thread = some th) : Arrays (s.finish th) := by
  have hidle : ∀ k, ¬ (s.finish th).Busy k := by
    rintro k ⟨_, c, ⟨⟩, -, hc⟩
    cases hc
  constructor
  · intro k i hle _
    change update s.count th.kind (s.count th.kind + 1) k ≤ i at hle
    change s.tid k i = 0
    by_cases hk : k = th.kind
    · subst hk
      rw [Function.update_self] at hle
      exact h.blank _ i (Nat.le_of_succ_le hle) fun _ => Nat.ne_of_gt hle
    · rw [Function.update_of_ne hk] at hle
      refine h.blank k i hle fun ⟨th', c, hth', hkind, _⟩ => ?_
      obtain rfl := Option.some.inj (hth.symm.trans hth')
      exact (hk hkind.symm).elim
  · intro k hb
    exact (hidle k hb).elim
  · rintro _ ⟨⟩
    exact h.last th hth

/-- A thread that is not in its loop leaves nothing there. -/
theorem Arrays.idle (h : Arrays s) (hno : ∀ k, ¬ s.Busy k) (hno' : ∀ k, ¬ t.Busy k)
    (hc : t.count = s.count) (htid : t.tid = s.tid)
    (hlast : ∀ th, t.thread = some th → ∃ ids, t.created th.kind = ids ++ [th.self]) :
    Arrays t := by
  constructor
  · intro k i hle _
    rw [htid]
    exact h.blank k i (hc ▸ hle) fun hb => (hno k hb).elim
  · exact fun k hb => (hno' k hb).elim
  · exact hlast

theorem Arrays.step (h : Arrays s) (ha : Account n s) (hs : Procon.step s a = some (t, o)) :
    Arrays t := by
  cases move_of_step hs with
  | read hm => exact h.congr rfl rfl rfl rfl
  | spawn hm =>
    have hnone : s.thread = none := by
      unfold Account at ha
      rw [hm] at ha
      exact ha.1
    refine h.idle ?_ ?_ rfl rfl ?_
    · rintro k ⟨th, b, hth, -⟩
      rw [hnone] at hth
      cases hth
    · rintro k ⟨_, b, ⟨⟩, -, hb⟩
      cases hb
    · rintro _ ⟨⟩
      exact ⟨_, Function.update_self ..⟩
  | reply hm => exact h.congr rfl rfl rfl rfl
  | join hm ht =>
    refine h.idle ?_ nofun rfl rfl nofun
    rintro k ⟨th, b, hth, -, hb⟩
    obtain rfl := Option.some.inj (ht.symm.trans hth)
    cases hb
  | delete hm => exact h.congr rfl rfl rfl rfl
  | list hm => exact h.congr rfl rfl rfl rfl
  | listed hm => exact h.congr rfl rfl rfl rfl
  | unknown hm => exact h.congr rfl rfl rfl rfl
  | thread ht hu =>
    rcases stepThread_cases hu with ⟨hpc, hu⟩ | ⟨b, -, -, rfl⟩ | ⟨b, b', head, hpc, -, rfl⟩
    · exact h.enter ht hpc hu
    · exact h.finish ht
    · exact h.loop ht hpc b' head
  | spurious ht hpc hb => exact h.loop ht hpc _ s.head

/-- The ids of the threads whose creation has been replied to. -/
def Log.due (l : Log) (k : Kind) : List UInt64 :=
  if l.main = .reply k then (l.created k).dropLast else l.created k

/-- A reply is the id of its thread exactly if it came in time. -/
def Fits (x : UInt64) (r : List UInt8 × Bool) : Prop := r.1 = lu x ↔ r.2 = true

structure Recorded (l : Log) : Prop where
  arrays : Arrays l.toSt
  account : ∃ n, Account n l.toSt
  replied : ∀ k, List.Forall₂ Fits (l.due k) (l.replied k)
  listed : ∀ k i o, (k, i, o) ∈ l.listed →
    i < (l.replied k).length ∧ ∃ x, (l.created k)[i]? = some x ∧ o = lu x

theorem Recorded.start : Recorded .start :=
  ⟨.start, ⟨_, .start⟩, fun _ => .nil, nofun⟩

/-- The statements that touch neither the threads created nor the replies. -/
theorem Recorded.keep (h : Recorded l) (harr : Arrays t) (hacc : Account n t)
    (hcr : t.created = l.created) (hm : ∀ k, t.main = .reply k ↔ l.main = .reply k) :
    Recorded { l with toSt := t } := by
  refine ⟨harr, ⟨n, hacc⟩, fun k => ?_, fun k i o hmem => ?_⟩
  · have hdue : Log.due { l with toSt := t } k = l.due k := by
      rw [Log.due, Log.due, hcr]
      exact if_congr (hm k) rfl rfl
    rw [hdue]
    exact h.replied k
  · change _ ∧ ∃ x, (t.created k)[i]? = some x ∧ o = lu x
    rw [hcr]
    exact h.listed k i o hmem

theorem main_ne_reply (c : Command) (k : Kind) : c.main ≠ .reply k := by
  cases c <;> nofun

theorem reply_congr {m m' : Main} (hm : ∀ k, m ≠ .reply k) (hm' : ∀ k, m' ≠ .reply k) (k : Kind) :
    m = .reply k ↔ m' = .reply k :=
  ⟨fun h => (hm k h).elim, fun h => (hm' k h).elim⟩

theorem due_of_ne {l : Log} (h : l.main ≠ .reply k) : l.due k = l.created k := if_neg h

theorem getElem?_append_of_some {l : List α} {i : Nat} (l' : List α) (h : l[i]? = some x) :
    (l ++ l')[i]? = some x := by
  obtain ⟨hi, -⟩ := List.getElem?_eq_some_iff.1 h
  rw [List.getElem?_append_left hi, h]

/-- A created thread is not among those that have been replied to before its own reply. -/
theorem Recorded.spawn (h : Recorded l) (hm : l.main = .spawn k)
    (ht : t = { l.toSt with
      main := .reply k
      thread := some ⟨k, self, .enter⟩
      created := update l.created k (l.created k ++ [self]) })
    (harr : Arrays t) (hacc : Account n t) : Recorded { l with toSt := t } := by
  have hold : ∀ j, l.due j = l.created j := fun j => due_of_ne (by rw [hm]; nofun)
  have hmain : t.main = .reply k := by rw [ht]
  have hcr : t.created = update l.created k (l.created k ++ [self]) := by rw [ht]
  refine ⟨harr, ⟨n, hacc⟩, fun j => ?_, fun j i o hmem => ?_⟩
  · have hrep := h.replied j
    rw [hold] at hrep
    rw [Log.due]
    dsimp only
    rw [hmain, hcr]
    by_cases hj : j = k
    · subst hj
      rw [if_pos rfl, Function.update_self, List.dropLast_concat]
      exact hrep
    · have hne : Main.reply k ≠ .reply j := fun he => hj (Main.reply.inj he).symm
      rw [if_neg hne, Function.update_of_ne hj]
      exact hrep
  · obtain ⟨hi, x, hx, rfl⟩ := h.listed j i o hmem
    refine ⟨hi, x, ?_, rfl⟩
    dsimp only
    rw [hcr]
    by_cases hj : j = k
    · subst hj
      rw [Function.update_self]
      exact getElem?_append_of_some _ hx
    · rw [Function.update_of_ne hj]
      exact hx

/-- What the reply to a creation says. -/
theorem fits_reply (h : Arrays s) (ha : Account n s) (hth : s.thread = some th) (junk : UInt64) :
    Fits th.self (lu (if s.count th.kind < tids then s.tid th.kind (s.count th.kind) else junk),
      inTime s junk) := by
  have hok := (ha.thread hth).2
  rw [Fits, lu_inj, inTime, hth]
  dsimp only
  have hidle : (∀ b, th.pc ≠ .loop b) → s.tid th.kind (s.count th.kind) = 0 := by
    intro hpc
    refine h.blank _ _ (Nat.le_refl _) fun hrun => ?_
    obtain ⟨th', b, hth', _, hb⟩ := hrun
    obtain rfl := Option.some.inj (hth.symm.trans hth')
    exact (hpc b hb).elim
  cases hpc : th.pc with
  | enter =>
    rw [hidle (by rw [hpc]; rintro b ⟨⟩), beq_iff_eq]
  | loop b =>
    rw [ThreadOk, hpc] at hok
    obtain ⟨-, -, htid, hrun⟩ := hok
    have hroom := h.room th.kind ⟨th, b, hth, rfl, hpc⟩
    rw [if_pos hroom, hrun.count, htid]
    exact ⟨fun _ => rfl, fun _ => rfl⟩
  | ended =>
    rw [hidle (by rw [hpc]; rintro b ⟨⟩), beq_iff_eq]

theorem Recorded.reply (h : Recorded l) (hm : l.main = .reply k)
    (ht : t = { l.toSt with main := .join k }) (harr : Arrays t) (hacc : Account n t)
    (ho : o = lu (if l.count k < tids then l.tid k (l.count k) else junk)) :
    Recorded { l with
      toSt := t, replied := update l.replied k (l.replied k ++ [(o, inTime l.toSt junk)]) } := by
  obtain ⟨n', ha⟩ := h.account
  obtain ⟨th, hth, rfl⟩ : ∃ th, l.thread = some th ∧ th.kind = k := by
    unfold Account at ha
    rw [hm] at ha
    obtain ⟨th, hth, hk, -⟩ := ha
    exact ⟨th, hth, hk⟩
  obtain ⟨ids, hids⟩ := h.arrays.last th hth
  have hmain : t.main = .join th.kind := by rw [ht]
  have hcr : t.created = l.created := by rw [ht]
  refine ⟨harr, ⟨n, hacc⟩, fun j => ?_, fun j i o' hmem => ?_⟩
  · have hrep := h.replied j
    rw [Log.due, hm] at hrep
    rw [Log.due]
    dsimp only
    rw [hmain, hcr, if_neg nofun]
    by_cases hj : j = th.kind
    · subst hj
      rw [if_pos rfl, hids, List.dropLast_concat] at hrep
      rw [Function.update_self, hids, ho]
      exact List.rel_append hrep (.cons (fits_reply h.arrays ha hth junk) .nil)
    · have hne : Main.reply th.kind ≠ .reply j := fun he => hj (Main.reply.inj he).symm
      rw [if_neg hne] at hrep
      rw [Function.update_of_ne hj]
      exact hrep
  · obtain ⟨hi, x, hx, rfl⟩ := h.listed j i o' hmem
    refine ⟨?_, x, ?_, rfl⟩
    · dsimp only
      by_cases hj : j = th.kind
      · subst hj
        rw [Function.update_self, List.length_append]
        exact Nat.lt_add_right _ hi
      · rw [Function.update_of_ne hj]
        exact hi
    · rw [← hx]
      exact congrArg (fun c => (c j)[i]?) hcr

/-- A listing finds each creation replied to, and its id in the array. -/
theorem Recorded.level (h : Recorded l) (hm : l.main = .list k i) :
    l.created k = l.ids k ∧ (l.replied k).length = l.count k := by
  obtain ⟨n, ha⟩ := h.account
  unfold Account at ha
  rw [hm] at ha
  have hids := ha.2.ids k
  have hrep := (h.replied k).length_eq
  rw [due_of_ne (by rw [hm]; nofun), hids, St.ids, List.length_map, List.length_range] at hrep
  exact ⟨hids, hrep.symm⟩

theorem Recorded.list (h : Recorded l) (hm : l.main = .list k i) (hi : i < l.count k)
    (ht : t = { l.toSt with main := .list k (i + 1) }) (harr : Arrays t) (hacc : Account n t) :
    Recorded { l with toSt := t, listed := l.listed ++ [(k, i, lu (l.tid k i))] } := by
  obtain ⟨hids, hlen⟩ := h.level hm
  have hcr : t.created = l.created := by rw [ht]
  have hmain : t.main = .list k (i + 1) := by rw [ht]
  obtain ⟨-, -, hrep, hlisted⟩ :=
    h.keep harr hacc hcr (reply_congr (hmain ▸ nofun) (hm ▸ nofun))
  refine ⟨harr, ⟨n, hacc⟩, hrep, fun j m o hmem => ?_⟩
  rcases List.mem_append.1 hmem with hmem | hmem
  · exact hlisted j m o hmem
  · obtain ⟨rfl, rfl, rfl⟩ : j = k ∧ m = i ∧ o = lu (l.tid k i) := by
      simpa only [List.mem_singleton, Prod.mk.injEq] using hmem
    refine ⟨hlen ▸ hi, l.tid j m, ?_, rfl⟩
    dsimp only
    rw [hcr, hids, St.ids, List.getElem?_map, List.getElem?_range hi, Option.map_some]

theorem Recorded.step (h : Recorded l) (hs : l.step a = some m) : Recorded m := by
  obtain ⟨⟨t, o⟩, hstep, rfl⟩ := Option.map_eq_some_iff.1 hs
  obtain ⟨n, ha⟩ := h.account
  have harr := h.arrays.step ha hstep
  have hacc := ha.step hstep
  cases move_of_step hstep with
  | read hm => exact h.keep harr hacc rfl (reply_congr (main_ne_reply _) (hm ▸ nofun))
  | spawn hm => exact h.spawn hm rfl harr hacc
  | reply hm =>
    simp only [Log.record, hm]
    exact h.reply hm rfl harr hacc rfl
  | join hm ht => exact h.keep harr hacc rfl (reply_congr nofun (hm ▸ nofun))
  | delete hm => exact h.keep harr hacc rfl (reply_congr nofun (hm ▸ nofun))
  | list hm hi =>
    simp only [Log.record, hm, if_pos hi]
    exact h.list hm hi rfl harr hacc
  | listed hm hle =>
    simp only [Log.record, hm, if_neg (Nat.not_lt_of_le hle)]
    exact h.keep harr hacc rfl (reply_congr nofun (hm ▸ nofun))
  | unknown hm => exact h.keep harr hacc rfl (reply_congr nofun (hm ▸ nofun))
  | thread ht hu =>
    rcases stepThread_cases hu with ⟨-, hu⟩ | ⟨b, -, -, rfl⟩ | ⟨b, b', head, -, -, rfl⟩
    · obtain ⟨-, rfl⟩ := of_guard hu
      exact h.keep harr hacc rfl fun k => Iff.rfl
    · exact h.keep harr hacc rfl fun k => Iff.rfl
    · exact h.keep harr hacc rfl fun k => Iff.rfl
  | spurious ht => exact h.keep harr hacc rfl fun k => Iff.rfl

theorem recorded_of_reachable (h : logged.Reachable l) : Recorded l := by
  apply h.invariant
  · rintro l rfl
    exact .start
  · intro l a m hl _ hs
    exact hl.step hs

theorem Recorded.entry (h : Recorded l) (hmem : (k, i, o) ∈ l.listed) :
    ∃ r, (l.replied k)[i]? = some r ∧ (r.1 = o ↔ r.2 = true) := by
  obtain ⟨hi, x, hx, rfl⟩ := h.listed k i o hmem
  have hrep := h.replied k
  have hdue : i < (l.due k).length := hrep.length_eq ▸ hi
  have hget : (l.due k)[i] = x := by
    have hsome : (l.due k)[i]? = some x := by
      rw [Log.due] at hdue ⊢
      split at hdue
      · rw [List.length_dropLast] at hdue
        rw [if_pos ‹_›, List.getElem?_dropLast, if_pos hdue, hx]
      · rw [if_neg ‹_›, hx]
    exact (List.getElem_eq_iff hdue).2 hsome
  refine ⟨(l.replied k)[i], List.getElem?_eq_getElem hi, ?_⟩
  have hfits := hrep.get hdue hi
  rw [List.get_eq_getElem, List.get_eq_getElem] at hfits
  rw [← hget]
  exact hfits

/-- In every run the listings agree with the replies exactly if the replies to the creations listed
came in time. -/
theorem listed_iff (h : logged.Reachable l) : Listed l ↔ Timely l := by
  have hrec := recorded_of_reachable h
  constructor
  · intro hl k i o hmem
    obtain ⟨r, hr, hiff⟩ := hrec.entry hmem
    have ho := hl.entries k i o hmem
    rw [hr, Option.map_some, Option.some.injEq] at ho
    rw [hr, Option.map_some, hiff.1 ho]
  · intro ht
    refine ⟨fun k i o hmem => ?_, fun k i hm => (hrec.level hm).2.symm⟩
    obtain ⟨r, hr, hiff⟩ := hrec.entry hmem
    have hin := ht k i o hmem
    rw [hr, Option.map_some, Option.some.injEq] at hin
    rw [hr, Option.map_some, hiff.2 hin]

/-- A producer is created and then listed; `main` writes its reply after the first `n` sections of
the new thread. -/
def createAndList (n : Nat) : List Act :=
  [.read (ascii "create producer\n"), .spawn 7] ++ List.replicate n (.thread 0) ++ [.reply 0] ++
  List.replicate (12 - n) (.thread 0) ++ [.join, .read (ascii "list producer\n"), .list]

theorem createAndList_zero : ((logged.run (createAndList 0) .start).map fun l =>
    (l.listed, l.replied .producer)) =
    some ([(.producer, 0, ascii "7")], [(ascii "0", false)]) := by decide +kernel

theorem createAndList_one : ((logged.run (createAndList 1) .start).map fun l =>
    (l.listed, l.replied .producer)) =
    some ([(.producer, 0, ascii "7")], [(ascii "7", true)]) := by decide +kernel

/-- The reply says 0 when `main` is faster than the new thread. -/
theorem not_listed : ∃ as l, logged.run as .start = some l ∧ ¬ Listed l := by
  obtain ⟨l, hl, he⟩ := Option.map_eq_some_iff.1 createAndList_zero
  obtain ⟨hlisted, hreplied⟩ := Prod.mk.inj he
  refine ⟨_, l, hl, fun h => ?_⟩
  have hentry := h.entries .producer 0 (ascii "7") (by rw [hlisted]; decide)
  rw [hreplied] at hentry
  exact absurd hentry (by decide)

theorem listed_iff_one : ∃ l, logged.run (createAndList 1) .start = some l ∧ Listed l := by
  obtain ⟨l, hl, he⟩ := Option.map_eq_some_iff.1 createAndList_one
  obtain ⟨hlisted, hreplied⟩ := Prod.mk.inj he
  refine ⟨l, hl, (listed_iff (Sys.Reachable.of_run rfl hl)).2 fun k i o hmem => ?_⟩
  obtain ⟨rfl, rfl, rfl⟩ : k = .producer ∧ i = 0 ∧ o = ascii "7" := by
    simpa only [hlisted, List.mem_singleton, Prod.mk.injEq] using hmem
  rw [hreplied]
  rfl

end LinuxIpc.Procon
