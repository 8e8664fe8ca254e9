import LinuxIpc.Lib.Family
import LinuxIpc.Lib.Transition

namespace LinuxIpc.Relay
set_option autoImplicit true
set_option linter.unusedSectionVars false

open Function (update update_self update_of_ne)

/-- A server that passes what each member of a group says on to all others, under one lock: the
order in which it goes through them, how it tells the one who speaks, what it makes of a piece that
it has read and of what else it finds, how much it and they read at once, and how much the two
buffers of a connection take. A text is never empty, for to send nothing would be taken for a
failure. -/
structure Group (ι : Type u) (β : Type v) (γ : Type w) where
  members : List ι
  nodup : members.Nodup
  mem : ∀ i, i ∈ members
  same : ι → ι → Bool
  same_iff : ∀ i j, same i j = true ↔ i = j
  text : ι → List β → γ → List β
  text_ne : ∀ i d c, text i d c ≠ []
  reads : ι → Nat
  reads_pos : ∀ i, 0 < reads i
  hears : Nat
  hears_pos : 0 < hears
  up : Nat
  up_pos : 0 < up
  down : Nat
  down_pos : 0 < down

/-- Where the server's part for one member stands: `d` has been read and made `m`. -/
inductive Pc (β : Type v)
  | read
  | lock (d m : List β)
  | test (m : List β) (k : Nat)
  | send (m : List β) (k : Nat) (rest : List β)
  | unlock

/-- From a member to the server: what it has still to write, and what the server has still to
read. -/
structure Talk (β : Type v) where
  typed : List β
  up : List β
  pc : Pc β

/-- From the server to a member. -/
structure Ear (β : Type v) where
  down : List β
  heard : List (List β)

/-- A piece that `who` has said, and what the server makes of it. -/
structure Said (ι : Type u) (β : Type v) where
  who : ι
  piece : List β
  text : List β

structure St (ι : Type u) (β : Type v) where
  talk : ι → Talk β
  ear : ι → Ear β
  mutex : Option ι
  log : List (Said ι β)

inductive Act (ι : Type u) (γ : Type w)
  | write (i : ι)
  | read (i : ι) (k : Nat) (c : γ)
  | go (i : ι)
  | hear (j : ι) (k : Nat)

variable {ι : Type u} {β : Type v} {γ : Type w} [DecidableEq ι] {G : Group ι β γ}

def St.setPc (s : St ι β) (i : ι) (pc : Pc β) : St ι β :=
  { s with talk := update s.talk i { s.talk i with pc := pc } }

/-- One statement of the call that is made for `i`. A send puts one byte after the other into the
buffer, and waits where there is no room for it. One that has sent nothing ends the call. -/
def St.go (G : Group ι β γ) (s : St ι β) (i : ι) : Pc β → Option (St ι β)
  | .read => none
  | .lock d m =>
    if s.mutex = none then
      some { s.setPc i (.test m 0) with mutex := some i, log := s.log ++ [⟨i, d, m⟩] }
    else none
  | .test m k =>
    match G.members[k]? with
    | some j => some (s.setPc i (if G.same j i then .test m (k + 1) else .send m k m))
    | none => some (s.setPc i .unlock)
  | .send m k [] => some (s.setPc i (if m = [] then .unlock else .test m (k + 1)))
  | .send m k (b :: rest) =>
    match G.members[k]? with
    | some j =>
      if (s.ear j).down.length < G.down then
        some { s.setPc i (.send m k rest) with
          ear := update s.ear j { s.ear j with down := (s.ear j).down ++ [b] } }
      else none
    | none => none
  | .unlock => some { s.setPc i .read with mutex := none }

def step (G : Group ι β γ) (s : St ι β) : Act ι γ → Option (St ι β)
  | .write i =>
    match (s.talk i).typed with
    | [] => none
    | b :: l =>
      if (s.talk i).up.length < G.up then
        some { s with
          talk := update s.talk i { s.talk i with typed := l, up := (s.talk i).up ++ [b] } }
      else none
  | .read i k c =>
    match (s.talk i).pc with
    | .read =>
      if 0 < k ∧ k ≤ G.reads i ∧ k ≤ (s.talk i).up.length then
        some { s with talk := update s.talk i { s.talk i with
          up := (s.talk i).up.drop k
          pc := .lock ((s.talk i).up.take k) (G.text i ((s.talk i).up.take k) c) } }
      else none
    | _ => none
  | .go i => s.go G i (s.talk i).pc
  | .hear j k =>
    if 0 < k ∧ k ≤ G.hears ∧ k ≤ (s.ear j).down.length then
      some { s with
        ear := update s.ear j
          ⟨(s.ear j).down.drop k, (s.ear j).heard ++ [(s.ear j).down.take k]⟩ }
    else none

/-- All that the members are to say. -/
def start (typed : ι → List β) : St ι β :=
  ⟨fun i => ⟨typed i, [], .read⟩, fun _ => ⟨[], []⟩, none, []⟩

def sys (G : Group ι β γ) (typed : ι → List β) : Sys (St ι β) (Act ι γ) :=
  ⟨(· = start typed), step G⟩

/-- What the others have said, as the server passes it on to `j`. -/
def textsFor (j : ι) (log : List (Said ι β)) : List β :=
  log.flatMap fun x => if x.who = j then [] else x.text

/-- What `i` has said. -/
def saidBy (i : ι) (log : List (Said ι β)) : List β :=
  log.flatMap fun x => if x.who = i then x.piece else []

theorem textsFor_append (j : ι) (log : List (Said ι β)) (x : Said ι β) :
    textsFor j (log ++ [x]) = textsFor j log ++ if x.who = j then [] else x.text := by
  rw [textsFor, List.flatMap_append, List.flatMap_singleton, textsFor]

theorem saidBy_append (i : ι) (log : List (Said ι β)) (x : Said ι β) :
    saidBy i (log ++ [x]) = saidBy i log ++ if x.who = i then x.piece else [] := by
  rw [saidBy, List.flatMap_append, List.flatMap_singleton, saidBy]

/-- What the server has read and not begun to pass on. -/
def Pc.piece : Pc β → List β
  | .lock d _ => d
  | .read | .test _ _ | .send _ _ _ | .unlock => []

/-- The part holds the lock. -/
def Pc.inside : Pc β → Bool
  | .test _ _ | .send _ _ _ | .unlock => true
  | .read | .lock _ _ => false

/-- What of the current text is still to be sent to `j`. -/
def Pc.owes (G : Group ι β γ) (i j : ι) : Pc β → List β
  | .test m k => if j ∈ G.members.drop k ∧ j ≠ i then m else []
  | .send m k rest =>
    if G.members[k]? = some j then rest
    else if j ∈ G.members.drop (k + 1) ∧ j ≠ i then m else []
  | .read | .lock _ _ | .unlock => []

def St.owes (G : Group ι β γ) (s : St ι β) (j : ι) : List β :=
  match s.mutex with
  | some i => (s.talk i).pc.owes G i j
  | none => []

/-- A text waits to be passed on as the server makes it, and is sent to another member. -/
def Pc.Ok (G : Group ι β γ) (i : ι) : Pc β → Prop
  | .lock d m => ∃ c, m = G.text i d c
  | .test m _ => m ≠ []
  | .send m k _ => m ≠ [] ∧ ∃ j, G.members[k]? = some j ∧ j ≠ i
  | .read | .unlock => True

structure Inv (G : Group ι β γ) (typed : ι → List β) (s : St ι β) : Prop where
  lock : ∀ i, (s.talk i).pc.inside = true ↔ s.mutex = some i
  ok : ∀ i, (s.talk i).pc.Ok G i
  text : ∀ x ∈ s.log, ∃ c, x.text = G.text x.who x.piece c
  heard : ∀ j, textsFor j s.log = (s.ear j).heard.flatten ++ (s.ear j).down ++ s.owes G j
  said : ∀ i, saidBy i s.log ++ (s.talk i).pc.piece ++ (s.talk i).up ++ (s.talk i).typed = typed i

theorem Pc.piece_of_inside {pc : Pc β} (h : pc.inside = true) : pc.piece = [] := by
  cases pc <;> first | rfl | cases h

theorem owes_of_mutex {s : St ι β} (h : s.mutex = some i) (j : ι) :
    s.owes G j = (s.talk i).pc.owes G i j := by
  rw [St.owes, h]

theorem owes_of_free {s : St ι β} (h : s.mutex = none) (j : ι) : s.owes G j = [] := by
  rw [St.owes, h]

/-- The members from a place on. -/
theorem drop_cons {l : List ι} (h : l[k]? = some i) : l.drop k = i :: l.drop (k + 1) := by
  obtain ⟨hk, rfl⟩ := List.getElem?_eq_some_iff.1 h
  exact List.drop_eq_getElem_cons hk

/-- No member stands in two places. -/
theorem Group.notMem_drop (G : Group ι β γ) (h : G.members[k]? = some i) :
    i ∉ G.members.drop (k + 1) := by
  have hn := G.nodup.sublist (List.drop_sublist k G.members)
  rw [drop_cons h] at hn
  exact (List.nodup_cons.1 hn).1

namespace Inv

variable {typed : ι → List β} {s : St ι β}

theorem start : Inv G typed (start typed) where
  lock _ := ⟨nofun, nofun⟩
  ok _ := trivial
  text := nofun
  heard _ := rfl
  said _ := rfl

/-- What is between a member and the server moves on, and nothing is passed on. -/
theorem talk (h : Inv G typed s) (hin : x.pc.inside = (s.talk i).pc.inside) (hok : x.pc.Ok G i)
    (howes : s.mutex = some i → x.pc = (s.talk i).pc)
    (hsaid : x.pc.piece ++ x.up ++ x.typed =
      (s.talk i).pc.piece ++ (s.talk i).up ++ (s.talk i).typed) :
    Inv G typed { s with talk := update s.talk i x } where
  lock j := by
    have hsame := update_same (fun y : Talk β => y.pc.inside) hin j
    exact (Bool.eq_iff_iff.1 hsame).trans (h.lock j)
  ok j := by
    by_cases hj : j = i
    · subst hj
      simpa only [update_self] using hok
    · simpa only [update_of_ne hj] using h.ok j
  text := h.text
  heard j := by
    have hsame : St.owes G { s with talk := update s.talk i x } j = s.owes G j := by
      unfold St.owes
      cases hm : s.mutex with
      | none => rfl
      | some q =>
        by_cases hq : q = i
        · subst hq
          simp only [update_self, howes hm]
        · simp only [update_of_ne hq]
    rw [hsame]
    exact h.heard j
  said j := by
    by_cases hj : j = i
    · subst hj
      have hs := h.said j
      simp only [update_self, List.append_assoc] at hsaid hs ⊢
      rw [hsaid, hs]
    · simpa only [update_of_ne hj] using h.said j

/-- The part that holds the lock goes on. -/
theorem holder (h : Inv G typed s) (hm : s.mutex = some i) (hin : pc.inside = true)
    (hok : pc.Ok G i) (hear : ∀ j, (ear j).heard.flatten ++ (ear j).down ++ pc.owes G i j =
      (s.ear j).heard.flatten ++ (s.ear j).down ++ (s.talk i).pc.owes G i j) :
    Inv G typed { s.setPc i pc with ear := ear } where
  lock j := by
    have hold : (s.talk i).pc.inside = true := (h.lock i).2 hm
    have hsame := update_same (f := s.talk) (x := { s.talk i with pc := pc })
      (fun y : Talk β => y.pc.inside) (hin.trans hold.symm) j
    exact (Bool.eq_iff_iff.1 hsame).trans (h.lock j)
  ok j := by
    change (update s.talk i { s.talk i with pc := pc } j).pc.Ok G j
    by_cases hj : j = i
    · subst hj
      simpa only [update_self] using hok
    · simpa only [update_of_ne hj] using h.ok j
  text := h.text
  heard j := by
    have howes : St.owes G { s.setPc i pc with ear := ear } j = pc.owes G i j := by
      have hm' : ({ s.setPc i pc with ear := ear } : St ι β).mutex = some i := hm
      rw [owes_of_mutex hm']
      change (update s.talk i { s.talk i with pc := pc } i).pc.owes G i j = _
      rw [update_self]
    rw [howes]
    refine Eq.trans ?_ (hear j).symm
    rw [← owes_of_mutex hm]
    exact h.heard j
  said j := by
    have hold : (s.talk i).pc.piece = [] := Pc.piece_of_inside ((h.lock i).2 hm)
    change saidBy j s.log ++ (update s.talk i { s.talk i with pc := pc } j).pc.piece ++
      (update s.talk i { s.talk i with pc := pc } j).up ++
      (update s.talk i { s.talk i with pc := pc } j).typed = _
    have hs := h.said j
    by_cases hj : j = i
    · subst hj
      rw [hold] at hs
      simpa only [update_self, Pc.piece_of_inside hin] using hs
    · simpa only [update_of_ne hj] using hs

/-- A text is logged when the lock is taken for it. -/
theorem take (h : Inv G typed s) (hm : s.mutex = none) (hpc : (s.talk i).pc = .lock d m) :
    Inv G typed { s.setPc i (.test m 0) with mutex := some i, log := s.log ++ [⟨i, d, m⟩] } := by
  obtain ⟨c, hc⟩ : ∃ c, m = G.text i d c := by
    have hok := h.ok i
    rw [hpc] at hok
    exact hok
  have htalk (j : ι) (hj : j ≠ i) :
      update s.talk i { s.talk i with pc := .test m 0 } j = s.talk j := update_of_ne hj ..
  constructor
  case lock =>
    intro j
    change (update s.talk i _ j).pc.inside = true ↔ some i = some j
    by_cases hj : j = i
    · subst hj
      rw [update_self]
      exact ⟨fun _ => rfl, fun _ => rfl⟩
    · rw [htalk j hj, h.lock j, hm]
      exact ⟨nofun, fun he => (hj (Option.some.inj he).symm).elim⟩
  case ok =>
    intro j
    change (update s.talk i _ j).pc.Ok G j
    by_cases hj : j = i
    · subst hj
      rw [update_self]
      exact hc ▸ G.text_ne j d c
    · rw [htalk j hj]
      exact h.ok j
  case text =>
    intro x hx
    rcases List.mem_append.1 hx with hx | hx
    · exact h.text x hx
    · rw [List.mem_singleton.1 hx]
      exact ⟨c, hc⟩
  case heard =>
    intro j
    have howes := owes_of_mutex (G := G)
      (s := { s.setPc i (.test m 0) with mutex := some i, log := s.log ++ [⟨i, d, m⟩] }) rfl j
    change St.owes G _ j = (update s.talk i _ i).pc.owes G i j at howes
    rw [update_self] at howes
    rw [howes, textsFor_append, h.heard j, owes_of_free hm, List.append_nil]
    congr 1
    rw [Pc.owes, List.drop_zero]
    by_cases hj : i = j
    · rw [if_pos hj, if_neg fun hn => hn.2 hj.symm]
    · rw [if_neg hj, if_pos ⟨G.mem j, Ne.symm hj⟩]
  case said =>
    intro j
    change saidBy j (s.log ++ [⟨i, d, m⟩]) ++ (update s.talk i _ j).pc.piece ++
      (update s.talk i _ j).up ++ (update s.talk i _ j).typed = _
    have hs := h.said j
    rw [saidBy_append]
    by_cases hj : j = i
    · subst hj
      rw [hpc] at hs
      simp only [update_self, if_true, Pc.piece, List.append_nil]
      exact hs
    · rw [htalk j hj, if_neg (Ne.symm hj), List.append_nil]
      exact hs

/-- The server is through with a text. -/
theorem release (h : Inv G typed s) (hpc : (s.talk i).pc = .unlock) :
    Inv G typed { s.setPc i .read with mutex := none } := by
  have hm : s.mutex = some i := (h.lock i).1 (by rw [hpc]; rfl)
  have htalk (j : ι) (hj : j ≠ i) :
      update s.talk i { s.talk i with pc := .read } j = s.talk j := update_of_ne hj ..
  constructor
  case lock =>
    intro j
    change (update s.talk i _ j).pc.inside = true ↔ none = some j
    by_cases hj : j = i
    · subst hj
      rw [update_self]
      exact ⟨nofun, nofun⟩
    · rw [htalk j hj, h.lock j, hm]
      exact ⟨fun he => (hj (Option.some.inj he).symm).elim, nofun⟩
  case ok =>
    intro j
    change (update s.talk i _ j).pc.Ok G j
    by_cases hj : j = i
    · subst hj
      rw [update_self]
      trivial
    · rw [htalk j hj]
      exact h.ok j
  case text => exact h.text
  case heard =>
    intro j
    have hj := h.heard j
    rw [owes_of_mutex hm, hpc] at hj
    rw [owes_of_free rfl]
    exact hj
  case said =>
    intro j
    change saidBy j s.log ++ (update s.talk i _ j).pc.piece ++ (update s.talk i _ j).up ++
      (update s.talk i _ j).typed = _
    have hs := h.said j
    by_cases hj : j = i
    · subst hj
      rw [hpc] at hs
      simp only [update_self]
      exact hs
    · rw [htalk j hj]
      exact hs

/-- To a member that is passed over, nothing is owed. -/
theorem owes_test (m : List β) (hk : G.members[k]? = some j) (hj : j = i) (u : ι) :
    (Pc.test m (k + 1)).owes G i u = (Pc.test m k).owes G i u := by
  have hiff : (u ∈ G.members.drop (k + 1) ∧ u ≠ i) ↔ (u ∈ G.members.drop k ∧ u ≠ i) := by
    rw [drop_cons hk, List.mem_cons]
    refine ⟨fun h => ⟨.inr h.1, h.2⟩, fun h => ⟨h.1.resolve_left ?_, h.2⟩⟩
    rintro rfl
    exact h.2 hj
  exact if_congr hiff rfl rfl

theorem owes_begin (m : List β) (hk : G.members[k]? = some j) (hj : j ≠ i) (u : ι) :
    (Pc.send m k m).owes G i u = (Pc.test m k).owes G i u := by
  rw [Pc.owes, Pc.owes, hk, drop_cons hk]
  by_cases hu : j = u
  · subst hu
    rw [if_pos rfl, if_pos ⟨List.mem_cons_self, hj⟩]
  · rw [if_neg fun he => hu (Option.some.inj he)]
    refine if_congr ?_ rfl rfl
    rw [List.mem_cons]
    exact ⟨fun h => ⟨.inr h.1, h.2⟩, fun h => ⟨h.1.resolve_left (Ne.symm hu), h.2⟩⟩

theorem owes_end (m : List β) (hk : G.members[k]? = some j) (u : ι) :
    (Pc.test m (k + 1)).owes G i u = (Pc.send m k []).owes G i u := by
  rw [Pc.owes, Pc.owes, hk]
  by_cases hu : j = u
  · subst hu
    rw [if_pos rfl, if_neg fun h => G.notMem_drop hk h.1]
  · rw [if_neg fun he => hu (Option.some.inj he)]

theorem go {t : St ι β} (h : Inv G typed s) (ht : s.go G i (s.talk i).pc = some t) :
    Inv G typed t := by
  have hok := h.ok i
  unfold St.go at ht
  split at ht
  · cases ht
  · rename_i d m hpc
    obtain ⟨hm, rfl⟩ := of_guard ht
    exact h.take hm hpc
  · rename_i m k hpc
    have hm : s.mutex = some i := (h.lock i).1 (by rw [hpc]; rfl)
    rw [hpc] at hok
    split at ht
    · rename_i j hk
      obtain rfl := Option.some.inj ht
      split
      · rename_i hsame
        have hj : j = i := (G.same_iff j i).1 hsame
        exact h.holder hm rfl hok fun u => by rw [owes_test m hk hj, hpc]
      · rename_i hsame
        have hj : j ≠ i := mt (G.same_iff j i).2 hsame
        exact h.holder hm rfl ⟨hok, j, hk, hj⟩ fun u => by rw [owes_begin m hk hj, hpc]
    · rename_i hk
      obtain rfl := Option.some.inj ht
      refine h.holder hm rfl trivial fun u => ?_
      rw [hpc, Pc.owes, Pc.owes, List.drop_eq_nil_of_le (List.getElem?_eq_none_iff.1 hk),
        if_neg fun hn => List.not_mem_nil hn.1]
  · rename_i m k hpc
    have hm : s.mutex = some i := (h.lock i).1 (by rw [hpc]; rfl)
    rw [hpc] at hok
    obtain ⟨hne, j, hk, -⟩ := hok
    rw [if_neg hne] at ht
    obtain rfl := Option.some.inj ht
    exact h.holder hm rfl hne fun u => by rw [owes_end m hk, hpc]
  · rename_i m k b rest hpc
    have hm : s.mutex = some i := (h.lock i).1 (by rw [hpc]; rfl)
    rw [hpc] at hok
    obtain ⟨hne, j, hk, hj⟩ := hok
    rw [hk] at ht
    obtain ⟨-, rfl⟩ := of_guard ht
    refine h.holder hm rfl ⟨hne, j, hk, hj⟩ fun u => ?_
    rw [hpc, Pc.owes, Pc.owes, hk]
    by_cases hu : j = u
    · subst hu
      simp only [update_self, if_true, List.append_assoc, List.singleton_append]
    · rw [update_of_ne (Ne.symm hu), if_neg fun he => hu (Option.some.inj he),
        if_neg fun he => hu (Option.some.inj he)]
  · rename_i hpc
    obtain rfl := Option.some.inj ht
    exact h.release hpc

theorem step {t : St ι β} (h : Inv G typed s) (ht : Relay.step G s a = some t) :
    Inv G typed t := by
  cases a with
  | write i =>
    unfold Relay.step at ht
    dsimp only at ht
    split at ht
    · cases ht
    · rename_i b l hl
      obtain ⟨-, rfl⟩ := of_guard ht
      refine h.talk rfl (h.ok i) (fun _ => rfl) ?_
      simp only [hl, List.append_assoc, List.singleton_append]
  | read i k c =>
    unfold Relay.step at ht
    dsimp only at ht
    split at ht
    · rename_i hpc
      obtain ⟨-, rfl⟩ := of_guard ht
      refine h.talk (by rw [hpc]; rfl) ⟨c, rfl⟩ (fun hm => ?_) ?_
      · have hin := (h.lock i).2 hm
        rw [hpc] at hin
        cases hin
      · simp only [hpc, Pc.piece, List.nil_append, List.take_append_drop]
    · cases ht
  | go i => exact h.go ht
  | hear j k =>
    obtain ⟨-, rfl⟩ := of_guard ht
    exact { h with
      heard := by
        intro u
        refine (h.heard u).trans ?_
        change _ = (update s.ear j _ u).heard.flatten ++ (update s.ear j _ u).down ++ s.owes G u
        by_cases hu : u = j
        · subst hu
          simp only [update_self, List.flatten_append, List.flatten_singleton, List.append_assoc]
          rw [← List.append_assoc (List.take k _), List.take_append_drop]
        · rw [update_of_ne hu] }

end Inv

/-- Everyone has heard all that the others had to say, in one order of all that was said. -/
structure Over (G : Group ι β γ) (typed : ι → List β) (s : St ι β) : Prop where
  heard : ∀ j, (s.ear j).heard.flatten = textsFor j s.log
  said : ∀ i, saidBy i s.log = typed i
  text : ∀ x ∈ s.log, ∃ c, x.text = G.text x.who x.piece c

/-- Statements and bytes that are left of a call. -/
def Pc.rank (n : Nat) : Pc β → Nat
  | .read => 0
  | .unlock => 1
  | .test m k => (n - k) * (m.length + 3) + 2
  | .send m k rest => (n - (k + 1)) * (m.length + 3) + rest.length + 3
  | .lock _ m => n * (m.length + 3) + 3

theorem rank_sub (m : List β) (h : k < n) :
    (n - k) * (m.length + 3) = (n - (k + 1)) * (m.length + 3) + (m.length + 3) := by
  have hsub : n - k = n - (k + 1) + 1 := by omega
  rw [hsub, Nat.add_mul, Nat.one_mul]

/-- Each statement brings the call nearer to its end. -/
theorem go_rank {s t : St ι β} (ht : s.go G i pc = some t) :
    ∃ pc' ear mutex log, pc'.rank G.members.length < pc.rank G.members.length ∧
      t = { s.setPc i pc' with ear := ear, mutex := mutex, log := log } := by
  unfold St.go at ht
  split at ht
  · cases ht
  · obtain ⟨-, rfl⟩ := of_guard ht
    exact ⟨_, _, _, _, Nat.lt_succ_self _, rfl⟩
  · rename_i m k
    split at ht
    · rename_i j hk
      obtain rfl := Option.some.inj ht
      have hlt : k < G.members.length := (List.getElem?_eq_some_iff.1 hk).1
      have hsub := rank_sub m hlt
      refine ⟨_, s.ear, s.mutex, s.log, ?_, rfl⟩
      split
      · rw [Pc.rank, Pc.rank]
        omega
      · rw [Pc.rank, Pc.rank]
        omega
    · obtain rfl := Option.some.inj ht
      exact ⟨_, s.ear, s.mutex, s.log, Nat.lt_of_lt_of_le Nat.one_lt_two (Nat.le_add_left ..), rfl⟩
  · rename_i m k
    obtain rfl := Option.some.inj ht
    refine ⟨_, s.ear, s.mutex, s.log, ?_, rfl⟩
    split
    · exact Nat.lt_of_lt_of_le (show 1 < 3 by decide) (Nat.le_add_left 3 _)
    · exact Nat.lt_succ_self _
  · rename_i m k b rest
    split at ht
    · obtain ⟨-, rfl⟩ := of_guard ht
      refine ⟨_, _, s.mutex, s.log, ?_, rfl⟩
      rw [Pc.rank, Pc.rank, List.length_cons]
      omega
    · cases ht
  · obtain rfl := Option.some.inj ht
    exact ⟨.read, s.ear, none, s.log, Nat.one_pos, rfl⟩

variable [Fintype ι]

/-- What is still to be written, to be read by the server, to be passed on and to be read by the
members: what shrinks makes what stands behind it grow. -/
def St.rank (G : Group ι β γ) (s : St ι β) : Nat × Nat × Nat × Nat :=
  (total (fun x => x.typed.length) s.talk, total (fun x => x.up.length) s.talk,
    total (fun x => x.pc.rank G.members.length) s.talk, total (fun x => x.down.length) s.ear)

theorem rank_talk {s t : St ι β} {x : Talk β} (ht : t.talk = update s.talk i x)
    (htyped : x.typed = (s.talk i).typed)
    (hlt : x.up.length < (s.talk i).up.length ∨ x.up = (s.talk i).up ∧
      x.pc.rank G.members.length < (s.talk i).pc.rank G.members.length) :
    Prod.Lex (· < ·) (Prod.Lex (· < ·) (Prod.Lex (· < ·) (· < ·))) (t.rank G) (s.rank G) := by
  have he : total (fun y => y.typed.length) (update s.talk i x) =
      total (fun y => y.typed.length) s.talk := total_update_eq (by rw [htyped])
  rw [St.rank, ht, he]
  rcases hlt with hlt | ⟨hup, hlt⟩
  · exact .right _ (.left _ _ (total_update_lt hlt))
  · have he' : total (fun y => y.up.length) (update s.talk i x) =
        total (fun y => y.up.length) s.talk := total_update_eq (by rw [hup])
    rw [he']
    exact .right _ (.right _ (.left _ _ (total_update_lt hlt)))

theorem rank_step {s t : St ι β} (ht : step G s a = some t) :
    Prod.Lex (· < ·) (Prod.Lex (· < ·) (Prod.Lex (· < ·) (· < ·))) (t.rank G) (s.rank G) := by
  cases a with
  | write i =>
    unfold step at ht
    dsimp only at ht
    split at ht
    · cases ht
    · rename_i b l hl
      obtain ⟨-, rfl⟩ := of_guard ht
      exact .left _ _ (total_update_lt (by rw [hl]; exact Nat.lt_succ_self _))
  | read i k c =>
    unfold step at ht
    dsimp only at ht
    split at ht
    · obtain ⟨⟨hk, -, hle⟩, rfl⟩ := of_guard ht
      refine rank_talk rfl rfl (.inl ?_)
      simp only [List.length_drop]
      omega
    · cases ht
  | go i =>
    obtain ⟨pc, ear, mutex, log, hlt, rfl⟩ := go_rank ht
    exact rank_talk rfl rfl (.inr ⟨rfl, hlt⟩)
  | hear j k =>
    obtain ⟨⟨hk, -, hle⟩, rfl⟩ := of_guard ht
    refine .right _ (.right _ (.right _ (total_update_lt ?_)))
    simp only [List.length_drop]
    omega

end LinuxIpc.Relay
