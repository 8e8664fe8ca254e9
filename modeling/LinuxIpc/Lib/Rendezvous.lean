import LinuxIpc.Lib.Family
import LinuxIpc.Lib.Transition

namespace LinuxIpc.Rendezvous
set_option autoImplicit true
set_option linter.unusedSectionVars false

open Function (update update_self update_of_ne)

/-- The ends of a FIFO. -/
inductive Mode
  | read
  | write
  deriving DecidableEq

def Mode.other : Mode → Mode
  | .read => .write
  | .write => .read

theorem Mode.other_ne (e : Mode) : e.other ≠ e := by
  cases e <;> nofun

@[simp] theorem Mode.other_other (e : Mode) : e.other.other = e := by
  cases e <;> rfl

/-- Who has the ends of the FIFOs open, and how often they have been opened, as the kernel counts
them. -/
structure Ends (φ : Type u) where
  here : φ × Mode → Nat
  opened : φ × Mode → Nat

variable {φ : Type u} [DecidableEq φ]

def Ends.none : Ends φ := ⟨fun _ => 0, fun _ => 0⟩

def Ends.enter (n : Ends φ) (x : φ × Mode) : Ends φ :=
  ⟨update n.here x (n.here x + 1), update n.opened x (n.opened x + 1)⟩

def Ends.close (n : Ends φ) (xs : List (φ × Mode)) : Ends φ :=
  { n with here := fun x => if x ∈ xs then n.here x - 1 else n.here x }

/-- The other end of the same FIFO. -/
def facing (x : φ × Mode) : φ × Mode := (x.1, x.2.other)

theorem facing_facing (x : φ × Mode) : facing (facing x) = x := by
  simp only [facing, Mode.other_other]

theorem facing_ne (x : φ × Mode) : facing x ≠ x := fun h => x.2.other_ne (congrArg Prod.snd h)

/-- Two programs that open the same FIFOs one after the other, each at the end that faces the
other's. -/
structure Pair (φ : Type u) where
  opens : List (φ × Mode)
  nodup : (opens.map Prod.fst).Nodup

def Pair.script (p : Pair φ) : Bool → List (φ × Mode)
  | true => p.opens
  | false => p.opens.map facing

/-- Where a program stands: it has made so many `open`s and goes on, or is blocked in the next one,
having seen so many openings of the other end; in the end it closes them all. -/
inductive Pc
  | next (k : Nat)
  | waiting (k seen : Nat)
  | left
  deriving DecidableEq

structure St (φ : Type u) where
  ends : Ends φ
  pc : Bool → Pc

/-- An `open` that finds nobody at the other end blocks until that has been opened. -/
def step (p : Pair φ) (s : St φ) (b : Bool) : Option (St φ) :=
  match s.pc b with
  | .next k =>
    match (p.script b)[k]? with
    | some x => some {
        ends := s.ends.enter x
        pc := update s.pc b (if 0 < s.ends.here (facing x) then .next (k + 1)
          else .waiting k (s.ends.opened (facing x))) }
    | none => some { ends := s.ends.close (p.script b), pc := update s.pc b .left }
  | .waiting k seen =>
    match (p.script b)[k]? with
    | some x =>
      if s.ends.opened (facing x) ≠ seen then
        some { s with pc := update s.pc b (.next (k + 1)) }
      else none
    | none => none
  | .left => none

def start : St φ := ⟨.none, fun _ => .next 0⟩

def sys (p : Pair φ) : Sys (St φ) Bool := ⟨(· = start), step p⟩

/-- All its `open`s have returned. -/
def Pc.Connected (n : Nat) : Pc → Prop
  | .next k => k = n
  | .waiting .. => False
  | .left => True

def Pc.entered (n : Nat) : Pc → Nat
  | .next k => k
  | .waiting k _ => k + 1
  | .left => n

def Pc.passed (n : Nat) : Pc → Nat
  | .next k | .waiting k _ => k
  | .left => n

def Pc.Ok (n : Nat) : Pc → Prop
  | .next k => k ≤ n
  | .waiting k seen => k < n ∧ seen = 0
  | .left => True

namespace Pair

theorem length_script (p : Pair φ) (b : Bool) : (p.script b).length = p.opens.length := by
  cases b
  · exact List.length_map ..
  · rfl

theorem script_not (p : Pair φ) {b : Bool} {i : Nat} (h : (p.script b)[i]? = some x) :
    (p.script (!b))[i]? = some (facing x) := by
  cases b with
  | true =>
    change (p.opens.map facing)[i]? = _
    rw [List.getElem?_map]
    exact congrArg (Option.map facing) h
  | false =>
    change (p.opens.map facing)[i]? = _ at h
    rw [List.getElem?_map] at h
    obtain ⟨y, hy, rfl⟩ := Option.map_eq_some_iff.1 h
    rw [facing_facing]
    exact hy

theorem fst_script (p : Pair φ) (b : Bool) : (p.script b).map Prod.fst = p.opens.map Prod.fst := by
  cases b with
  | true => rfl
  | false =>
    change (p.opens.map facing).map Prod.fst = _
    rw [List.map_map]
    rfl

/-- An end is opened in one place of one program. -/
theorem script_inj (p : Pair φ) {b b' : Bool} {i j : Nat} (h : (p.script b)[i]? = some x)
    (h' : (p.script b')[j]? = some x) : b = b' ∧ i = j := by
  have hget {b : Bool} {i : Nat} {x : φ × Mode} (h : (p.script b)[i]? = some x) :
      (p.opens.map Prod.fst)[i]? = some x.1 := by
    rw [← p.fst_script b, List.getElem?_map, h]
    rfl
  have hi := (List.getElem?_eq_some_iff.1 (hget h)).1
  obtain rfl : i = j := (List.getElem?_inj hi p.nodup).1 ((hget h).trans (hget h').symm)
  refine ⟨?_, rfl⟩
  by_contra hb
  obtain rfl : b' = !b := by
    cases b <;> cases b' <;> first | rfl | exact (hb rfl).elim
  exact facing_ne x (Option.some.inj ((p.script_not h).symm.trans h'))

end Pair

/-- What an end of a FIFO has seen follows from where its program stands. -/
structure Inv (p : Pair φ) (s : St φ) : Prop where
  ok : ∀ b, (s.pc b).Ok p.opens.length
  opened : ∀ b i x, (p.script b)[i]? = some x →
    s.ends.opened x = if i < (s.pc b).entered p.opens.length then 1 else 0
  here : ∀ b i x, (p.script b)[i]? = some x → s.pc b ≠ .left →
    s.ends.here x = if i < (s.pc b).entered p.opens.length then 1 else 0
  passed : ∀ b, (s.pc b).passed p.opens.length ≤ (s.pc !b).entered p.opens.length

namespace Inv

variable {p : Pair φ} {s : St φ}

theorem start : Inv p start where
  ok _ := Nat.zero_le _
  opened _ _ _ _ := rfl
  here _ _ _ _ _ := rfl
  passed _ := Nat.zero_le _

/-- A count that goes by how far the programs have come goes on so when one of them opens one
more. -/
theorem counts_enter {f : φ × Mode → Nat} {e d : Bool → Nat} {R : Bool → Prop}
    (hf : ∀ u i y, (p.script u)[i]? = some y → R u → f y = if i < e u then 1 else 0)
    (hx : (p.script b)[k]? = some x) (hR : R b) (hk : e b = k) (he : d b = k + 1)
    (he' : ∀ u, u ≠ b → d u = e u) (u : Bool) (i : Nat) (y : φ × Mode)
    (hy : (p.script u)[i]? = some y) (hu : R u) :
    update f x (f x + 1) y = if i < d u then 1 else 0 := by
  by_cases hyx : y = x
  · subst hyx
    obtain ⟨rfl, rfl⟩ := p.script_inj hx hy
    have hzero := hf b k y hx hR
    rw [hk, if_neg (Nat.lt_irrefl k)] at hzero
    rw [update_self, hzero, he, if_pos (Nat.lt_succ_self k)]
  · rw [update_of_ne hyx, hf u i y hy hu]
    by_cases hub : u = b
    · subst hub
      have hik : i ≠ k := by
        rintro rfl
        exact hyx (Option.some.inj (hy.symm.trans hx))
      rw [hk, he]
      exact if_congr (by omega) rfl rfl
    · rw [he' u hub]

theorem enter (h : Inv p s) (hb : s.pc b = .next k) (hx : (p.script b)[k]? = some x)
    (hok : pc.Ok p.opens.length) (hpc : pc.entered p.opens.length = k + 1)
    (hpass : pc.passed p.opens.length ≤ (s.pc !b).entered p.opens.length) :
    Inv p { ends := s.ends.enter x, pc := update s.pc b pc } := by
  have hk : (s.pc b).entered p.opens.length = k := by
    rw [hb]
    rfl
  have he : (update s.pc b pc b).entered p.opens.length = k + 1 := by
    rwa [update_self]
  have he' (u : Bool) (hu : u ≠ b) :
      (update s.pc b pc u).entered p.opens.length = (s.pc u).entered p.opens.length := by
    rw [update_of_ne hu]
  constructor
  case ok =>
    intro u
    by_cases hu : u = b
    · subst hu
      simpa only [update_self] using hok
    · simpa only [update_of_ne hu] using h.ok u
  case opened =>
    intro u i y hy
    exact counts_enter (R := fun _ => True) (d := fun u => (update s.pc b pc u).entered _)
      (fun u i y hy _ => h.opened u i y hy) hx trivial hk he he' u i y hy trivial
  case here =>
    intro u i y hy hu
    have hleft : s.pc u ≠ .left := by
      by_cases hub : u = b
      · rw [hub, hb]
        nofun
      · simpa only [update_of_ne hub] using hu
    exact counts_enter (R := fun u => s.pc u ≠ .left)
      (d := fun u => (update s.pc b pc u).entered _) h.here hx (by rw [hb]; nofun) hk he he' u i y
      hy hleft
  case passed =>
    intro u
    by_cases hu : u = b
    · subst hu
      have hne : (!u) ≠ u := by cases u <;> decide
      simpa only [update_self, update_of_ne hne] using hpass
    · obtain rfl : u = !b := by
        cases u <;> cases b <;> first | rfl | exact (hu rfl).elim
      have hle := h.passed (!b)
      rw [Bool.not_not, hk] at hle
      simp only [update_of_ne hu, Bool.not_not, update_self, hpc]
      omega

/-- A program goes on where the other one has opened the end that faces its own. -/
theorem wake (h : Inv p s) (hb : s.pc b = .waiting k seen)
    (hk : k < (s.pc !b).entered p.opens.length) :
    Inv p { s with pc := update s.pc b (.next (k + 1)) } := by
  have hent (u : Bool) : (update s.pc b (.next (k + 1)) u).entered p.opens.length =
      (s.pc u).entered p.opens.length :=
    update_same (Pc.entered p.opens.length) (by rw [hb]; rfl) u
  have hok := h.ok b
  rw [hb] at hok
  constructor
  case ok =>
    intro u
    by_cases hu : u = b
    · subst hu
      simp only [update_self]
      exact hok.1
    · simpa only [update_of_ne hu] using h.ok u
  case opened =>
    intro u i y hy
    simp only [hent]
    exact h.opened u i y hy
  case here =>
    intro u i y hy hu
    simp only [hent]
    apply h.here u i y hy
    by_cases hub : u = b
    · rw [hub, hb]
      nofun
    · simpa only [update_of_ne hub] using hu
  case passed =>
    intro u
    simp only [hent]
    by_cases hu : u = b
    · subst hu
      simp only [update_self]
      exact hk
    · simp only [update_of_ne hu]
      exact h.passed u

theorem leave (h : Inv p s) (hb : s.pc b = .next k) (hx : (p.script b)[k]? = none) :
    Inv p { ends := s.ends.close (p.script b), pc := update s.pc b .left } := by
  have hok := h.ok b
  rw [hb] at hok
  have hlen : k = p.opens.length := by
    have hle := List.getElem?_eq_none_iff.1 hx
    rw [p.length_script b] at hle
    exact Nat.le_antisymm hok hle
  have hent (u : Bool) : (update s.pc b .left u).entered p.opens.length =
      (s.pc u).entered p.opens.length :=
    update_same (Pc.entered p.opens.length) (by rw [hb, hlen]; rfl) u
  have hpass (u : Bool) : (update s.pc b .left u).passed p.opens.length =
      (s.pc u).passed p.opens.length :=
    update_same (Pc.passed p.opens.length) (by rw [hb, hlen]; rfl) u
  constructor
  case ok =>
    intro u
    by_cases hu : u = b
    · subst hu
      simp only [update_self]
      trivial
    · simpa only [update_of_ne hu] using h.ok u
  case opened =>
    intro u i y hy
    simp only [hent]
    exact h.opened u i y hy
  case here =>
    intro u i y hy hu
    have hub : u ≠ b := by
      rintro rfl
      exact hu (update_self ..)
    simp only [update_of_ne hub] at hu
    have hnot : y ∉ p.script b := by
      intro hmem
      obtain ⟨j, hj⟩ := List.mem_iff_getElem?.1 hmem
      exact hub (p.script_inj hy hj).1
    simp only [hent, Ends.close, if_neg hnot]
    exact h.here u i y hy hu
  case passed =>
    intro u
    simp only [hent, hpass]
    exact h.passed u

/-- A program that finds nobody at the other end has seen no opening of it either. -/
theorem unseen (h : Inv p s) (hb : s.pc b = .next k) (hx : (p.script b)[k]? = some x)
    (hhere : ¬ 0 < s.ends.here (facing x)) : s.ends.opened (facing x) = 0 := by
  have hx' := p.script_not hx
  have hk : k < p.opens.length := by
    rw [← p.length_script b]
    exact (List.getElem?_eq_some_iff.1 hx).1
  have hopened := h.opened (!b) k (facing x) hx'
  by_cases hl : s.pc (!b) = .left
  · have hpass := h.passed (!b)
    rw [hl, Bool.not_not, hb] at hpass
    simp only [Pc.passed, Pc.entered] at hpass
    omega
  · rw [h.here (!b) k (facing x) hx' hl] at hhere
    rw [hopened]
    by_cases hlt : k < (s.pc !b).entered p.opens.length
    · rw [if_pos hlt] at hhere
      exact (hhere Nat.one_pos).elim
    · exact if_neg hlt

/-- Where somebody is at the other end, the other program has come as far. -/
theorem seen (h : Inv p s) (hk : k < p.opens.length) (hx : (p.script b)[k]? = some x)
    (hhere : 0 < s.ends.here (facing x)) : k < (s.pc !b).entered p.opens.length := by
  by_cases hl : s.pc (!b) = .left
  · rw [hl]
    exact hk
  · rw [h.here (!b) k (facing x) (p.script_not hx) hl] at hhere
    by_contra hlt
    rw [if_neg hlt] at hhere
    exact Nat.lt_irrefl 0 hhere

theorem step {s' : St φ} (h : Inv p s) (hs : Rendezvous.step p s b = some s') : Inv p s' := by
  have hok := h.ok b
  unfold Rendezvous.step at hs
  split at hs
  · rename_i k hb
    rw [hb] at hok
    split at hs
    · rename_i x hx
      have hk : k < p.opens.length := by
        rw [← p.length_script b]
        exact (List.getElem?_eq_some_iff.1 hx).1
      have hpass := h.passed b
      rw [hb] at hpass
      refine Option.some.inj hs ▸ ?_
      split
      · rename_i hhere
        exact h.enter hb hx hk rfl (h.seen hk hx hhere)
      · rename_i hhere
        rw [h.unseen hb hx hhere]
        exact h.enter hb hx ⟨hk, rfl⟩ rfl hpass
    · rename_i hx
      exact Option.some.inj hs ▸ h.leave hb hx
  · rename_i k seen hb
    rw [hb] at hok
    split at hs
    · rename_i x hx
      obtain ⟨hseen, rfl⟩ := of_guard hs
      apply h.wake hb
      rw [h.opened (!b) k (facing x) (p.script_not hx), hok.2] at hseen
      by_contra hlt
      exact hseen (if_neg hlt)
    · cases hs
  · cases hs

/-- A blocked program can go on, or else the other one can. -/
theorem exists_step (h : Inv p s) (hb : ¬ (s.pc b).Connected p.opens.length) :
    ∃ u s', Rendezvous.step p s u = some s' := by
  have hok := h.ok b
  cases hpc : s.pc b with
  | left =>
    rw [hpc] at hb
    exact (hb trivial).elim
  | next k =>
    refine ⟨b, ?_⟩
    unfold Rendezvous.step
    simp only [hpc]
    split
    · exact ⟨_, rfl⟩
    · exact ⟨_, rfl⟩
  | waiting k seen =>
    rw [hpc] at hok
    obtain ⟨hk, rfl⟩ := hok
    obtain ⟨x, hx⟩ : ∃ x, (p.script b)[k]? = some x :=
      ⟨_, List.getElem?_eq_getElem (p.length_script b ▸ hk)⟩
    have hopened := h.opened (!b) k (facing x) (p.script_not hx)
    by_cases hlt : k < (s.pc !b).entered p.opens.length
    · rw [if_pos hlt] at hopened
      refine ⟨b, { s with pc := update s.pc b (.next (k + 1)) }, ?_⟩
      simp only [Rendezvous.step, hpc, hx, hopened, ne_eq, one_ne_zero, not_false_eq_true, if_true]
    · refine ⟨!b, ?_⟩
      unfold Rendezvous.step
      cases hpc' : s.pc (!b) with
      | left =>
        rw [hpc'] at hlt
        exact (hlt hk).elim
      | next j =>
        simp only
        split
        · exact ⟨_, rfl⟩
        · exact ⟨_, rfl⟩
      | waiting j seen =>
        -- It is blocked further back, at an end of which this program has opened the other one.
        have hok' := h.ok (!b)
        rw [hpc'] at hlt hok'
        obtain ⟨hj, rfl⟩ := hok'
        obtain ⟨y, hy⟩ : ∃ y, (p.script (!b))[j]? = some y :=
          ⟨_, List.getElem?_eq_getElem (p.length_script (!b) ▸ hj)⟩
        have hfacing := p.script_not hy
        rw [Bool.not_not] at hfacing
        have hopened' := h.opened b j (facing y) hfacing
        rw [hpc, if_pos] at hopened'
        · refine ⟨{ s with pc := update s.pc (!b) (.next (j + 1)) }, ?_⟩
          simp only [hy, hopened', ne_eq, one_ne_zero, not_false_eq_true, if_true]
        · simp only [Pc.entered] at hlt ⊢
          omega

end Inv

/-- The steps a program has left until it has closed its ends, at most. -/
def Pc.rank (n : Nat) : Pc → Nat
  | .next k => 2 * (n - k) + 1
  | .waiting k _ => 2 * (n - k)
  | .left => 0

theorem rank_step {p : Pair φ} {s s' : St φ} (h : Inv p s) (hs : Rendezvous.step p s b = some s') :
    total (Pc.rank p.opens.length) s'.pc < total (Pc.rank p.opens.length) s.pc := by
  have hok := h.ok b
  have hupdate {pc : Pc} (hlt : pc.rank p.opens.length < (s.pc b).rank p.opens.length) :
      total (Pc.rank p.opens.length) (update s.pc b pc) < total (Pc.rank p.opens.length) s.pc :=
    total_update_lt hlt
  unfold Rendezvous.step at hs
  split at hs
  · rename_i k hb
    rw [hb] at hok hupdate
    split at hs
    · rename_i x hx
      have hk : k < p.opens.length := by
        rw [← p.length_script b]
        exact (List.getElem?_eq_some_iff.1 hx).1
      refine Option.some.inj hs ▸ hupdate ?_
      split
      · simp only [Pc.rank]
        omega
      · simp only [Pc.rank]
        omega
    · exact Option.some.inj hs ▸ hupdate (Nat.succ_pos _)
  · rename_i k seen hb
    rw [hb] at hok hupdate
    split at hs
    · obtain ⟨-, rfl⟩ := of_guard hs
      refine hupdate ?_
      simp only [Pc.rank]
      have hk := hok.1
      omega
    · cases hs
  · cases hs

/-- Two programs that open the same FIFOs in the same order from opposite ends both get through,
even when one of them leaves before the other has noticed that it came. -/
theorem inevitable_connected (p : Pair φ) :
    (sys p).Inevitable (fun s => ∀ b, (s.pc b).Connected p.opens.length) start := by
  apply Sys.Inevitable.of_wellFounded (S := sys p) (I := Inv p)
    (InvImage.wf (fun s => total (Pc.rank p.opens.length) s.pc) Nat.lt_wfRel.wf)
  · intro s h hg
    obtain ⟨b, hb⟩ := not_forall.1 hg
    exact h.exists_step hb
  · intro s b s' h _ hs
    exact ⟨h.step hs, rank_step h hs⟩
  · exact .start

end LinuxIpc.Rendezvous
