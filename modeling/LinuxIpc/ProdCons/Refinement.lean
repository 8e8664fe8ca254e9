import LinuxIpc.Lib.Simulation
import LinuxIpc.ProdCons.Ownership

namespace LinuxIpc.ProdCons

/-- What a consumer has unlinked and still to print. -/
def Consumer.taken : Consumer → Multiset Nat
  | .took _ num => {num}
  | _ => 0

theorem Consumer.wake_taken (c : Consumer) : c.wake.taken = c.taken := by
  cases c <;> rfl

end LinuxIpc.ProdCons

namespace LinuxIpc.ProdCons.Nodes
set_option autoImplicit true
set_option linter.unusedSectionVars false

open Function (update update_self update_of_ne update_eq_self)

section Statements
variable {τ : Type} [DecidableEq τ]

/-- `pthread_mutex_lock` has returned, in `producer` or in `consumer`. -/
inductive Locks : Thread → Thread → Prop
  | producer : Locks (.filled i mp) (.linking i mp)
  | consumer : i < rounds → Locks (.consume i) (.testing i)
  | woken : Locks (.woken i) (.testing i)

/-- What a statement does when no access goes wrong. -/
inductive Ran (s : St τ) (u : τ) : St τ → Prop
  | lock : Locks (s.thread u) c → s.lock = none → Ran s u { s.goto u c with lock := some u }
  | link : s.thread u = .linking i mp → s.heap.deref mp = some m →
      Ran s u { s.goto u (.linked i) with
        heap := s.heap.write mp { m with next := s.head }
        head := some mp
        pushed := (mp.id, m.num) :: s.pushed }
  | linked : s.thread u = .linked i → Ran s u (s.release u (.signal i))
  | wait : s.thread u = .testing i → s.head = none → Ran s u (s.release u (.waiting i))
  | found : s.thread u = .testing i → s.head ≠ none → Ran s u (s.goto u (.found i))
  | unlink {i : Nat} {mp : Ptr} {m : Msg} : s.thread u = .found i →
      (mp.id, m.num) :: l = s.outstanding →
      Ran s u { s.goto u (.unlinked i mp) with
        head := m.next
        popped := (mp.id, m.num) :: s.popped }
  | unlinked : s.thread u = .unlinked i mp → Ran s u (s.release u (.took i mp))
  | print {i : Nat} {mp : Ptr} {m : Msg} : s.thread u = .took i mp → (mp.id, m.num) ∈ s.popped →
      Ran s u { s.goto u (.printed i mp) with output := s.output ++ [m.num] }
  | free : s.thread u = .printed i mp →
      Ran s u { s.goto u (.consume (i + 1)) with heap := s.heap.free mp }

theorem Inv.ran {s s' : St τ} (h : Inv s) (hs : s.run u = some s') : Ran s u s' := by
  have hacq {c} (hc : Locks (s.thread u) c) (hs : s.acquire u c = some s') : Ran s u s' := by
    obtain ⟨hl, rfl⟩ := of_guard hs
    exact .lock hc hl
  cases hu : s.thread u with
  | filled i mp =>
    simp only [St.run, hu] at hs
    exact hacq (hu ▸ .producer) hs
  | linking i mp =>
    obtain ⟨⟨m, hm⟩, -⟩ := h.priv u mp (by rw [hu]; rfl)
    simp only [St.run, hu, St.link, St.access, hm, Option.some.injEq] at hs
    exact hs ▸ .link hu hm
  | linked i =>
    simp only [St.run, hu, Option.some.injEq] at hs
    exact hs ▸ .linked hu
  | consume i =>
    simp only [St.run, hu, Option.ite_none_right_eq_some] at hs
    exact hacq (hu ▸ .consumer hs.1) hs.2
  | woken i =>
    simp only [St.run, hu] at hs
    exact hacq (hu ▸ .woken) hs
  | testing i =>
    simp only [St.run, hu] at hs
    split at hs
    · rename_i hh
      exact Option.some.inj hs ▸ .wait hu hh
    · rename_i hh
      exact Option.some.inj hs ▸ .found hu hh
  | found i =>
    obtain ⟨mp, m, l, hhead, hm, -, he⟩ := h.first (h.found u i hu)
    simp only [St.run, hu, St.unlink, hhead, St.access, hm, Option.some.injEq] at hs
    exact hs ▸ .unlink hu he
  | unlinked i mp =>
    simp only [St.run, hu, Option.some.injEq] at hs
    exact hs ▸ .unlinked hu
  | took i mp =>
    obtain ⟨m, hm, hp⟩ := h.held u mp (by rw [hu]; rfl)
    simp only [St.run, hu, St.access, hm, Option.some.injEq] at hs
    exact hs ▸ .print hu hp
  | printed i mp =>
    obtain ⟨m, hm, -⟩ := h.held u mp (by rw [hu]; rfl)
    simp only [St.run, hu, St.access, hm, Option.some.injEq] at hs
    exact hs ▸ .free hu
  | produce i => simp only [St.run, hu, reduceCtorEq] at hs
  | signal i => simp only [St.run, hu, reduceCtorEq] at hs
  | waiting i => simp only [St.run, hu, reduceCtorEq] at hs

/-- Linking a private node puts its entry before the outstanding ones. -/
theorem Inv.outstanding_push {s : St τ} (h : Inv s) (hu : s.thread u = .linking i mp) (n : Nat) :
    ((mp.id, n) :: s.pushed).filter (· ∉ s.popped) = (mp.id, n) :: s.outstanding := by
  obtain ⟨-, -, hnew⟩ := h.priv u mp (by rw [hu]; rfl)
  apply List.filter_cons_of_pos
  exact decide_eq_true fun hp => hnew _ (h.sub hp) rfl

/-- Each node has been filled from `rand()`. -/
def Filled (s : St τ) : Prop := ∀ p m, s.heap.deref p = some m → ∃ r, m.num = product r

theorem Filled.step [Fintype τ] {s s' : St τ} (hf : Filled s) (h : Inv s)
    (hs : Nodes.step s a = some s') : Filled s' := by
  intro p m hm
  cases a with
  | malloc u a r junk =>
    cases hu : s.thread u with
    | produce i =>
      simp only [Nodes.step, hu] at hs
      obtain ⟨-, rfl⟩ := of_guard hs
      rw [Heap.deref_eq_some] at hm
      by_cases ha : p.addr = a
      · simp only [Heap.malloc, ha, update_self, Option.some.injEq, Block.mk.injEq] at hm
        exact ⟨r, hm.2 ▸ rfl⟩
      · simp only [Heap.malloc, update_of_ne ha] at hm
        exact hf p m (Heap.deref_eq_some.2 hm)
    | _ => simp only [Nodes.step, hu, reduceCtorEq] at hs
  | run u =>
    cases h.ran hs with
    | @link i q v hu hq =>
      rw [Heap.deref_eq_some] at hm
      by_cases ha : p.addr = q.addr
      · simp only [Heap.write, ha, update_self, Option.some.injEq, Block.mk.injEq] at hm
        exact hm.2 ▸ hf q v hq
      · simp only [Heap.write, update_of_ne ha] at hm
        exact hf p m (Heap.deref_eq_some.2 hm)
    | @free i q hu =>
      rw [Heap.deref_eq_some] at hm
      by_cases ha : p.addr = q.addr
      · simp only [Heap.free, ha, update_self, reduceCtorEq] at hm
      · simp only [Heap.free, update_of_ne ha] at hm
        exact hf p m (Heap.deref_eq_some.2 hm)
    | _ => exact hf p m hm
  | signal u ws =>
    cases hu : s.thread u with
    | signal i =>
      simp only [Nodes.step, hu] at hs
      obtain ⟨-, rfl⟩ := of_guard hs
      exact hf p m hm
    | _ => simp only [Nodes.step, hu, reduceCtorEq] at hs
  | spurious u =>
    obtain ⟨-, rfl⟩ := of_guard hs
    exact hf p m hm

end Statements

/-- The section in which a thread running `producer` stands. -/
inductive InProducer : Thread → Producer → Prop
  | produce : InProducer (.produce i) (.produce i)
  | filled : i < rounds → InProducer (.filled i mp) (.produce i)
  | linking : i < rounds → InProducer (.linking i mp) (.produce i)
  | linked : InProducer (.linked i) (.signal i)
  | signal : InProducer (.signal i) (.signal i)

/-- On the way into the section, by either of its two entries. -/
def Enters (i : Nat) (c : Consumer) : Prop := c = .consume i ∧ i < rounds ∨ c = .woken i

/-- The section in which a thread running `consumer` stands; the log tells what the node that it
has taken holds. -/
inductive InConsumer (popped : List (Nat × Nat)) : Thread → Consumer → Prop
  | consume : InConsumer popped (.consume i) (.consume i)
  | waiting : InConsumer popped (.waiting i) (.waiting i)
  | woken : InConsumer popped (.woken i) (.woken i)
  | testing : Enters i c → InConsumer popped (.testing i) c
  | found : Enters i c → InConsumer popped (.found i) c
  | unlinked : (mp.id, num) ∈ popped → InConsumer popped (.unlinked i mp) (.took i num)
  | took : (mp.id, num) ∈ popped → InConsumer popped (.took i mp) (.took i num)
  | printed : InConsumer popped (.printed i mp) (.consume (i + 1))

theorem InConsumer.mono (h : InConsumer popped c d) (hp : popped ⊆ popped') :
    InConsumer popped' c d := by
  cases h with
  | consume => exact .consume
  | waiting => exact .waiting
  | woken => exact .woken
  | testing he => exact .testing he
  | found he => exact .found he
  | unlinked hm => exact .unlinked (hp hm)
  | took hm => exact .took (hp hm)
  | printed => exact .printed

theorem InConsumer.isWaiting (h : InConsumer popped c d) : c.isWaiting = d.isWaiting := by
  cases h with
  | testing he => rcases he with ⟨rfl, -⟩ | rfl <;> rfl
  | found he => rcases he with ⟨rfl, -⟩ | rfl <;> rfl
  | _ => rfl

theorem InConsumer.wake (h : InConsumer popped c d) : InConsumer popped c.wake d.wake := by
  cases h with
  | waiting => exact .woken
  | testing he =>
    have hd : d.wake = d := by rcases he with ⟨rfl, -⟩ | rfl <;> rfl
    exact hd.symm ▸ .testing he
  | found he =>
    have hd : d.wake = d := by rcases he with ⟨rfl, -⟩ | rfl <;> rfl
    exact hd.symm ▸ .found he
  | consume => exact .consume
  | woken => exact .woken
  | unlinked hp => exact .unlinked hp
  | took hp => exact .took hp
  | printed => exact .printed

theorem InProducer.isWaiting (h : InProducer c p) : c.isWaiting = false := by
  cases h <;> rfl

theorem InProducer.wake (h : InProducer c p) : c.wake = c := by
  cases h <;> rfl

theorem Enters.taken (h : Enters i c) : c.taken = 0 := by
  rcases h with ⟨rfl, -⟩ | rfl <;> rfl

theorem Enters.enter (h : Enters i c) (head : List Nat) :
    c.enter head = some (takeHead i head) := by
  rcases h with ⟨rfl, hi⟩ | rfl
  · exact if_pos hi
  · rfl

theorem Locks.inProducer (h : Locks c d) (hp : InProducer c p) : InProducer d p := by
  cases h with
  | producer =>
    cases hp with
    | filled hi => exact .linking hi
  | consumer => cases hp
  | woken => cases hp

theorem Locks.inConsumer (h : Locks c d) (hc : InConsumer popped c e) : InConsumer popped d e := by
  cases h with
  | producer => cases hc
  | consumer hi =>
    cases hc
    exact .testing (.inl ⟨rfl, hi⟩)
  | woken =>
    cases hc
    exact .testing (.inr rfl)

variable {ι κ : Type} [DecidableEq ι] [DecidableEq κ]

/-- Statements and sections side by side; what has been unlinked has been printed or is still to
be. -/
structure Matches [Fintype κ] (s : St (ι ⊕ κ)) (t : ProdCons.St ι κ) : Prop where
  head : t.head = s.outstanding.map Prod.snd
  prod : ∀ i, InProducer (s.thread (.inl i)) (t.prod i)
  cons : ∀ k, InConsumer s.popped (s.thread (.inr k)) (t.cons k)
  printed : t.printed = s.output
  taken : (s.popped.map Prod.snd : Multiset Nat) = t.printed + ∑ k, (t.cons k).taken

namespace Matches

variable [Fintype κ] {s s' : St (ι ⊕ κ)} {t : ProdCons.St ι κ}

/-- A move of a producer. -/
theorem left (h : Matches s t) (hs : s'.thread = update s.thread (.inl i) c)
    (hpop : s'.popped = s.popped) (hout : s'.output = s.output) (hc : InProducer c p)
    (hl : l = s'.outstanding.map Prod.snd) :
    Matches s' { t with prod := update t.prod i p, head := l } where
  head := hl
  prod j := by
    rw [hs]
    by_cases hj : j = i
    · subst hj
      simp only [update_self]
      exact hc
    · simp only [update_of_ne hj, update_of_ne (Sum.inl_injective.ne hj)]
      exact h.prod j
  cons k := by
    rw [hs, hpop, update_of_ne Sum.inr_ne_inl]
    exact h.cons k
  printed := h.printed.trans hout.symm
  taken := hpop ▸ h.taken

/-- A move of a consumer. -/
theorem right (h : Matches s t) (hs : s'.thread = update s.thread (.inr k) c)
    (hpop : s.popped ⊆ s'.popped) (hc : InConsumer s'.popped c d)
    (hl : l = s'.outstanding.map Prod.snd) (hout : out = s'.output)
    (htaken : (s'.popped.map Prod.snd + t.printed + (t.cons k).taken : Multiset Nat) =
      s.popped.map Prod.snd + out + d.taken) :
    Matches s' { t with cons := update t.cons k d, head := l, printed := out } where
  head := hl
  prod i := by
    rw [hs, update_of_ne Sum.inl_ne_inr]
    exact h.prod i
  cons j := by
    rw [hs]
    by_cases hj : j = k
    · subst hj
      simp only [update_self]
      exact hc
    · simp only [update_of_ne hj, update_of_ne (Sum.inr_injective.ne hj)]
      exact (h.cons j).mono hpop
  printed := hout
  taken := by
    have hsum := sum_move Consumer.taken t.cons k d
    rw [h.taken] at htaken
    apply add_right_cancel (b := (t.cons k).taken + t.printed)
    calc (s'.popped.map Prod.snd : Multiset Nat) + ((t.cons k).taken + t.printed)
        = s'.popped.map Prod.snd + t.printed + (t.cons k).taken := by
          rw [add_comm (t.cons k).taken, add_assoc]
      _ = t.printed + (∑ j, (t.cons j).taken) + out + d.taken := htaken
      _ = out + ((∑ j, (t.cons j).taken) + d.taken) + t.printed := by ac_rfl
      _ = out + ((∑ j, (update t.cons k d j).taken) + (t.cons k).taken) + t.printed := by
          rw [hsum]
      _ = out + (∑ j, (update t.cons k d j).taken) + ((t.cons k).taken + t.printed) := by ac_rfl

/-- A move inside a section. -/
theorem stay (h : Matches s t) (hs : s'.thread = update s.thread u c)
    (hpush : s'.pushed = s.pushed) (hpop : s'.popped = s.popped) (hout : s'.output = s.output)
    (hp : ∀ p, InProducer (s.thread u) p → InProducer c p)
    (hc : ∀ d, InConsumer s.popped (s.thread u) d → InConsumer s.popped c d) : Matches s' t := by
  have hhead : t.head = s'.outstanding.map Prod.snd := by
    rw [h.head, St.outstanding, St.outstanding, hpush, hpop]
  cases u with
  | inl i =>
    have hm := h.left hs hpop hout (hp _ (h.prod i)) hhead
    rwa [update_eq_self] at hm
  | inr k =>
    have hm := h.right hs (hpop ▸ List.Subset.refl _) (hpop ▸ hc _ (h.cons k)) hhead
      (h.printed.trans hout.symm) (by rw [hpop])
    rwa [update_eq_self] at hm

theorem step_push (h : (t.prod i).push r t.head = some (p, l)) :
    ProdCons.step t (.push i r) = some { t with prod := update t.prod i p, head := l } := by
  rw [ProdCons.step, h]
  rfl

theorem step_enter (h : (t.cons k).enter t.head = some (c, l)) :
    ProdCons.step t (.enter k) = some { t with cons := update t.cons k c, head := l } := by
  rw [ProdCons.step, h]
  rfl

theorem step_print (h : (t.cons k).print = some (c, num)) :
    ProdCons.step t (.print k) =
      some { t with cons := update t.cons k c, printed := t.printed ++ [num] } := by
  rw [ProdCons.step, h]
  rfl

/-- `mp->next=head; head=mp;` is where a producer's section is passed. -/
theorem link (hm : Matches s t) (h : Inv s) (hf : Filled s) (hu : s.thread u = .linking n mp)
    (hd : s.heap.deref mp = some m) : ∃ b t', ProdCons.step t b = some t' ∧
      Matches { s.goto u (.linked n) with
        heap := s.heap.write mp { m with next := s.head }
        head := some mp
        pushed := (mp.id, m.num) :: s.pushed } t' := by
  cases u with
  | inl i =>
    obtain ⟨r, hr⟩ := hf mp m hd
    have hp := hm.prod i
    rw [hu] at hp
    cases hp' : t.prod i with
    | produce n' =>
      rw [hp'] at hp
      cases hp with
      | linking hn =>
        have hpush : (t.prod i).push r t.head = some (.signal n, product r :: t.head) := by
          rw [hp']
          exact if_pos hn
        refine ⟨.push i r, _, step_push hpush, hm.left rfl rfl rfl .linked ?_⟩
        rw [hm.head, ← hr]
        exact congrArg (List.map Prod.snd) (h.outstanding_push hu m.num).symm
    | signal n' =>
      rw [hp'] at hp
      cases hp
  | inr k =>
    have hc := hm.cons k
    rw [hu] at hc
    cases hc

theorem head_eq_nil (hm : Matches s t) (h : Inv s) (hh : s.head = none) : t.head = [] := by
  obtain ⟨l, hl, hout⟩ := h.chain
  rw [hh] at hl
  cases hl
  rw [hm.head, ← hout]
  rfl

/-- `pthread_cond_wait` is where a consumer that finds nothing passes its section. -/
theorem wait (hm : Matches s t) (h : Inv s) (hu : s.thread u = .testing n) (hh : s.head = none) :
    ∃ b t', ProdCons.step t b = some t' ∧ Matches (s.release u (.waiting n)) t' := by
  cases u with
  | inl i =>
    have hp := hm.prod i
    rw [hu] at hp
    cases hp
  | inr k =>
    have hc := hm.cons k
    rw [hu] at hc
    cases hc with
    | testing he =>
      have hnil := hm.head_eq_nil h hh
      have henter : (t.cons k).enter t.head = some (.waiting n, []) := by
        rw [he.enter, hnil]
        rfl
      have htaken : (Consumer.waiting n).taken = (t.cons k).taken := he.taken.symm
      exact ⟨.enter k, _, step_enter henter,
        hm.right rfl (List.Subset.refl _) .waiting (hnil.symm.trans hm.head) hm.printed
          (by rw [htaken]; rfl)⟩

/-- `mp=head; head=mp->next;` is where one that finds a node does. -/
theorem unlink {m : Msg} (hm : Matches s t) (h : Inv s) (hu : s.thread u = .found n)
    (ho : (mp.id, m.num) :: l = s.outstanding) : ∃ b t', ProdCons.step t b = some t' ∧
      Matches { s.goto u (.unlinked n mp) with
        head := m.next
        popped := (mp.id, m.num) :: s.popped } t' := by
  cases u with
  | inl i =>
    have hp := hm.prod i
    rw [hu] at hp
    cases hp
  | inr k =>
    have hc := hm.cons k
    rw [hu] at hc
    cases hc with
    | found he =>
      have henter : (t.cons k).enter t.head = some (.took n m.num, l.map Prod.snd) := by
        rw [he.enter, hm.head, ← ho]
        rfl
      have htaken : ((m.num :: s.popped.map Prod.snd : List Nat) + t.printed + (t.cons k).taken :
          Multiset Nat) = s.popped.map Prod.snd + t.printed + {m.num} := by
        rw [he.taken, add_zero, ← Multiset.cons_coe, ← Multiset.singleton_add]
        ac_rfl
      exact ⟨.enter k, _, step_enter henter,
        hm.right rfl (List.subset_cons_self _ _) (.unlinked List.mem_cons_self)
          (congrArg (List.map Prod.snd) (h.outstanding_pop ho).symm) hm.printed htaken⟩

/-- The `printf` of what has been unlinked. -/
theorem print {m : Msg} (hm : Matches s t) (h : Inv s) (hu : s.thread u = .took n mp)
    (hp : (mp.id, m.num) ∈ s.popped) : ∃ b t', ProdCons.step t b = some t' ∧
      Matches { s.goto u (.printed n mp) with output := s.output ++ [m.num] } t' := by
  cases u with
  | inl i =>
    have hp := hm.prod i
    rw [hu] at hp
    cases hp
  | inr k =>
    have hc := hm.cons k
    rw [hu] at hc
    cases hc' : t.cons k with
    | took n' num =>
      rw [hc'] at hc
      cases hc with
      | took hnum =>
        have he := h.entry_eq (h.sub hp) (h.sub hnum) rfl
        have hprint : (t.cons k).print = some (.consume (n + 1), m.num) := by
          rw [hc', (Prod.mk.inj he).2]
          rfl
        have htaken : (s.popped.map Prod.snd + t.printed + (t.cons k).taken : Multiset Nat) =
            s.popped.map Prod.snd + (t.printed ++ [m.num] : List Nat) + 0 := by
          rw [hc', add_zero, ← Multiset.coe_add, ← add_assoc, (Prod.mk.inj he).2]
          rfl
        exact ⟨.print k, _, step_print hprint, hm.right rfl (List.Subset.refl _) .printed
          hm.head (congrArg (· ++ [m.num]) hm.printed) htaken⟩
    | _ =>
      rw [hc'] at hc
      cases hc

/-- A statement at which a section is passed, or one before or behind it. -/
theorem ran (hm : Matches s t) (h : Inv s) (hf : Filled s) (hs : Ran s u s') :
    Matches s' t ∨ ∃ b t', ProdCons.step t b = some t' ∧ Matches s' t' := by
  cases hs with
  | lock hl => exact .inl (hm.stay rfl rfl rfl rfl (fun _ => hl.inProducer) fun _ => hl.inConsumer)
  | link hu hd => exact .inr (hm.link h hf hu hd)
  | linked hu =>
    refine .inl (hm.stay rfl rfl rfl rfl ?_ ?_)
    · intro p hp
      rw [hu] at hp
      cases hp
      exact .signal
    · intro c hc
      rw [hu] at hc
      cases hc
  | wait hu hh => exact .inr (hm.wait h hu hh)
  | found hu =>
    refine .inl (hm.stay rfl rfl rfl rfl ?_ ?_)
    · intro p hp
      rw [hu] at hp
      cases hp
    · intro c hc
      rw [hu] at hc
      cases hc with
      | testing he => exact .found he
  | unlink hu ho => exact .inr (hm.unlink h hu ho)
  | unlinked hu =>
    refine .inl (hm.stay rfl rfl rfl rfl ?_ ?_)
    · intro p hp
      rw [hu] at hp
      cases hp
    · intro c hc
      rw [hu] at hc
      cases hc with
      | unlinked hp => exact .took hp
  | print hu hp => exact .inr (hm.print h hu hp)
  | free hu =>
    refine .inl (hm.stay rfl rfl rfl rfl ?_ ?_)
    · intro p hp
      rw [hu] at hp
      cases hp
    · intro c hc
      rw [hu] at hc
      cases hc
      exact .consume

theorem malloc (hm : Matches s t) (hu : s.thread u = .produce n) (hn : n < rounds)
    (hs : s'.thread = update s.thread u (.filled n mp)) (hpush : s'.pushed = s.pushed)
    (hpop : s'.popped = s.popped) (hout : s'.output = s.output) : Matches s' t := by
  apply hm.stay hs hpush hpop hout
  · intro p hp
    rw [hu] at hp
    cases hp
    exact .filled hn
  · intro c hc
    rw [hu] at hc
    cases hc

theorem wake (hm : Matches s t) (ws : Finset (ι ⊕ κ)) : Matches (s.wake ws)
    { t with cons := fun k => if k ∈ ws.toRight then (t.cons k).wake else t.cons k } where
  head := hm.head
  prod i := by
    have hp := hm.prod i
    simp only [St.wake]
    split
    · rwa [hp.wake]
    · exact hp
  cons k := by
    simp only [St.wake, Finset.mem_toRight]
    split
    · exact (hm.cons k).wake
    · exact hm.cons k
  printed := hm.printed
  taken := by
    have hw : ∀ k, (if k ∈ ws.toRight then (t.cons k).wake else t.cons k).taken =
        (t.cons k).taken := by
      intro k
      split
      · exact Consumer.wake_taken _
      · rfl
    simp only [hw]
    exact hm.taken

/-- A signal wakes consumers only. -/
theorem wakes (hm : Matches s t) (hw : Wakes s.thread ws) : ProdCons.Wakes t.cons ws.toRight := by
  constructor
  · intro k hk
    rw [← (hm.cons k).isWaiting]
    exact hw.1 _ (Finset.mem_toRight.1 hk)
  · rintro ⟨k, hk⟩
    rw [← (hm.cons k).isWaiting] at hk
    obtain ⟨u, hu⟩ := hw.2 ⟨_, hk⟩
    cases u with
    | inl i =>
      have hwait := hw.1 _ hu
      rw [(hm.prod i).isWaiting] at hwait
      cases hwait
    | inr j => exact ⟨j, Finset.mem_toRight.2 hu⟩

theorem signal (hm : Matches s t) (hu : s.thread u = .signal n)
    (hw : Wakes s.thread ws) : ∃ b t', ProdCons.step t b = some t' ∧
      Matches ((s.wake ws).goto u (.produce (n + 1))) t' := by
  cases u with
  | inl i =>
    have hp := hm.prod i
    rw [hu] at hp
    have hsig : (t.prod i).signalled = some (.produce (n + 1)) := by
      cases hp' : t.prod i with
      | produce n' =>
        rw [hp'] at hp
        cases hp
      | signal n' =>
        rw [hp'] at hp
        cases hp
        rfl
    refine ⟨.signal i ws.toRight, _, ?_, (hm.wake ws).left rfl rfl rfl .produce hm.head⟩
    rw [ProdCons.step, if_pos (hm.wakes hw), hsig]
    rfl
  | inr k =>
    have hc := hm.cons k
    rw [hu] at hc
    cases hc

theorem spurious (hm : Matches s t) (hu : (s.thread u).isWaiting) :
    ∃ b t', ProdCons.step t b = some t' ∧ Matches (s.goto u (s.thread u).wake) t' := by
  cases u with
  | inl i =>
    rw [(hm.prod i).isWaiting] at hu
    cases hu
  | inr k =>
    refine ⟨.spurious k, _, if_pos ?_, hm.right rfl (List.Subset.refl _) (hm.cons k).wake hm.head
      hm.printed (by rw [Consumer.wake_taken]; rfl)⟩
    rwa [← (hm.cons k).isWaiting]

end Matches

variable [Fintype ι] [Fintype κ]

/-- Threads that run `producer` and threads that run `consumer`. -/
def start : St (ι ⊕ κ) := begin (Sum.elim (fun _ => .produce 0) fun _ => .consume 0)

variable (ι κ) in
def pool : Sys (St (ι ⊕ κ)) (Act (ι ⊕ κ)) := ⟨(· = start), step⟩

theorem init_start : Init (start : St (ι ⊕ κ)) := by
  refine ⟨?_, rfl, rfl, rfl, rfl, rfl, rfl⟩
  rintro (i | k)
  · exact .inl rfl
  · exact .inr rfl

structure Simulated (s : St (ι ⊕ κ)) (t : ProdCons.St ι κ) : Prop extends Matches s t where
  inv : Inv s
  filled : Filled s

theorem simulates :
    (pool ι κ).Simulates (fun _ _ => True) (ProdCons.sys ι κ) Simulated where
  init := by
    rintro _ rfl
    refine ⟨_, rfl, ⟨⟨rfl, fun _ => .produce, fun _ => .consume, rfl, ?_⟩, .init init_start, ?_⟩⟩
    · change (0 : Multiset Nat) = 0 + ∑ _ : κ, 0
      rw [Finset.sum_const_zero, add_zero]
    · intro p m hm
      cases hm
  step := by
    rintro s a s' t ⟨hm, h, hf⟩ - hs
    have h' : Inv s' := h.step hs
    have hf' : Filled s' := hf.step h hs
    have hor : Matches s' t ∨ ∃ b t', ProdCons.step t b = some t' ∧ Matches s' t' := by
      cases a with
      | malloc u a r junk =>
        cases hu : s.thread u with
        | produce n =>
          simp only [pool, step, hu] at hs
          obtain ⟨⟨hn, -⟩, rfl⟩ := of_guard hs
          exact .inl (hm.malloc hu hn rfl rfl rfl rfl)
        | _ => simp only [pool, step, hu, reduceCtorEq] at hs
      | run u => exact hm.ran h hf (h.ran hs)
      | signal u ws =>
        cases hu : s.thread u with
        | signal n =>
          simp only [pool, step, hu] at hs
          obtain ⟨hw, rfl⟩ := of_guard hs
          exact .inr (hm.signal hu hw)
        | _ => simp only [pool, step, hu, reduceCtorEq] at hs
      | spurious u =>
        obtain ⟨hu, rfl⟩ := of_guard hs
        exact .inr (hm.spurious hu)
    rcases hor with hm | ⟨b, t', hb, hm⟩
    · exact .inl ⟨hm, h', hf'⟩
    · exact .inr ⟨b, t', hb, hm, h', hf'⟩

/-- Whatever the statements do in any order, the sections do one after the other: the chain holds
what the list does, every thread is in its section, and the same is printed. What has been
unlinked is printed once. -/
theorem nodes_refine {s : St (ι ⊕ κ)} (h : (pool ι κ).Reachable s) :
    ∃ t, (ProdCons.sys ι κ).Reachable t ∧ Matches s t ∧
      ∃ l, Heap.Chain Msg.next s.heap s.head l ∧ (l.map fun e => e.2.num) = t.head := by
  obtain ⟨t, ht, hm, hI, -⟩ := simulates.reachable h
  obtain ⟨l, hl, hout⟩ := hI.chain
  refine ⟨t, ht, hm, l, hl, ?_⟩
  rw [hm.head, ← hout, List.map_map]
  rfl

/-- One node is linked, and the consumer is about to print it. -/
def handover : List (Act (Fin 1 ⊕ Fin 1)) :=
  [Act.malloc (.inl 0) 7 41 none] ++ List.replicate 3 (Act.run (.inl 0)) ++
    List.replicate 5 (Act.run (.inr 0))

theorem nodes_refine_handover : ∃ s t, (pool (Fin 1) (Fin 1)).run handover start = some s ∧
    (ProdCons.sys (Fin 1) (Fin 1)).Reachable t ∧ Matches s t := by
  obtain ⟨s, hs⟩ : ∃ s, (pool (Fin 1) (Fin 1)).run handover start = some s :=
    Option.isSome_iff_exists.1 (by decide)
  obtain ⟨t, ht, hm, -⟩ := nodes_refine (.of_run rfl hs)
  exact ⟨s, t, hs, ht, hm⟩

end LinuxIpc.ProdCons.Nodes
