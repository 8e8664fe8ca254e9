import LinuxIpc.ProdCons.Nodes

namespace LinuxIpc.ProdCons.Nodes
set_option autoImplicit true
set_option linter.unusedSectionVars false

open Function (update)

variable {τ : Type} [DecidableEq τ]

/-- The node a producer has filled and not linked yet. -/
def Thread.priv : Thread → Option Ptr
  | .filled _ mp | .linking _ mp => some mp
  | _ => none

/-- The node a consumer has unlinked and not freed yet. -/
def Thread.held : Thread → Option Ptr
  | .unlinked _ mp | .took _ mp | .printed _ mp => some mp
  | _ => none

def Thread.holds : Thread → Bool
  | .linking .. | .linked _ | .testing _ | .found _ | .unlinked .. => true
  | _ => false

def entry (e : Ptr × Msg) : Nat × Nat := (e.1.id, e.2.num)

/-- What was linked and not unlinked yet, the latest first. -/
def St.outstanding (s : St τ) : List (Nat × Nat) := s.pushed.filter (· ∉ s.popped)

/-- Every allocation has one place: private to a producer, on the chain, or held by the consumer
that unlinked it. -/
structure Inv (s : St τ) : Prop where
  chain : ∃ l, Heap.Chain Msg.next s.heap s.head l ∧ l.map entry = s.outstanding
  pushed : (s.pushed.map Prod.fst).Nodup
  popped : s.popped.Nodup
  sub : s.popped ⊆ s.pushed
  fresh : ∀ e ∈ s.pushed, e.1 < s.fresh
  priv : ∀ t p, (s.thread t).priv = some p →
    (∃ m, s.heap.deref p = some m) ∧ p.id < s.fresh ∧ ∀ e ∈ s.pushed, e.1 ≠ p.id
  held : ∀ t p, (s.thread t).held = some p →
    ∃ m, s.heap.deref p = some m ∧ (p.id, m.num) ∈ s.popped
  priv_inj : ∀ t u p q, (s.thread t).priv = some p → (s.thread u).priv = some q →
    p.id = q.id → t = u
  held_inj : ∀ t u p q, (s.thread t).held = some p → (s.thread u).held = some q →
    p.id = q.id → t = u
  lock : ∀ t, (s.thread t).holds → s.lock = some t
  found : ∀ t i, s.thread t = .found i → s.head ≠ none
  fault : s.fault = false

theorem Inv.init {s : St τ} (h : Init s) : Inv s := by
  obtain ⟨ht, hheap, hhead, hlock, hpush, hpop, hfault⟩ := h
  have hpriv t : (s.thread t).priv = none := by rcases ht t with ht | ht <;> rw [ht] <;> rfl
  have hheld t : (s.thread t).held = none := by rcases ht t with ht | ht <;> rw [ht] <;> rfl
  constructor
  case chain =>
    rw [hhead, St.outstanding, hpush]
    exact ⟨[], .nil, rfl⟩
  case pushed =>
    rw [hpush]
    exact List.nodup_nil
  case popped =>
    rw [hpop]
    exact List.nodup_nil
  case sub =>
    rw [hpop]
    exact List.nil_subset _
  case fresh =>
    rw [hpush]
    nofun
  case priv =>
    intro t p hp
    rw [hpriv t] at hp
    cases hp
  case held =>
    intro t p hp
    rw [hheld t] at hp
    cases hp
  case priv_inj =>
    intro t u p q hp
    rw [hpriv t] at hp
    cases hp
  case held_inj =>
    intro t u p q hp
    rw [hheld t] at hp
    cases hp
  case lock =>
    intro t hh
    rcases ht t with ht | ht <;> rw [ht] at hh <;> cases hh
  case found =>
    intro t i hi
    rcases ht t with ht | ht <;> rw [ht] at hi <;> cases hi
  case fault => exact hfault

/-- Two log entries of one allocation are the same entry. -/
theorem Inv.entry_eq {s : St τ} (h : Inv s) (he : e ∈ s.pushed) (he' : e' ∈ s.pushed)
    (hid : e.1 = e'.1) : e = e' :=
  List.inj_on_of_nodup_map h.pushed he he' hid

theorem mem_outstanding {s : St τ} {l : List (Ptr × Msg)} (hl : l.map entry = s.outstanding)
    (he : (p, m) ∈ l) : (p.id, m.num) ∈ s.pushed ∧ (p.id, m.num) ∉ s.popped := by
  have hm : (p.id, m.num) ∈ s.outstanding := hl ▸ List.mem_map.2 ⟨(p, m), he, rfl⟩
  have hf := List.mem_filter.1 hm
  exact ⟨hf.1, of_decide_eq_true hf.2⟩

/-- A move that takes over no node leaves the owner of each node as it was. -/
theorem owner_of_update {f : τ → Thread} (g : Thread → Option Ptr)
    (hc : g c = none ∨ g c = g (f t)) (h : g (update f t c u) = some p) : g (f u) = some p := by
  by_cases hu : u = t
  · subst hu
    rw [Function.update_self] at h
    rcases hc with hc | hc
    · rw [hc] at h; cases h
    · exact hc ▸ h
  · rwa [Function.update_of_ne hu] at h

/-- Nor does it give one node two owners. -/
theorem owner_inj_of_update {f : τ → Thread} (g : Thread → Option Ptr)
    (hc : g c = none ∨ g c = g (f t))
    (hf : ∀ u v p q, g (f u) = some p → g (f v) = some q → p.id = q.id → u = v) (u v : τ)
    (p q : Ptr) (hu : g (update f t c u) = some p) (hv : g (update f t c v) = some q) :
    p.id = q.id → u = v :=
  hf u v p q (owner_of_update g hc hu) (owner_of_update g hc hv)

theorem found_of_update {f : τ → Thread} (h : update f t c u = .found i) :
    c = .found i ∨ f u = .found i := by
  by_cases hu : u = t
  · subst hu; rw [Function.update_self] at h; exact .inl h
  · rw [Function.update_of_ne hu] at h; exact .inr h

/-- A thread walks on with the nodes it has, and the lock follows. -/
theorem Inv.move {s : St τ} (h : Inv s) (hp : c.priv = none ∨ c.priv = (s.thread t).priv)
    (hh : c.held = none ∨ c.held = (s.thread t).held)
    (hl : ∀ u, (update s.thread t c u).holds → l = some u)
    (hf : ∀ i, c = .found i → s.head ≠ none) : Inv { s.goto t c with lock := l, output := o } where
  chain := h.chain
  pushed := h.pushed
  popped := h.popped
  sub := h.sub
  fresh := h.fresh
  priv u p hu := h.priv u p (owner_of_update Thread.priv hp hu)
  held u p hu := h.held u p (owner_of_update Thread.held hh hu)
  priv_inj := owner_inj_of_update Thread.priv hp h.priv_inj
  held_inj := owner_inj_of_update Thread.held hh h.held_inj
  lock := hl
  found u i hu := (found_of_update hu).elim (hf i) (h.found u i)
  fault := h.fault

theorem holds_of_update {f : τ → Thread} (h : (update f t c u).holds) :
    u = t ∧ c.holds ∨ u ≠ t ∧ (f u).holds := by
  by_cases hu : u = t
  · subst hu; rw [Function.update_self] at h; exact .inl ⟨rfl, h⟩
  · rw [Function.update_of_ne hu] at h; exact .inr ⟨hu, h⟩

theorem Inv.acquire {s s' : St τ} (h : Inv s) (hs : s.acquire t c = some s')
    (hp : c.priv = none ∨ c.priv = (s.thread t).priv)
    (hh : c.held = none ∨ c.held = (s.thread t).held)
    (hf : ∀ i, c = .found i → s.head ≠ none) : Inv s' := by
  simp only [St.acquire, Option.ite_none_right_eq_some, Option.some.injEq] at hs
  obtain ⟨hl, rfl⟩ := hs
  refine h.move (o := s.output) hp hh (fun u hu => ?_) hf
  rcases holds_of_update hu with ⟨rfl, _⟩ | ⟨_, hu⟩
  · rfl
  · have := h.lock u hu
    rw [hl] at this
    cases this

theorem Inv.release {s : St τ} (h : Inv s) (ht : (s.thread t).holds) (hc : c.holds = false)
    (hp : c.priv = none ∨ c.priv = (s.thread t).priv)
    (hh : c.held = none ∨ c.held = (s.thread t).held) : Inv (s.release t c) := by
  refine h.move (o := s.output) hp hh (fun u hu => ?_) fun i hi => ?_
  · rcases holds_of_update hu with ⟨_, ht'⟩ | ⟨hne, hu⟩
    · rw [hc] at ht'; cases ht'
    · have := (h.lock t ht).symm.trans (h.lock u hu)
      exact (hne (Option.some.inj this).symm).elim
  · rw [hi] at hc; cases hc

/-- A thread that keeps the lock, or goes on without it, does not move it. -/
theorem Inv.holds_keep {s : St τ} (h : Inv s) (hc : c.holds → (s.thread t).holds) :
    ∀ u, (update s.thread t c u).holds → s.lock = some u := by
  intro u hu
  rcases holds_of_update hu with ⟨rfl, hu'⟩ | ⟨_, hu⟩
  · exact h.lock u (hc hu')
  · exact h.lock u hu

/-- `malloc` gives out an address that no live pointer has. -/
theorem Inv.malloc {s : St τ} (h : Inv s) (ha : s.heap a = none)
    (ht : s.thread t = .produce i) : Inv { s.goto t (.filled i ⟨a, s.fresh⟩) with
      heap := s.heap.malloc a s.fresh m
      fresh := s.fresh + 1 } := by
  have hnew {u p} (hu : (update s.thread t (.filled i ⟨a, s.fresh⟩) u).priv = some p) :
      u = t ∧ p = ⟨a, s.fresh⟩ ∨ (s.thread u).priv = some p := by
    by_cases he : u = t
    · subst he; rw [Function.update_self] at hu; cases hu; exact .inl ⟨rfl, rfl⟩
    · rw [Function.update_of_ne he] at hu; exact .inr hu
  have hheld : (Thread.filled i ⟨a, s.fresh⟩).held = none ∨
    (Thread.filled i ⟨a, s.fresh⟩).held = (s.thread t).held := .inl rfl
  obtain ⟨l, hl, he⟩ := h.chain
  exact { h with
    chain := ⟨l, hl.frame fun p v hm => Heap.deref_malloc ha (hl.deref hm) _ _, he⟩
    fresh := fun e he => Nat.lt_succ_of_lt (h.fresh e he)
    priv := by
      intro u p hu
      rcases hnew hu with ⟨rfl, rfl⟩ | hu
      · exact ⟨⟨m, Heap.deref_malloc_self ..⟩, Nat.lt_succ_self _,
          fun e he => Nat.ne_of_lt (h.fresh e he)⟩
      · obtain ⟨⟨v, hv⟩, hlt, hne⟩ := h.priv u p hu
        exact ⟨⟨v, Heap.deref_malloc ha hv _ _⟩, Nat.lt_succ_of_lt hlt, hne⟩
    held := by
      intro u p hu
      obtain ⟨v, hv, hm⟩ := h.held u p (owner_of_update Thread.held hheld hu)
      exact ⟨v, Heap.deref_malloc ha hv _ _, hm⟩
    priv_inj := by
      intro u v p q hu hv hid
      rcases hnew hu with ⟨rfl, rfl⟩ | hu' <;> rcases hnew hv with ⟨rfl, rfl⟩ | hv'
      · rfl
      · exact (Nat.ne_of_lt (h.priv v q hv').2.1 hid.symm).elim
      · exact (Nat.ne_of_lt (h.priv u p hu').2.1 hid).elim
      · exact h.priv_inj u v p q hu' hv' hid
    held_inj := owner_inj_of_update Thread.held hheld h.held_inj
    lock := h.holds_keep nofun
    found := fun u j hu => (found_of_update hu).elim nofun (h.found u j) }

theorem Inv.link {s : St τ} (h : Inv s) (ht : s.thread t = .linking i mp) :
    Inv (s.link t i mp) := by
  have hmp : (s.thread t).priv = some mp := by rw [ht]; rfl
  obtain ⟨⟨m, hm⟩, hlt, hnew⟩ := h.priv t mp hmp
  have hpriv : (Thread.linked i).priv = none ∨
    (Thread.linked i).priv = (s.thread t).priv := .inl rfl
  have hheld : (Thread.linked i).held = none ∨
    (Thread.linked i).held = (s.thread t).held := .inl rfl
  have hpop : (mp.id, m.num) ∉ s.popped := fun hp => hnew _ (h.sub hp) rfl
  obtain ⟨l, hl, he⟩ := h.chain
  have hframe p v (hpv : s.heap.deref p = some v) (hne : p.id ≠ mp.id) :
      (s.heap.write mp { m with next := s.head }).deref p = some v :=
    Heap.deref_write hm hpv fun he => hne (he ▸ rfl)
  have heq : s.link t i mp = { s.goto t (.linked i) with
      heap := s.heap.write mp { m with next := s.head }
      head := some mp
      pushed := (mp.id, m.num) :: s.pushed } := by simp only [St.link, St.access, hm]
  rw [heq]
  exact { h with
    chain := by
      refine ⟨(mp, { m with next := s.head }) :: l, .cons (Heap.deref_write_self ..) ?_, ?_⟩
      · apply hl.frame
        intro p v hpv
        exact hframe p v (hl.deref hpv) (hnew _ (mem_outstanding he hpv).1)
      · have hf := List.filter_cons_of_pos (p := (· ∉ s.popped)) (l := s.pushed)
          (decide_eq_true hpop)
        exact (congrArg _ he).trans hf.symm
    pushed := by
      apply List.nodup_cons.2
      apply And.intro ?_ h.pushed
      intro hm
      obtain ⟨e, he, hid⟩ := List.mem_map.1 hm
      exact hnew e he hid
    sub := fun e he => List.mem_cons_of_mem _ (h.sub he)
    fresh := by
      intro e he
      rcases List.mem_cons.1 he with rfl | he
      · exact hlt
      · exact h.fresh e he
    priv := by
      intro u p hu
      have hu' := owner_of_update Thread.priv hpriv hu
      obtain ⟨⟨v, hv⟩, hlt', hnew'⟩ := h.priv u p hu'
      have hne : p.id ≠ mp.id := by
        intro hid
        have hut := h.priv_inj u t p mp hu' hmp hid
        subst hut
        simp only [St.goto, Function.update_self] at hu
        cases hu
      refine ⟨⟨v, hframe p v hv hne⟩, hlt', ?_⟩
      intro e he
      rcases List.mem_cons.1 he with rfl | he
      · exact hne.symm
      · exact hnew' e he
    held := by
      intro u p hu
      obtain ⟨v, hv, hpv⟩ := h.held u p (owner_of_update Thread.held hheld hu)
      exact ⟨v, hframe p v hv (hnew _ (h.sub hpv)), hpv⟩
    priv_inj := owner_inj_of_update Thread.priv hpriv h.priv_inj
    held_inj := owner_inj_of_update Thread.held hheld h.held_inj
    lock := by
      apply h.holds_keep
      intro _
      rw [ht]
      rfl
    found := nofun }

/-- The chain from a pointer that is not NULL gives its first node. -/
theorem Inv.first {s : St τ} (h : Inv s) (hh : s.head ≠ none) :
    ∃ mp m l, s.head = some mp ∧ s.heap.deref mp = some m ∧
      Heap.Chain Msg.next s.heap m.next l ∧ (mp.id, m.num) :: l.map entry = s.outstanding := by
  obtain ⟨l, hl, he⟩ := h.chain
  cases hhead : s.head with
  | none => exact (hh hhead).elim
  | some mp =>
    rw [hhead] at hl
    cases hl with
    | cons hm hl => exact ⟨mp, _, _, rfl, hm, hl, he⟩

/-- Unlinking the first node takes the latest outstanding entry off the log. -/
theorem Inv.outstanding_pop {s : St τ} (h : Inv s) (he : e :: l = s.outstanding) :
    s.pushed.filter (· ∉ e :: s.popped) = l := by
  have hn : (e :: l).Nodup := he ▸ h.pushed.of_map.filter _
  have hcomm : s.pushed.filter (· ∉ e :: s.popped) = s.outstanding.filter (· ≠ e) := by
    rw [St.outstanding, List.filter_filter]
    apply List.filter_congr
    intro x _
    simp only [List.mem_cons, not_or, ne_eq, Bool.decide_and]
  have hrest : ∀ x ∈ l, decide (x ≠ e) = true := fun x hx =>
    decide_eq_true fun hxe => (List.nodup_cons.1 hn).1 (hxe ▸ hx)
  rw [hcomm, ← he, List.filter_cons_of_neg (by simp), List.filter_eq_self.2 hrest]

theorem Inv.unlink {s : St τ} (h : Inv s) (ht : s.thread t = .found i) : Inv (s.unlink t i) := by
  obtain ⟨mp, m, l, hhead, hm, hl, he⟩ := h.first (h.found t i ht)
  have hmem := List.mem_filter.1 (he ▸ List.mem_cons_self : (mp.id, m.num) ∈ s.outstanding)
  have hpriv : (Thread.unlinked i mp).priv = none ∨
    (Thread.unlinked i mp).priv = (s.thread t).priv := .inl rfl
  have hheld {u p} (hu : (update s.thread t (.unlinked i mp) u).held = some p) :
      u = t ∧ p = mp ∨ (s.thread u).held = some p := by
    by_cases hut : u = t
    · subst hut; rw [Function.update_self] at hu; cases hu; exact .inl ⟨rfl, rfl⟩
    · rw [Function.update_of_ne hut] at hu; exact .inr hu
  have hother {u p} (hu : (s.thread u).held = some p) : p.id ≠ mp.id := by
    intro hid
    obtain ⟨v, _, hp⟩ := h.held u p hu
    have heq := h.entry_eq (h.sub hp) hmem.1 hid
    exact of_decide_eq_true hmem.2 (heq ▸ hp)
  have heq : s.unlink t i = { s.goto t (.unlinked i mp) with
      head := m.next
      popped := (mp.id, m.num) :: s.popped } := by simp only [St.unlink, St.access, hhead, hm]
  rw [heq]
  exact { h with
    chain := ⟨l, hl, (h.outstanding_pop he).symm⟩
    popped := List.nodup_cons.2 ⟨of_decide_eq_true hmem.2, h.popped⟩
    sub := List.cons_subset.2 ⟨hmem.1, h.sub⟩
    priv := fun u p hu => h.priv u p (owner_of_update Thread.priv hpriv hu)
    held := by
      intro u p hu
      rcases hheld hu with ⟨_, rfl⟩ | hu
      · exact ⟨m, hm, List.mem_cons_self ..⟩
      · obtain ⟨v, hv, hp⟩ := h.held u p hu
        exact ⟨v, hv, List.mem_cons_of_mem _ hp⟩
    priv_inj := owner_inj_of_update Thread.priv hpriv h.priv_inj
    held_inj := by
      intro u v p q hu hv hid
      rcases hheld hu with ⟨hut, rfl⟩ | hu' <;> rcases hheld hv with ⟨hvt, rfl⟩ | hv'
      · exact hut.trans hvt.symm
      · exact (hother hv' hid.symm).elim
      · exact (hother hu' hid).elim
      · exact h.held_inj u v p q hu' hv' hid
    lock := by
      apply h.holds_keep
      intro _
      rw [ht]
      rfl
    found := by
      -- another thread at `found` would hold the lock as well
      intro u j hu
      rcases found_of_update hu with hu' | hu'
      · cases hu'
      · have hlu := h.lock u (by rw [hu']; rfl)
        have hlt := h.lock t (by rw [ht]; rfl)
        have hut : u = t := Option.some.inj (hlu.symm.trans hlt)
        subst hut
        simp only [St.goto, Function.update_self] at hu
        cases hu }

theorem Inv.free {s : St τ} (h : Inv s) (ht : s.thread t = .printed i mp) :
    Inv { s.goto t (.consume (i + 1)) with heap := s.heap.free mp } := by
  have hmp : (s.thread t).held = some mp := by rw [ht]; rfl
  obtain ⟨m, hm, hpop⟩ := h.held t mp hmp
  have hpriv : (Thread.consume (i + 1)).priv = none ∨
    (Thread.consume (i + 1)).priv = (s.thread t).priv := .inl rfl
  have hheld : (Thread.consume (i + 1)).held = none ∨
    (Thread.consume (i + 1)).held = (s.thread t).held := .inl rfl
  have hframe {p v} (hp : s.heap.deref p = some v) (hne : p.id ≠ mp.id) :
      (s.heap.free mp).deref p = some v := Heap.deref_free hm hp fun he => hne (he ▸ rfl)
  obtain ⟨l, hl, he⟩ := h.chain
  exact { h with
    chain := by
      refine ⟨l, hl.frame ?_, he⟩
      intro p v hpv
      apply hframe (hl.deref hpv)
      intro hid
      have hin := mem_outstanding he hpv
      exact hin.2 (h.entry_eq hin.1 (h.sub hpop) hid ▸ hpop)
    priv := by
      intro u p hu
      obtain ⟨⟨v, hv⟩, hlt, hne⟩ := h.priv u p (owner_of_update Thread.priv hpriv hu)
      exact ⟨⟨v, hframe hv (hne _ (h.sub hpop)).symm⟩, hlt, hne⟩
    held := by
      intro u p hu
      have hu' := owner_of_update Thread.held hheld hu
      obtain ⟨v, hv, hp⟩ := h.held u p hu'
      have hne : p.id ≠ mp.id := by
        intro hid
        have hut := h.held_inj u t p mp hu' hmp hid
        subst hut
        simp only [St.goto, Function.update_self] at hu
        cases hu
      exact ⟨v, hframe hv hne, hp⟩
    priv_inj := owner_inj_of_update Thread.priv hpriv h.priv_inj
    held_inj := owner_inj_of_update Thread.held hheld h.held_inj
    lock := h.holds_keep nofun
    found := fun u j hu => (found_of_update hu).elim nofun (h.found u j) }

theorem Thread.wake_priv (c : Thread) : c.wake.priv = c.priv := by cases c <;> rfl

theorem Thread.wake_held (c : Thread) : c.wake.held = c.held := by cases c <;> rfl

theorem Thread.wake_holds (c : Thread) : c.wake.holds = c.holds := by cases c <;> rfl

theorem Thread.wake_found {c : Thread} (h : c.wake = .found i) : c = .found i := by
  cases c <;> first | exact h | cases h

/-- Waking threads moves no node and no lock. -/
theorem Inv.wake {s : St τ} (h : Inv s) (ws : Finset τ) : Inv (s.wake ws) := by
  have hp t : ((s.wake ws).thread t).priv = (s.thread t).priv := by
    simp only [St.wake]; split
    · exact Thread.wake_priv _
    · rfl
  have hh t : ((s.wake ws).thread t).held = (s.thread t).held := by
    simp only [St.wake]; split
    · exact Thread.wake_held _
    · rfl
  have hl t : ((s.wake ws).thread t).holds = (s.thread t).holds := by
    simp only [St.wake]; split
    · exact Thread.wake_holds _
    · rfl
  have hf t i (ht : (s.wake ws).thread t = .found i) : s.thread t = .found i := by
    simp only [St.wake] at ht; split at ht
    · exact Thread.wake_found ht
    · exact ht
  exact { h with
    priv := fun t p ht => h.priv t p (hp t ▸ ht)
    held := fun t p ht => h.held t p (hh t ▸ ht)
    priv_inj := fun t u p q ht hu => h.priv_inj t u p q (hp t ▸ ht) (hp u ▸ hu)
    held_inj := fun t u p q ht hu => h.held_inj t u p q (hh t ▸ ht) (hh u ▸ hu)
    lock := fun t ht => h.lock t (hl t ▸ ht)
    found := fun t i ht => h.found t i (hf t i ht) }

/-- A move without the lock that takes over no node. -/
theorem Inv.goto {s : St τ} (h : Inv s) (hp : c.priv = none ∨ c.priv = (s.thread t).priv)
    (hh : c.held = none ∨ c.held = (s.thread t).held) (hl : c.holds → (s.thread t).holds)
    (hf : ∀ i, c = .found i → s.head ≠ none) : Inv (s.goto t c) :=
  h.move (o := s.output) hp hh (h.holds_keep hl) hf

theorem Inv.run {s s' : St τ} (h : Inv s) (hs : s.run t = some s') : Inv s' := by
  cases ht : s.thread t with
  | filled i mp =>
    simp only [St.run, ht] at hs
    exact h.acquire hs (.inr (by rw [ht]; rfl)) (.inl rfl) nofun
  | linking i mp =>
    simp only [St.run, ht, Option.some.injEq] at hs
    exact hs ▸ h.link ht
  | linked i =>
    simp only [St.run, ht, Option.some.injEq] at hs
    exact hs ▸ h.release (by rw [ht]; rfl) rfl (.inl rfl) (.inl rfl)
  | consume i =>
    simp only [St.run, ht, Option.ite_none_right_eq_some] at hs
    exact h.acquire hs.2 (.inl rfl) (.inl rfl) nofun
  | woken i =>
    simp only [St.run, ht] at hs
    exact h.acquire hs (.inl rfl) (.inl rfl) nofun
  | testing i =>
    simp only [St.run, ht] at hs
    split at hs
    · cases hs
      exact h.release (by rw [ht]; rfl) rfl (.inl rfl) (.inl rfl)
    · cases hs
      exact h.goto (.inl rfl) (.inl rfl) (fun _ => by rw [ht]; rfl) fun _ _ => ‹_›
  | found i =>
    simp only [St.run, ht, Option.some.injEq] at hs
    exact hs ▸ h.unlink ht
  | unlinked i mp =>
    simp only [St.run, ht, Option.some.injEq] at hs
    exact hs ▸ h.release (by rw [ht]; rfl) rfl (.inl rfl) (.inr (by rw [ht]; rfl))
  | took i mp =>
    obtain ⟨m, hm, _⟩ := h.held t mp (by rw [ht]; rfl)
    simp only [St.run, ht, St.access, hm, Option.some.injEq] at hs
    exact hs ▸ h.move (.inl rfl) (.inr (by rw [ht]; rfl)) (h.holds_keep nofun) nofun
  | printed i mp =>
    obtain ⟨m, hm, _⟩ := h.held t mp (by rw [ht]; rfl)
    simp only [St.run, ht, St.access, hm, Option.some.injEq] at hs
    exact hs ▸ h.free ht
  | produce i => simp only [St.run, ht, reduceCtorEq] at hs
  | signal i => simp only [St.run, ht, reduceCtorEq] at hs
  | waiting i => simp only [St.run, ht, reduceCtorEq] at hs

theorem Inv.step [Fintype τ] {s s' : St τ} (h : Inv s) (hs : Nodes.step s a = some s') :
    Inv s' := by
  cases a with
  | malloc t a r junk =>
    cases ht : s.thread t with
    | produce i =>
      simp only [Nodes.step, ht, Option.ite_none_right_eq_some, Option.some.injEq] at hs
      exact hs.2 ▸ h.malloc hs.1.2 ht
    | _ => simp only [Nodes.step, ht, reduceCtorEq] at hs
  | run t => exact h.run hs
  | signal t ws =>
    cases ht : s.thread t with
    | signal i =>
      simp only [Nodes.step, ht, Option.ite_none_right_eq_some, Option.some.injEq] at hs
      exact hs.2 ▸ (h.wake ws).goto (.inl rfl) (.inl rfl) nofun nofun
    | _ => simp only [Nodes.step, ht, reduceCtorEq] at hs
  | spurious t =>
    simp only [Nodes.step, Option.ite_none_right_eq_some, Option.some.injEq] at hs
    refine hs.2 ▸ h.goto (.inr (Thread.wake_priv _)) (.inr (Thread.wake_held _))
      (fun hl => Thread.wake_holds _ ▸ hl) fun i hi => h.found t i (Thread.wake_found hi)

theorem inv_of_reachable [Fintype τ] {s : St τ} (h : (sys τ).Reachable s) : Inv s :=
  h.invariant (fun _ hs => .init hs) fun _ _ _ hI _ hs => hI.step hs

/-- A statement unlinks nothing, or it unlinks the latest outstanding node. -/
theorem Inv.popped_run {s s' : St τ} (h : Inv s) (hs : s.run t = some s') :
    s'.popped = s.popped ∨ ∃ e l, s.outstanding = e :: l ∧ s'.popped = e :: s.popped := by
  have hacq {c} (hs : s.acquire t c = some s') : s'.popped = s.popped := by
    simp only [St.acquire, Option.ite_none_right_eq_some, Option.some.injEq] at hs
    exact hs.2 ▸ rfl
  have hacc {p} {k : Msg → St τ} (hk : ∀ m, (k m).popped = s.popped) :
      (s.access p k).popped = s.popped := by
    unfold St.access
    split
    · exact hk _
    · rfl
  cases ht : s.thread t with
  | found i =>
    obtain ⟨mp, m, l, hhead, hm, _, he⟩ := h.first (h.found t i ht)
    simp only [St.run, ht, St.unlink, hhead, St.access, hm, Option.some.injEq] at hs
    exact .inr ⟨_, _, he.symm, hs ▸ rfl⟩
  | filled i mp => simp only [St.run, ht] at hs; exact .inl (hacq hs)
  | consume i => simp only [St.run, ht, Option.ite_none_right_eq_some] at hs; exact .inl (hacq hs.2)
  | woken i => simp only [St.run, ht] at hs; exact .inl (hacq hs)
  | linking i mp =>
    simp only [St.run, ht, Option.some.injEq] at hs
    exact .inl (hs ▸ hacc fun _ => rfl)
  | took i mp =>
    simp only [St.run, ht, Option.some.injEq] at hs
    exact .inl (hs ▸ hacc fun _ => rfl)
  | printed i mp =>
    simp only [St.run, ht, Option.some.injEq] at hs
    exact .inl (hs ▸ hacc fun _ => rfl)
  | testing i =>
    simp only [St.run, ht] at hs
    split at hs <;> cases hs <;> exact .inl rfl
  | linked i => simp only [St.run, ht, Option.some.injEq] at hs; exact .inl (hs ▸ rfl)
  | unlinked i mp => simp only [St.run, ht, Option.some.injEq] at hs; exact .inl (hs ▸ rfl)
  | produce i => simp only [St.run, ht, reduceCtorEq] at hs
  | signal i => simp only [St.run, ht, reduceCtorEq] at hs
  | waiting i => simp only [St.run, ht, reduceCtorEq] at hs

theorem Inv.popped_step [Fintype τ] {s s' : St τ} (h : Inv s) (hs : Nodes.step s a = some s') :
    s'.popped = s.popped ∨ ∃ e l, s.outstanding = e :: l ∧ s'.popped = e :: s.popped := by
  cases a with
  | malloc t a r junk =>
    cases ht : s.thread t with
    | produce i =>
      simp only [Nodes.step, ht, Option.ite_none_right_eq_some, Option.some.injEq] at hs
      exact .inl (hs.2 ▸ rfl)
    | _ => simp only [Nodes.step, ht, reduceCtorEq] at hs
  | run t => exact h.popped_run hs
  | signal t ws =>
    cases ht : s.thread t with
    | signal i =>
      simp only [Nodes.step, ht, Option.ite_none_right_eq_some, Option.some.injEq] at hs
      exact .inl (hs.2 ▸ rfl)
    | _ => simp only [Nodes.step, ht, reduceCtorEq] at hs
  | spurious t =>
    simp only [Nodes.step, Option.ite_none_right_eq_some, Option.some.injEq] at hs
    exact .inl (hs.2 ▸ rfl)

/-- What was linked is outstanding or was unlinked. -/
theorem Inv.pushed_perm {s : St τ} (h : Inv s) : s.pushed.Perm (s.outstanding ++ s.popped) := by
  have hp : (s.pushed.filter fun e => !decide (e ∉ s.popped)).Perm s.popped := by
    refine (List.perm_ext_iff_of_nodup (h.pushed.of_map.filter _) h.popped).2 fun e => ?_
    simp only [List.mem_filter, decide_not, Bool.not_not, decide_eq_true_eq]
    exact ⟨fun he => he.2, fun he => ⟨h.sub he, he⟩⟩
  exact (List.filter_append_perm _ s.pushed).symm.trans (hp.append_left _)

/-- The shared chain and the nodes around it, as one wants to find them in any state. -/
structure Safe [Fintype τ] (s : St τ) : Prop where
  /-- No access went through a pointer whose allocation was freed, even one whose address had been
  given out again; so no node was freed twice either. -/
  no_fault : s.fault = false
  popped_once : (s.popped.map Prod.fst).Nodup ∧ s.popped ⊆ s.pushed
  chain : ∃ l, Heap.Chain Msg.next s.heap s.head l ∧ (l.map fun e => e.1.addr).Nodup ∧
    (∀ e ∈ l, (s.heap e.1.addr).isSome ∧
      ∀ t p, (s.thread t).held = some p → p.addr ≠ e.1.addr) ∧
    (s.pushed.map Prod.snd : Multiset Nat) = l.map (fun e => e.2.num) + s.popped.map Prod.snd
  lifo : ∀ a s', Nodes.step s a = some s' →
    s'.popped = s.popped ∨ ∃ e l, s.outstanding = e :: l ∧ s'.popped = e :: s.popped

theorem Inv.safe [Fintype τ] {s : St τ} (h : Inv s) : Safe s := by
  refine ⟨h.fault, ⟨?_, h.sub⟩, ?_, fun a s' hs => h.popped_step hs⟩
  · exact List.Nodup.map_on (fun e he e' he' => h.entry_eq (h.sub he) (h.sub he')) h.popped
  · obtain ⟨l, hl, he⟩ := h.chain
    refine ⟨l, hl, hl.addr_nodup, fun e hm => ?_, ?_⟩
    · have hd := hl.deref (p := e.1) (v := e.2) hm
      refine ⟨by rw [Heap.deref_eq_some.1 hd]; rfl, fun t p hp ha => ?_⟩
      obtain ⟨m, hm', hpop⟩ := h.held t p hp
      have heq := Heap.eq_of_addr hm' hd ha
      subst heq
      rw [hm'] at hd
      cases hd
      exact (mem_outstanding he hm).2 hpop
    · have hperm := h.pushed_perm.map Prod.snd
      rw [← he, List.map_append, List.map_map] at hperm
      exact Multiset.coe_eq_coe.2 hperm

/-- No interleaving of any number of producers and consumers breaks the chain, loses or doubles a
node, or touches one that is freed. -/
theorem nodes_safe [Fintype τ] {s : St τ} (h : (sys τ).Reachable s) : Safe s :=
  (inv_of_reachable h).safe

/-- A node is passed on and freed, and `malloc` gives its address out again. -/
def reuse : List (Act (Fin 2)) :=
  [.malloc 0 7 41 none, .run 0, .run 0, .run 0, .run 1, .run 1, .run 1, .run 1, .run 1, .run 1,
    .signal 0 ∅, .malloc 0 7 5 none]

theorem nodes_safe_reuse : ∃ s, (sys (Fin 2)).run reuse
    (begin fun t => if t = 0 then .produce 0 else .consume 0) = some s ∧ Safe s := by
  have hi : (sys (Fin 2)).init (begin fun t => if t = 0 then .produce 0 else .consume 0) :=
    ⟨by decide, rfl, rfl, rfl, rfl, rfl, rfl⟩
  have hr : ((sys (Fin 2)).run reuse
    (begin fun t => if t = 0 then .produce 0 else .consume 0)).isSome = true := by decide
  obtain ⟨s, hs⟩ := Option.isSome_iff_exists.1 hr
  exact ⟨s, hs, nodes_safe (.of_run hi hs)⟩

end LinuxIpc.ProdCons.Nodes
