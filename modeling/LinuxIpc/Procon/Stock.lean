import LinuxIpc.Procon.Loop

namespace LinuxIpc.Procon
set_option autoImplicit true

open Function (update)
open ProdCons (Producer Consumer rounds)

namespace Body

def kind : Body → Kind
  | .producer _ => .producer
  | .consumer _ => .consumer

def pushes : Body → Nat
  | .producer p => p.pushes
  | .consumer _ => 0

def pops : Body → Nat
  | .producer _ => 0
  | .consumer c => c.pops

def InRounds : Body → Prop
  | .producer p => p.InRounds
  | .consumer c => c.InRounds

def waiting : Body → Bool
  | .producer _ => false
  | .consumer c => c.isWaiting

/-- Sections that are still to come when the thread does not wait. -/
def rank : Body → Nat
  | .producer p => 2 * rounds - p.pushes - (match p with | .produce i | .signal i => i)
  | .consumer c => 2 * rounds - c.pops -
      (match c with | .consume i | .waiting i | .woken i | .took i _ => i)

/-- What a section can do: it is one of `producer`, pushing or signalling, or one of `consumer`,
testing `head` or printing. -/
theorem step_cases {b : Body} (h : b.step r head = some (b', head')) :
    (∃ p p', b = .producer p ∧ b' = .producer p' ∧ (p.push r head = some (p', head') ∨
      p.signalled = some p' ∧ head' = head)) ∨
    ∃ c c', b = .consumer c ∧ b' = .consumer c' ∧ (c.enter head = some (c', head') ∨
      ∃ num, c.print = some (c', num) ∧ head' = head) := by
  cases b with
  | producer p =>
    left
    cases p with
    | produce i =>
      simp only [step, Option.map_eq_some_iff, Prod.mk.injEq, Prod.exists] at h
      obtain ⟨p', l, hp, rfl, rfl⟩ := h
      exact ⟨_, p', rfl, rfl, .inl hp⟩
    | signal i =>
      simp only [step, Option.map_eq_some_iff, Prod.mk.injEq] at h
      obtain ⟨p', hp, rfl, rfl⟩ := h
      exact ⟨_, p', rfl, rfl, .inr ⟨hp, rfl⟩⟩
  | consumer c =>
    right
    cases c with
    | took i num =>
      simp only [step, Option.map_eq_some_iff, Prod.mk.injEq, Prod.exists] at h
      obtain ⟨c', n, hc, rfl, rfl⟩ := h
      exact ⟨_, c', rfl, rfl, .inr ⟨n, hc, rfl⟩⟩
    | _ =>
      simp only [step, Option.map_eq_some_iff, Prod.mk.injEq, Prod.exists] at h
      obtain ⟨c', l, hc, rfl, rfl⟩ := h
      exact ⟨_, c', rfl, rfl, .inl hc⟩

/-- A section keeps the balance of the stack with what its thread has pushed and popped. -/
theorem step_stock {b : Body} (h : b.step r head = some (b', head')) (hr : b.InRounds) :
    b'.kind = b.kind ∧ b'.InRounds ∧
      head'.length + b'.pops + b.pushes = head.length + b.pops + b'.pushes := by
  rcases step_cases h with
    ⟨p, p', rfl, rfl, hp | ⟨hp, rfl⟩⟩ | ⟨c, c', rfl, rfl, hc | ⟨num, hc, rfl⟩⟩
  · obtain ⟨i, hi, rfl, rfl, rfl⟩ := Producer.push_eq hp
    refine ⟨rfl, hi, ?_⟩
    simp only [pushes, pops, Producer.pushes, List.length_cons]
    omega
  · obtain ⟨i, rfl, rfl⟩ := Producer.signalled_eq hp
    exact ⟨rfl, hr, rfl⟩
  · obtain ⟨i, hi, ⟨rfl, rfl, rfl⟩ | ⟨num, rfl, rfl⟩⟩ := Consumer.enter_eq hc
    · rcases hi with ⟨rfl, hi⟩ | rfl
      · exact ⟨rfl, hi, rfl⟩
      · exact ⟨rfl, hr, rfl⟩
    · rcases hi with ⟨rfl, hi⟩ | rfl
      · refine ⟨rfl, hi, ?_⟩
        simp only [pushes, pops, Consumer.pops, List.length_cons]
        omega
      · refine ⟨rfl, hr, ?_⟩
        simp only [pushes, pops, Consumer.pops, List.length_cons]
        omega
  · obtain ⟨i, rfl, rfl⟩ := Consumer.print_eq hc
    exact ⟨rfl, hr, rfl⟩

theorem spurious_stock {b : Body} (h : b.spurious = some b') :
    b.waiting ∧ b'.kind = b.kind ∧ b'.pushes = b.pushes ∧ b'.pops = b.pops ∧
      (b.InRounds → b'.InRounds) := by
  cases b with
  | producer p => cases h
  | consumer c =>
    simp only [spurious, Option.ite_none_right_eq_some, Option.some.injEq] at h
    obtain ⟨hw, rfl⟩ := h
    exact ⟨hw, rfl, rfl, c.wake_pops, Consumer.InRounds.wake⟩

theorem ended_stock {b : Body} (h : b.ended = true) (hr : b.InRounds) :
    b.pushes = (if b.kind = .producer then 5 else 0) ∧
      b.pops = if b.kind = .consumer then 5 else 0 := by
  cases b with
  | producer p =>
    cases p with
    | produce i =>
      have hi : rounds ≤ i := of_decide_eq_true h
      exact ⟨Nat.le_antisymm hr hi, rfl⟩
    | signal i => cases h
  | consumer c =>
    cases c with
    | consume i =>
      have hi : rounds ≤ i := of_decide_eq_true h
      exact ⟨rfl, Nat.le_antisymm hr hi⟩
    | _ => cases h

/-- With nodes enough for all its rounds a section brings a thread nearer to its end, and does
not leave it waiting. -/
theorem step_rank {b : Body} (h : b.step r head = some (b', head')) (hr : b.InRounds)
    (hn : b.kind = .consumer → rounds ≤ head.length + b.pops) :
    b'.rank < b.rank ∧ b'.waiting = false := by
  rcases step_cases h with
    ⟨p, p', rfl, rfl, hp | ⟨hp, rfl⟩⟩ | ⟨c, c', rfl, rfl, hc | ⟨num, hc, rfl⟩⟩
  · obtain ⟨i, hi, rfl, rfl, rfl⟩ := Producer.push_eq hp
    refine ⟨?_, rfl⟩
    simp only [rank, Producer.pushes]
    omega
  · obtain ⟨i, rfl, rfl⟩ := Producer.signalled_eq hp
    have hi : i < rounds := hr
    refine ⟨?_, rfl⟩
    simp only [rank, Producer.pushes]
    omega
  · obtain ⟨i, hi, ⟨rfl, rfl, rfl⟩ | ⟨num, rfl, rfl⟩⟩ := Consumer.enter_eq hc
    · have hlt : i < rounds := by
        rcases hi with ⟨rfl, hi⟩ | rfl
        · exact hi
        · exact hr
      have hle := hn rfl
      rcases hi with ⟨rfl, _⟩ | rfl <;>
        (simp only [List.length_nil, pops, Consumer.pops] at hle; omega)
    · have hlt : i < rounds := by
        rcases hi with ⟨rfl, hi⟩ | rfl
        · exact hi
        · exact hr
      refine ⟨?_, rfl⟩
      rcases hi with ⟨rfl, _⟩ | rfl <;> (simp only [rank, Consumer.pops]; omega)
  · obtain ⟨i, rfl, rfl⟩ := Consumer.print_eq hc
    have hi : i < rounds := hr
    refine ⟨?_, rfl⟩
    simp only [rank, Consumer.pops]
    omega

/-- A thread in its loop that does not wait has a next section. -/
theorem exists_step {b : Body} (r : Nat) (head : List Nat) (he : b.ended = false)
    (hw : b.waiting = false) : ∃ b' head', b.step r head = some (b', head') := by
  cases b with
  | producer p =>
    cases p with
    | produce i =>
      have hi : i < rounds := Nat.lt_of_not_le (of_decide_eq_false he)
      exact ⟨_, _, by simp only [step, Producer.push, if_pos hi]; rfl⟩
    | signal i => exact ⟨_, _, rfl⟩
  | consumer c =>
    cases c with
    | consume i =>
      have hi : i < rounds := Nat.lt_of_not_le (of_decide_eq_false he)
      exact ⟨_, _, by simp only [step, Consumer.enter, if_pos hi]; rfl⟩
    | waiting i => cases hw
    | woken i => exact ⟨_, _, rfl⟩
    | took i num => exact ⟨_, _, rfl⟩

end Body

/-- The ids the arrays hold for the threads that are counted. -/
def St.ids (s : St) (k : Kind) : List UInt64 := (List.range (s.count k)).map (s.tid k)

def bump (n : Kind → Nat) (k : Kind) : Kind → Nat := update n k (n k + 1)

/-- Counters, stack and arrays after `n k` threads of each kind `k`, with none running. -/
structure Settled (n : Kind → Nat) (s : St) : Prop where
  count : s.count = n
  stock : s.head.length + 5 * n .consumer = 5 * n .producer
  ids : ∀ k, s.created k = s.ids k

/-- The same while one more thread runs. -/
structure Running (n : Kind → Nat) (s : St) (th : Thread) (pushes pops : Nat) : Prop where
  count : s.count = n
  stock : s.head.length + pops + 5 * n .consumer = pushes + 5 * n .producer
  ids : ∀ k, s.created k = s.ids k ++ if k = th.kind then [th.self] else []

def ThreadOk (n : Kind → Nat) (s : St) (th : Thread) : Prop :=
  match th.pc with
  | .enter => Running n s th 0 0
  | .loop b => b.kind = th.kind ∧ b.InRounds ∧ s.tid th.kind (n th.kind) = th.self ∧
      Running n s th b.pushes b.pops
  | .ended => Settled (bump n th.kind) s

/-- `n k` creations of each kind `k` are through. -/
def Account (n : Kind → Nat) (s : St) : Prop :=
  match s.main with
  | .reply k | .join k => ∃ th, s.thread = some th ∧ th.kind = k ∧ ThreadOk n s th
  | _ => s.thread = none ∧ Settled n s

theorem Account.start : Account (fun _ => 0) start := ⟨rfl, rfl, rfl, fun _ => rfl⟩

theorem Settled.congr (h : Settled n s) (hc : t.count = s.count) (hh : t.head = s.head)
    (ht : t.tid = s.tid) (hl : t.created = s.created) : Settled n t where
  count := hc.trans h.count
  stock := hh ▸ h.stock
  ids k := by rw [hl, h.ids, St.ids, St.ids, hc, ht]

theorem ThreadOk.congr (h : ThreadOk n s th) (hc : t.count = s.count) (hh : t.head = s.head)
    (ht : t.tid = s.tid) (hl : t.created = s.created) : ThreadOk n t th := by
  have hrun : ∀ {i j}, Running n s th i j → Running n t th i j := by
    intro i j hr
    refine ⟨hc.trans hr.count, hh ▸ hr.stock, ?_⟩
    intro k
    rw [hl, hr.ids, St.ids, St.ids, hc, ht]
  unfold ThreadOk at h ⊢
  cases hpc : th.pc with
  | enter => rw [hpc] at h; exact hrun h
  | loop b => rw [hpc] at h; exact ⟨h.1, h.2.1, by rw [ht, h.2.2.1], hrun h.2.2.2⟩
  | ended => rw [hpc] at h; exact h.congr hc hh ht hl

theorem Settled.command (h : Settled n s) (c : Command)
    (ht : s.thread = none) : Account n { s with main := c.main } := by
  have hs : Settled n { s with main := c.main } := h.congr rfl rfl rfl rfl
  cases c <;> exact ⟨ht, hs⟩

/-- The first statement of a thread puts its id behind those of the threads before it. -/
theorem ThreadOk.enter (h : ThreadOk n s th) (hpc : th.pc = .enter) (hs : s.enter th = some t) :
    t.thread = some { th with pc := .loop th.kind.body } ∧ t.main = s.main ∧
      ThreadOk n t { th with pc := .loop th.kind.body } := by
  rw [ThreadOk, hpc] at h
  simp only [St.enter, Option.ite_none_right_eq_some, Option.some.injEq] at hs
  obtain ⟨-, rfl⟩ := hs
  refine ⟨rfl, rfl, ?_, ?_, ?_, ?_⟩
  · cases th.kind <;> rfl
  · cases th.kind <;> exact Nat.zero_le _
  · change update s.tid th.kind _ th.kind (n th.kind) = th.self
    rw [Function.update_self, h.count, Function.update_self]
  · have hids : ∀ k, (List.range (s.count k)).map (update s.tid th.kind
        (update (s.tid th.kind) (s.count th.kind) th.self) k) = s.ids k := by
      intro k
      apply List.map_congr_left
      intro i hi
      by_cases hk : k = th.kind
      · subst hk
        rw [Function.update_self, Function.update_of_ne (Nat.ne_of_lt (List.mem_range.1 hi))]
      · rw [Function.update_of_ne hk]
    have hb : th.kind.body.pushes = 0 ∧ th.kind.body.pops = 0 := by
      cases th.kind <;> exact ⟨rfl, rfl⟩
    rw [hb.1, hb.2]
    exact ⟨h.count, h.stock, fun k => (h.ids k).trans (congrArg (· ++ _) (hids k).symm)⟩

theorem ThreadOk.loop (h : ThreadOk n s th) (hpc : th.pc = .loop b)
    (hk : b'.kind = b.kind) (hr : b'.InRounds)
    (hs : head.length + b'.pops + b.pushes = s.head.length + b.pops + b'.pushes) :
    ThreadOk n { s.setPc th (.loop b') with head := head } { th with pc := .loop b' } := by
  rw [ThreadOk, hpc] at h
  obtain ⟨hkind, _, htid, hrun⟩ := h
  have hstock := hrun.stock
  refine ⟨hk.trans hkind, hr, htid, hrun.count, ?_, hrun.ids⟩
  change head.length + b'.pops + 5 * n .consumer = b'.pushes + 5 * n .producer
  omega

/-- At its end a thread has pushed or popped five nodes and is counted. -/
theorem ThreadOk.finish (h : ThreadOk n s th) (hpc : th.pc = .loop b) (he : b.ended = true) :
    ThreadOk n (s.finish th) { th with pc := .ended } := by
  rw [ThreadOk, hpc] at h
  obtain ⟨hkind, hr, htid, hrun⟩ := h
  obtain ⟨hpush, hpop⟩ := Body.ended_stock he hr
  have hstock := hrun.stock
  rw [hpush, hpop, hkind] at hstock
  constructor
  case count =>
    change update s.count th.kind (s.count th.kind + 1) = bump n th.kind
    rw [hrun.count, bump]
  case stock =>
    change s.head.length + 5 * bump n th.kind .consumer = 5 * bump n th.kind .producer
    cases hk : th.kind <;> (simp [hk, bump] at hstock ⊢; omega)
  case ids =>
    intro k
    change s.created k = (List.range (update s.count th.kind (s.count th.kind + 1) k)).map (s.tid k)
    rw [hrun.ids]
    by_cases hk : k = th.kind
    · subst hk
      rw [if_pos rfl, Function.update_self, List.range_succ, List.map_append, List.map_singleton,
        hrun.count, htid, St.ids, hrun.count]
    · rw [if_neg hk, Function.update_of_ne hk, List.append_nil, St.ids]

/-- A thread that waits and is woken without a signal. -/
theorem ThreadOk.spurious (h : ThreadOk n s th) (hpc : th.pc = .loop b)
    (hb : b.spurious = some b') :
    ThreadOk n (s.setPc th (.loop b')) { th with pc := .loop b' } := by
  obtain ⟨-, hk, hpush, hpop, hr⟩ := Body.spurious_stock hb
  have hok := h
  rw [ThreadOk, hpc] at hok
  have hstock : s.head.length + b'.pops + b.pushes = s.head.length + b.pops + b'.pushes := by
    rw [hpush, hpop]
  exact h.loop hpc hk (hr hok.2.1) hstock

theorem ThreadOk.step (h : ThreadOk n s th) (hs : s.stepThread th r = some t) :
    t.main = s.main ∧ ∃ pc, t.thread = some { th with pc := pc } ∧
      ThreadOk n t { th with pc := pc } := by
  rcases stepThread_cases hs with ⟨hpc, hs⟩ | ⟨b, hpc, he, rfl⟩ | ⟨b, b', head, hpc, hb, rfl⟩
  · obtain ⟨hth, hm, hok⟩ := h.enter hpc hs
    exact ⟨hm, _, hth, hok⟩
  · exact ⟨rfl, _, rfl, h.finish hpc he⟩
  · have hok := h
    rw [ThreadOk, hpc] at hok
    obtain ⟨hk, hr, hstock⟩ := Body.step_stock hb hok.2.1
    exact ⟨rfl, _, rfl, h.loop hpc hk hr hstock⟩

/-- While a thread is there, `main` writes the reply to its creation or waits to join it. -/
theorem Account.thread (h : Account n s) (ht : s.thread = some th) :
    (s.main = .reply th.kind ∨ s.main = .join th.kind) ∧ ThreadOk n s th := by
  unfold Account at h
  cases hm : s.main with
  | reply k =>
    rw [hm] at h
    obtain ⟨th', hth, rfl, hok⟩ := h
    obtain rfl := Option.some.inj (ht.symm.trans hth)
    exact ⟨.inl rfl, hok⟩
  | join k =>
    rw [hm] at h
    obtain ⟨th', hth, rfl, hok⟩ := h
    obtain rfl := Option.some.inj (ht.symm.trans hth)
    exact ⟨.inr rfl, hok⟩
  | _ =>
    rw [hm] at h
    rw [h.1] at ht
    cases ht

theorem Account.of_thread (hm : s.main = .reply th.kind ∨ s.main = .join th.kind)
    (ht : s.thread = some th) (h : ThreadOk n s th) : Account n s := by
  unfold Account
  rcases hm with hm | hm <;> (rw [hm]; exact ⟨th, ht, rfl, h⟩)

/-- The threads counted as through after a step. -/
def through (n : Kind → Nat) (s : St) : Act → Kind → Nat
  | .join =>
    match s.main with
    | .join k => bump n k
    | _ => n
  | _ => n

theorem Account.step (h : Account n s) (hs : Procon.step s a = some (t, o)) :
    Account (through n s a) t := by
  have hacc := h
  unfold Account at h
  cases move_of_step hs with
  | read hm =>
    rw [hm] at h
    exact h.2.command _ h.1
  | spawn hm =>
    rw [hm] at h
    refine ⟨_, rfl, rfl, h.2.count, ?_, ?_⟩
    · exact (Nat.zero_add _).symm ▸ h.2.stock
    · intro j
      rename_i k self
      change update s.created k (s.created k ++ [self]) j = _
      by_cases hj : j = k
      · subst hj
        rw [Function.update_self, if_pos rfl, h.2.ids]
        rfl
      · rw [Function.update_of_ne hj, if_neg hj, h.2.ids, List.append_nil]
        rfl
  | reply hm =>
    rw [hm] at h
    obtain ⟨th, hth, hk, hok⟩ := h
    exact ⟨th, hth, hk, hok.congr rfl rfl rfl rfl⟩
  | join hm ht =>
    rw [hm] at h
    obtain ⟨th, hth, rfl, hok⟩ := h
    obtain rfl := Option.some.inj (ht.symm.trans hth)
    rw [through, hm]
    exact ⟨rfl, Settled.congr hok rfl rfl rfl rfl⟩
  | delete hm => rw [hm] at h; exact ⟨h.1, h.2.congr rfl rfl rfl rfl⟩
  | list hm => rw [hm] at h; exact ⟨h.1, h.2.congr rfl rfl rfl rfl⟩
  | listed hm => rw [hm] at h; exact ⟨h.1, h.2.congr rfl rfl rfl rfl⟩
  | unknown hm => rw [hm] at h; exact ⟨h.1, h.2.congr rfl rfl rfl rfl⟩
  | thread ht hu =>
    obtain ⟨hm, hok⟩ := hacc.thread ht
    obtain ⟨hmain, pc, hpc, hok⟩ := hok.step hu
    exact .of_thread (hmain ▸ hm) hpc hok
  | spurious ht hpc hb =>
    obtain ⟨hm, hok⟩ := hacc.thread ht
    apply Account.of_thread ?_ rfl (hok.spurious hpc hb)
    exact hm

end LinuxIpc.Procon
