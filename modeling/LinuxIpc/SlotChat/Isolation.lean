import LinuxIpc.SlotChat.Globals

namespace LinuxIpc.SlotChat.Globals
set_option autoImplicit true

open Function (update)

/-- Handlers receive from and close their own connections only, and a pass of a relay loop sends
to no slot twice and once to each descriptor that is registered throughout. -/
structure Isolated (s : St) : Prop where
  received : ∀ r ∈ s.received, r.2 = r.1
  closed : ∀ r ∈ s.closed, r.2 = r.1
  passes : ∀ r ∈ s.passes, (r.1.map Prod.fst).Nodup ∧ ∀ fd ∈ r.2, (r.1.map Prod.snd).count fd = 1
  running : ∀ k h, s.handler k = some h → (h.sent.map Prod.fst).Nodup

def Empty (p : Table) : Prop := ∀ k < slots, p k = 0

/-- Whoever connects is alone. -/
def Alone (s : St) : Act → Prop
  | .accept _ => Empty s.vars.client_p
  | .main _ | .handler _ _ => True

instance (p : Table) : Decidable (Empty p) := Nat.decidableBallLT _ _

instance (s : St) (a : Act) : Decidable (Alone s a) := by
  cases a <;> unfold Alone <;> infer_instance

/-- The descriptor `fd` is the only one in the table. -/
structure Only (g : Vars) (fd : Int) : Prop where
  clientfd : g.clientfd = fd
  i : g.i = 0
  pos : 0 < fd
  first : g.client_p 0 = fd
  rest : ∀ k < slots, k ≠ 0 → g.client_p k = 0

/-- What the accept loop knows while no handler runs. -/
def Resting (g : Vars) : Main → Prop
  | .accept => Empty g.client_p ∨ ∃ fd, Only g fd
  | .init => 0 < g.clientfd ∧ Empty g.client_p
  | .test | .look | .place => 0 < g.clientfd ∧ Empty g.client_p ∧ g.i = 0
  | .find k | .take k => 0 < g.clientfd ∧ Empty g.client_p ∧ g.i = 0 ∧ k = 0
  | .fill k fd => 0 < g.clientfd ∧ Empty g.client_p ∧ g.i = 0 ∧ k = 0 ∧ fd = g.clientfd
  | .spawn => Only g g.clientfd
  | .full | .tell | .shut | .inc | .store _ => False

/-- What a handler that is alone has sent in the present pass when its loop is at `j`. -/
def Sent (fd : Int) (j : Nat) (sent : List (Nat × Int)) : Prop :=
  sent = if j = 0 then [] else [(0, fd)]

/-- What a handler has sent in the present pass while it is alone. -/
def AtPc (g : Vars) (fd : Int) (sent : List (Nat × Int)) : Pc → Prop
  | .enter k => k = 0 ∧ sent = []
  | .top | .talk | .zero | .recv | .exit => sent = []
  | .test => Sent fd g.j sent
  | .look => g.j < slots ∧ Sent fd g.j sent
  | .find m => m = g.j ∧ g.j < slots ∧ Sent fd g.j sent
  | .pick => g.j = 0 ∧ sent = []
  | .send m => m = 0 ∧ sent = []
  | .inc => sent = [(0, fd)]
  | .store m => 0 < m ∧ sent = [(0, fd)]
  | .scan m => m = 0 ∧ sent = []
  | .free m => m = 0 ∧ sent = []
  | .done => False

structure Handler.Good (g : Vars) (fd : Int) (h : Handler) : Prop where
  conn : h.conn = fd
  index : (∀ k, h.pc ≠ .enter k) → h.index = fd
  kept : ∀ x ∈ h.kept, x = fd
  atPc : AtPc g fd h.sent h.pc

def Effect.Good (fd : Int) : Effect → Prop
  | .recv x | .send x | .close x => x = fd
  | .pass sent kept => sent = [(0, fd)] ∧ ∀ x ∈ kept, x = fd

structure Handler.Ended (h : Handler) : Prop where
  pc : h.pc = .done
  sent : h.sent = []

theorem Only.registered (h : Only g fd) (hx : x ∈ registered g.client_p) : x = fd := by
  obtain ⟨hx, hne⟩ := List.mem_filter.1 hx
  obtain ⟨k, hk, rfl⟩ := List.mem_map.1 hx
  by_cases h0 : k = 0
  · rw [h0, h.first]
  · rw [h.rest k (List.mem_range.1 hk) h0] at hne
    exact absurd hne (by decide)

theorem Sent.zero : Sent fd 0 [] := rfl

theorem Sent.pos (h : 0 < j) : Sent fd j sent ↔ sent = [(0, fd)] := by
  rw [Sent, if_neg (Nat.ne_of_gt h)]

theorem Only.free (h : Only g fd) : Empty (update g.client_p 0 0) := by
  intro k hk
  by_cases h0 : k = 0
  · rw [h0]
    exact Function.update_self ..
  · have hold : update g.client_p 0 0 k = g.client_p k := Function.update_of_ne h0 ..
    exact hold.trans (h.rest k hk h0)

theorem Handler.Good.goto {x : Handler} {p q : Pc} (h : x.Good g fd) (hp : x.pc = p)
    (he : ∀ k, p ≠ .enter k) (ha : AtPc g fd x.sent q) :
    Handler.Good g fd { x with pc := q } :=
  ⟨h.conn, fun _ => h.index (hp ▸ he), h.kept, ha⟩

/-- A handler that is alone stays with its own descriptor. -/
theorem Handler.Good.step {x : Handler} (h : x.Good g fd) (ho : Only g fd)
    (ht : x.step g b = some (g', y, e)) :
    (∀ c ∈ e, c.Good fd) ∧
      (Only g' fd ∧ y.Good g' fd ∨ y.Ended ∧ Resting g' .accept) := by
  have ha := h.atPc
  cases hpc : x.pc with
  | enter k =>
    simp only [Handler.step, hpc] at ht ha
    cases ht
    obtain ⟨rfl, hs⟩ := ha
    exact ⟨nofun, .inl ⟨ho, h.conn, fun _ => ho.first, h.kept, hs⟩⟩
  | top =>
    simp only [Handler.step, hpc] at ht ha
    cases ht
    refine ⟨?_, .inl ⟨ho, h.goto hpc nofun ha⟩⟩
    rintro c ⟨⟩
    exact ho.clientfd
  | talk =>
    simp only [Handler.step, hpc] at ht ha
    cases b
    · cases ht
      refine ⟨?_, .inl ⟨ho, h.goto hpc nofun ha⟩⟩
      rintro c ⟨⟩
      exact ho.clientfd
    · cases ht
      refine ⟨?_, .inl ⟨ho, h.goto hpc nofun ha⟩⟩
      rintro c ⟨⟩
      exact ho.clientfd
  | zero =>
    simp only [Handler.step, hpc] at ht ha
    cases ht
    refine ⟨nofun, .inl ⟨⟨ho.clientfd, ho.i, ho.pos, ho.first, ho.rest⟩, ?_⟩⟩
    exact ⟨h.conn, fun _ => h.index (hpc ▸ nofun), fun _ => ho.registered, .zero⟩
  | test =>
    simp only [Handler.step, hpc] at ht ha
    split at ht
    case isTrue hj =>
      cases ht
      exact ⟨nofun, .inl ⟨ho, h.goto hpc nofun ⟨hj, ha⟩⟩⟩
    case isFalse hj =>
      cases ht
      constructor
      · rintro c ⟨⟩
        exact ⟨(Sent.pos (by omega)).1 ha, h.kept⟩
      · exact .inl ⟨ho, h.conn, fun _ => h.index (hpc ▸ nofun), nofun, rfl⟩
  | look =>
    simp only [Handler.step, hpc] at ht ha
    cases ht
    exact ⟨nofun, .inl ⟨ho, h.goto hpc nofun ⟨rfl, ha⟩⟩⟩
  | find m =>
    simp only [Handler.step, hpc] at ht ha
    cases ht
    obtain ⟨rfl, hj, hs⟩ := ha
    refine ⟨nofun, .inl ⟨ho, h.goto hpc nofun ?_⟩⟩
    by_cases h0 : g.j = 0
    · have hne : g.client_p g.j ≠ 0 := by
        rw [h0, ho.first]
        exact ne_of_gt ho.pos
      rw [if_pos hne]
      rw [h0] at hs
      exact ⟨h0, hs⟩
    · have hzero : ¬ g.client_p g.j ≠ 0 := not_not.2 (ho.rest _ hj h0)
      rw [if_neg hzero]
      exact (Sent.pos (Nat.pos_of_ne_zero h0)).1 hs
  | pick =>
    simp only [Handler.step, hpc] at ht ha
    cases ht
    exact ⟨nofun, .inl ⟨ho, h.goto hpc nofun ⟨ho.i, ha.2⟩⟩⟩
  | send m =>
    simp only [Handler.step, hpc] at ht ha
    cases ht
    obtain ⟨rfl, hs⟩ := ha
    constructor
    · rintro c ⟨⟩
      exact ho.first
    · refine .inl ⟨ho, h.conn, fun _ => h.index (hpc ▸ nofun), h.kept, ?_⟩
      change x.sent ++ [(0, g.client_p 0)] = [(0, fd)]
      rw [hs, ho.first, List.nil_append]
  | inc =>
    simp only [Handler.step, hpc] at ht ha
    cases ht
    exact ⟨nofun, .inl ⟨ho, h.goto hpc nofun ⟨Nat.succ_pos _, ha⟩⟩⟩
  | store m =>
    simp only [Handler.step, hpc] at ht ha
    cases ht
    refine ⟨nofun, .inl ⟨⟨ho.clientfd, ho.i, ho.pos, ho.first, ho.rest⟩, ?_⟩⟩
    exact ⟨h.conn, fun _ => h.index (hpc ▸ nofun), h.kept, (Sent.pos ha.1).2 ha.2⟩
  | recv =>
    simp only [Handler.step, hpc] at ht ha
    cases ht
    constructor
    · rintro c ⟨⟩
      exact h.index (hpc ▸ nofun)
    · refine .inl ⟨ho, h.goto hpc nofun ?_⟩
      cases b
      · exact ha
      · exact ⟨rfl, ha⟩
  | scan m =>
    simp only [Handler.step, hpc] at ht ha
    obtain ⟨rfl, hs⟩ := ha
    have hfound : g.client_p 0 = x.index := by rw [ho.first, h.index (hpc ▸ nofun)]
    rw [if_pos (by decide), if_pos hfound] at ht
    cases ht
    exact ⟨nofun, .inl ⟨ho, h.goto hpc nofun ⟨rfl, hs⟩⟩⟩
  | free m =>
    simp only [Handler.step, hpc] at ht ha
    cases ht
    obtain ⟨rfl, hs⟩ := ha
    exact ⟨nofun, .inr ⟨⟨rfl, hs⟩, .inl ho.free⟩⟩
  | exit =>
    simp only [Handler.step, hpc] at ht ha
    cases ht
    exact ⟨nofun, .inr ⟨⟨rfl, ha⟩, .inr ⟨fd, ho⟩⟩⟩
  | done =>
    rw [hpc] at ha
    exact ha.elim

/-- No handler runs. -/
structure Idle (s : St) : Prop where
  handler : ∀ k h, s.handler k = some h → h.Ended
  main : Resting s.vars s.main

/-- Handler `k` runs for `fd`, and the accept loop waits. -/
structure Busy (s : St) (fd : Int) (k : Nat) : Prop where
  main : s.main = .accept
  only : Only s.vars fd
  handler : ∃ h, s.handler k = some h ∧ h.Good s.vars fd
  others : ∀ m ≠ k, ∀ h, s.handler m = some h → h.Ended

structure Clean (s : St) : Prop where
  received : ∀ r ∈ s.received, r.2 = r.1
  closed : ∀ r ∈ s.closed, r.2 = r.1
  passes : ∀ r ∈ s.passes, (r.1.map Prod.fst).Nodup ∧ ∀ fd ∈ r.2, (r.1.map Prod.snd).count fd = 1

structure Inv (s : St) : Prop where
  phase : Idle s ∨ ∃ fd k, Busy s fd k
  clean : Clean s

theorem Handler.Ended.keep {h : Handler} (he : h.Ended) (p : Table) : (h.keep p).Ended :=
  ⟨he.pc, he.sent⟩

theorem Handler.Good.keep {h : Handler} (hg : h.Good g fd) (p : Table) : (h.keep p).Good g fd :=
  ⟨hg.conn, hg.index, fun x hx => hg.kept x (List.mem_filter.1 hx).1, hg.atPc⟩

theorem Idle.keep (h : Idle s) : Idle s.keep := by
  refine ⟨fun k x hx => ?_, h.main⟩
  obtain ⟨y, hy, rfl⟩ := Option.map_eq_some_iff.1 hx
  exact (h.handler k y hy).keep _

theorem Busy.keep (h : Busy s fd k) : Busy s.keep fd k := by
  obtain ⟨x, hx, hg⟩ := h.handler
  refine ⟨h.main, h.only, ⟨x.keep s.vars.client_p, ?_, hg.keep _⟩, fun m hm x hx => ?_⟩
  · exact Option.map_eq_some_iff.2 ⟨x, hx, rfl⟩
  · obtain ⟨y, hy, rfl⟩ := Option.map_eq_some_iff.1 hx
    exact (h.others m hm y hy).keep _

theorem Inv.keep (h : Inv s) : Inv s.keep :=
  ⟨h.phase.imp Idle.keep fun ⟨fd, k, hb⟩ => ⟨fd, k, hb.keep⟩,
    h.clean.received, h.clean.closed, h.clean.passes⟩

theorem Clean.log (h : Clean s) (he : ∀ c ∈ e, Effect.Good fd c) : Clean (s.log fd e) := by
  cases e with
  | none => exact h
  | some c =>
    have hc := he c rfl
    cases c with
    | recv x =>
      refine ⟨fun r hr => ?_, h.closed, h.passes⟩
      rcases List.mem_append.1 hr with hr | hr
      · exact h.received r hr
      · rw [List.mem_singleton.1 hr]
        exact hc
    | send x => exact h
    | close x =>
      refine ⟨h.received, fun r hr => ?_, h.passes⟩
      rcases List.mem_append.1 hr with hr | hr
      · exact h.closed r hr
      · rw [List.mem_singleton.1 hr]
        exact hc
    | pass sent kept =>
      refine ⟨h.received, h.closed, fun r hr => ?_⟩
      rcases List.mem_append.1 hr with hr | hr
      · exact h.passes r hr
      · obtain ⟨rfl, hk⟩ := hc
        rw [List.mem_singleton.1 hr]
        refine ⟨List.pairwise_singleton .., fun x hx => ?_⟩
        rw [hk x hx]
        exact List.count_singleton_self

theorem Clean.stepMain (h : Clean s) (ht : s.stepMain ok = some t) : Clean t := by
  unfold St.stepMain at ht
  split at ht
  case h_1 => cases ht
  case h_9 =>
    split at ht
    · cases ht
      exact ⟨h.received, h.closed, h.passes⟩
    · cases ht
      exact ⟨h.received, h.closed, h.passes⟩
  all_goals
    cases ht
    exact ⟨h.received, h.closed, h.passes⟩

theorem Only.fill {g : Vars} (hp : 0 < g.clientfd) (he : Empty g.client_p) (hi : g.i = 0) :
    Only { g with client_p := update g.client_p 0 g.clientfd } g.clientfd := by
  have h0 : update g.client_p 0 g.clientfd 0 = g.clientfd := Function.update_self ..
  refine ⟨rfl, hi, hp, h0, fun k hk hne => ?_⟩
  have hold : update g.client_p 0 g.clientfd k = g.client_p k := Function.update_of_ne hne ..
  exact hold.trans (he k hk)

theorem Idle.stepMain (h : Idle s) (ht : s.stepMain ok = some t) :
    Idle t ∨ ∃ fd k, Busy t fd k := by
  have hr := h.main
  have hz : 0 < slots := by decide
  unfold St.stepMain at ht
  cases hm : s.main <;> rw [hm] at hr <;> simp only [hm] at ht
  case accept => cases ht
  case init =>
    cases ht
    exact .inl ⟨h.handler, hr.1, hr.2, rfl⟩
  case test =>
    rw [if_pos (by rw [hr.2.2]; decide)] at ht
    cases ht
    exact .inl ⟨h.handler, hr⟩
  case look =>
    cases ht
    exact .inl ⟨h.handler, hr.1, hr.2.1, hr.2.2, hr.2.2⟩
  case find k =>
    obtain ⟨hp, he, hi, rfl⟩ := hr
    rw [if_pos (he 0 hz)] at ht
    cases ht
    exact .inl ⟨h.handler, hp, he, hi⟩
  case place =>
    cases ht
    exact .inl ⟨h.handler, hr.1, hr.2.1, hr.2.2, hr.2.2⟩
  case take k =>
    cases ht
    exact .inl ⟨h.handler, hr.1, hr.2.1, hr.2.2.1, hr.2.2.2, rfl⟩
  case fill k fd =>
    obtain ⟨hp, he, hi, rfl, rfl⟩ := hr
    cases ht
    exact .inl ⟨h.handler, Only.fill hp he hi⟩
  case spawn =>
    cases ok
    · cases ht
      exact .inl ⟨h.handler, .inr ⟨_, hr⟩⟩
    · cases ht
      refine .inr ⟨s.vars.clientfd, s.created, rfl, hr, ⟨_, Function.update_self .., ?_⟩, ?_⟩
      · exact ⟨rfl, fun hne => (hne _ rfl).elim, nofun, hr.i, rfl⟩
      · intro m hm x hx
        have hold : ∀ v, update s.handler s.created v m = s.handler m := fun v =>
          Function.update_of_ne hm ..
        exact h.handler m x ((hold _).symm.trans hx)
  all_goals exact hr.elim

theorem Inv.main (h : Inv s) (ht : s.stepMain ok = some t) : Inv t := by
  refine ⟨?_, h.clean.stepMain ht⟩
  rcases h.phase with hi | ⟨fd, k, hb⟩
  · exact hi.stepMain ht
  · rw [St.stepMain, hb.main] at ht
    cases ht

theorem Handler.Ended.stuck {h : Handler} (he : h.Ended) : h.step g b = none := by
  rw [Handler.step, he.pc]

theorem Idle.log (h : Idle s) (conn : Int) (e : Option Effect) : Idle (s.log conn e) := by
  constructor
  · rw [log_handler]
    exact h.handler
  · rw [log_vars, log_main]
    exact h.main

theorem Busy.log (h : Busy s fd k) (conn : Int) (e : Option Effect) :
    Busy (s.log conn e) fd k := by
  constructor
  · rw [log_main, h.main]
  · rw [log_vars]
    exact h.only
  · rw [log_handler, log_vars]
    exact h.handler
  · rw [log_handler]
    exact h.others

/-- What becomes of the handlers when the one that runs has taken a step. -/
theorem Busy.next (h : Busy s fd k)
    (hy : Only g fd ∧ y.Good g fd ∨ y.Ended ∧ Resting g .accept) :
    Idle { s with vars := g, handler := update s.handler k (some y) } ∨
      Busy { s with vars := g, handler := update s.handler k (some y) } fd k := by
  have hself : update s.handler k (some y) k = some y := Function.update_self ..
  have hothers : ∀ m ≠ k, ∀ z, update s.handler k (some y) m = some z → z.Ended := by
    intro m hm z hz
    rw [Function.update_of_ne hm] at hz
    exact h.others m hm z hz
  rcases hy with ⟨ho, hy⟩ | ⟨hy, hrest⟩
  · exact .inr ⟨h.main, ho, ⟨y, hself, hy⟩, hothers⟩
  · refine .inl ⟨fun m z hz => ?_, ?_⟩
    · by_cases hm : m = k
      · subst hm
        obtain rfl := Option.some.inj (hself.symm.trans hz)
        exact hy
      · exact hothers m hm z hz
    · rw [h.main]
      exact hrest

theorem Inv.handler (h : Inv s) (ht : s.stepHandler k b = some t) : Inv t := by
  obtain ⟨x, hx, ht⟩ := Option.bind_eq_some_iff.1 ht
  obtain ⟨⟨g, y, e⟩, hstep, rfl⟩ := Option.map_eq_some_iff.1 ht
  rcases h.phase with hi | ⟨fd, m, hb⟩
  · rw [(hi.handler k x hx).stuck] at hstep
    cases hstep
  · by_cases hkm : k = m
    · subst hkm
      obtain ⟨x', hx', hg⟩ := hb.handler
      obtain rfl := Option.some.inj (hx.symm.trans hx')
      obtain ⟨he, hnext⟩ := hg.step hb.only hstep
      constructor
      · rcases hb.next hnext with hidle | hbusy
        · exact .inl (hidle.log ..)
        · exact .inr ⟨fd, k, hbusy.log ..⟩
      · rw [hg.conn]
        exact Clean.log ⟨h.clean.received, h.clean.closed, h.clean.passes⟩ he
    · rw [(hb.others k hkm x hx).stuck] at hstep
      cases hstep

theorem Inv.accept (h : Inv s) (ha : Alone s (.accept fd)) (ht : step s (.accept fd) = some t) :
    Inv t := by
  obtain ⟨⟨-, hfd, -⟩, rfl⟩ := of_guard ht
  refine ⟨.inl ⟨?_, hfd, ha⟩, h.clean.received, h.clean.closed, h.clean.passes⟩
  rcases h.phase with hi | ⟨x, k, hb⟩
  · exact hi.handler
  · have hpos := hb.only.pos
    rw [← hb.only.first, ha 0 (by decide)] at hpos
    exact absurd hpos (by decide)

theorem Inv.step (h : Inv s) (ha : Alone s a) (ht : Globals.step s a = some t) : Inv t := by
  cases a with
  | accept fd => exact h.accept ha ht
  | main ok =>
    obtain ⟨u, hu, rfl⟩ := Option.map_eq_some_iff.1 ht
    exact (h.main hu).keep
  | handler k b =>
    obtain ⟨u, hu, rfl⟩ := Option.map_eq_some_iff.1 ht
    exact (h.handler hu).keep

theorem Inv.start : Inv start :=
  ⟨.inl ⟨nofun, .inl fun _ _ => rfl⟩, nofun, nofun, nofun⟩

theorem Sent.cases (h : Sent fd j sent) : sent = [] ∨ sent = [(0, fd)] := by
  unfold Sent at h
  split at h
  · exact .inl h
  · exact .inr h

theorem AtPc.either (h : AtPc g fd sent q) : sent = [] ∨ sent = [(0, fd)] := by
  cases q with
  | top | talk | zero | recv | exit => exact .inl h
  | enter | pick | send | scan | free => exact .inl h.2
  | test => exact Sent.cases h
  | look => exact h.2.cases
  | find => exact h.2.2.cases
  | inc => exact .inr h
  | store => exact .inr h.2
  | done => exact h.elim

theorem AtPc.nodup (h : AtPc g fd sent q) : (sent.map Prod.fst).Nodup := by
  rcases h.either with rfl | rfl
  · exact .nil
  · exact List.pairwise_singleton ..

theorem Inv.apart (h : Inv s) : Isolated s := by
  refine ⟨h.clean.received, h.clean.closed, h.clean.passes, fun k x hx => ?_⟩
  have hended : x.Ended → (x.sent.map Prod.fst).Nodup := by
    intro he
    rw [he.sent]
    exact .nil
  rcases h.phase with hi | ⟨fd, m, hb⟩
  · exact hended (hi.handler k x hx)
  · by_cases hkm : k = m
    · subst hkm
      obtain ⟨x', hx', hg⟩ := hb.handler
      obtain rfl := Option.some.inj (hx.symm.trans hx')
      exact hg.atPc.nodup
    · exact hended (hb.others k hkm x hx)

theorem inv_of_reachable (h : sys.ReachableIf Alone s) : Inv s := by
  apply h.invariant
  · rintro s rfl
    exact .start
  · intro s a t hi ha ht
    exact hi.step ha ht

/-- The sessions are isolated in every run where nobody is registered when a client connects. -/
theorem sessions_isolated (h : sys.ReachableIf Alone s) : Isolated s := (inv_of_reachable h).apart

def Handler.run : List Bool → Vars → Handler → Option (Vars × Handler)
  | [], g, x => some (g, x)
  | b :: bs, g, x =>
    (x.step g b).bind fun (g', y, _) => Handler.run bs g' (y.keep g'.client_p)

theorem step_handler (hx : s.handler k = some x) (hz : x.step s.vars b = some (g, z, e)) :
    ∃ t, step s (.handler k b) = some t ∧ t.vars = g ∧
      t.handler k = some (z.keep g.client_p) := by
  let t := ({ s with vars := g, handler := update s.handler k (some z) }).log x.conn e
  have hvars : t.vars = g := log_vars _
  have hz' : t.handler k = some z := by
    rw [log_handler]
    exact Function.update_self ..
  have hstep : s.stepHandler k b = some t := by
    rw [St.stepHandler, hx, Option.bind_some, hz, Option.map_some]
  refine ⟨t.keep, ?_, hvars, ?_⟩
  · rw [step, hstep, Option.map_some]
  · rw [keep_handler, hz', hvars, Option.map_some]

theorem run_handler (hx : s.handler k = some x) (hr : x.run bs s.vars = some (g, y)) :
    ∃ t, sys.run (bs.map (.handler k ·)) s = some t ∧ t.handler k = some y := by
  induction bs generalizing s x with
  | nil =>
    cases hr
    exact ⟨s, rfl, hx⟩
  | cons b bs ih =>
    obtain ⟨⟨g', z, e⟩, hz, hr⟩ := Option.bind_eq_some_iff.1 hr
    obtain ⟨t, ht, hvars, hx'⟩ := step_handler hx hz
    obtain ⟨u, hu, hy⟩ := ih hx' (hvars ▸ hr)
    exact ⟨u, (Sys.run_cons ht).trans hu, hy⟩

/-- The accept loop passes over a slot that is taken. -/
theorem pass_slot (hm : s.main = .test) (hi : s.vars.i < 50)
    (hp : s.vars.client_p s.vars.i ≠ 0) : ∃ t, sys.run (List.replicate 6 (.main true)) s = some t ∧
      t.vars = { s.vars with i := s.vars.i + 1 } ∧ t.main = .test := by
  have h50 : 50 ≠ s.vars.i := ne_of_gt hi
  simp [List.replicate, Sys.run, sys, step, St.stepMain, St.keep, hm, hi, hp, h50]

theorem fill_slot (hm : s.main = .test) (hi : s.vars.i < 50)
    (hp : s.vars.client_p s.vars.i = 0) : ∃ t, sys.run (List.replicate 7 (.main true)) s = some t ∧
      t.vars = { s.vars with
        client_p := update s.vars.client_p s.vars.i s.vars.clientfd } ∧
      t.handler s.created = some ⟨s.vars.clientfd, 0, .enter s.vars.i, [], []⟩ := by
  simp [List.replicate, Sys.run, sys, step, St.stepMain, St.keep, Handler.keep, hm, hi, hp]

theorem run_append {x : Handler} (h : x.run as g = some (g', y)) :
    x.run (as ++ bs) g = y.run bs g' := by
  induction as generalizing g x with
  | nil =>
    cases h
    rfl
  | cons a as ih =>
    obtain ⟨⟨v, z, e⟩, hz, hr⟩ := Option.bind_eq_some_iff.1 h
    rw [List.cons_append, Handler.run, hz]
    exact ih hr

/-- Each slot that is taken makes a relay loop send to the slot that `i` tells. -/
theorem relay_slot {x : Handler} (hp : x.pc = .test) (hj : g.j < 50) (hs : g.client_p g.j ≠ 0) :
    ∃ y, x.run (List.replicate 7 false) g = some ({ g with j := g.j + 1 }, y) ∧ y.pc = .test ∧
      y.sent = x.sent ++ [(g.i, g.client_p g.i)] := by
  simp [List.replicate, Handler.run, Handler.step, Handler.keep, hp, hj, hs]

theorem begin_pass {x : Handler} (hp : x.pc = .enter k) :
    ∃ y, x.run (List.replicate 4 false) g = some ({ g with j := 0 }, y) ∧ y.pc = .test ∧
      y.sent = [] := by
  simp [List.replicate, Handler.run, Handler.step, Handler.keep, hp]

/-- If two slots are taken, the first pass of a handler goes to one slot twice. -/
theorem newcomer {x : Handler} (g : Vars) (hp : x.pc = .enter k) (h0 : g.client_p 0 ≠ 0)
    (h1 : g.client_p 1 ≠ 0) : ∃ bs g' y, x.run bs g = some (g', y) ∧
      y.sent = [(g.i, g.client_p g.i), (g.i, g.client_p g.i)] := by
  obtain ⟨y, hy, hpc, hsent⟩ := begin_pass (g := g) hp
  have hlt : 0 < 50 ∧ 1 < 50 := by decide
  obtain ⟨z, hz, hpc, hsent'⟩ := relay_slot (g := { g with j := 0 }) hpc hlt.1 h0
  obtain ⟨w, hw, -, hlast⟩ := relay_slot (g := { g with j := 1 }) hpc hlt.2 h1
  refine ⟨_, _, w, (run_append hy).trans ((run_append hz).trans hw), ?_⟩
  rw [hlast, hsent', hsent, List.nil_append]
  rfl

/-- If someone is registered when a client connects, the sessions need not stay isolated. -/
theorem accept_early (h : sys.ReachableIf Alone s) (ha : ¬ Alone s (.accept fd))
    (ht : step s (.accept fd) = some t) : ∃ as u, sys.run as t = some u ∧ ¬ Isolated u := by
  obtain ⟨⟨hm, hfd, -⟩, rfl⟩ := of_guard ht
  have hinv := inv_of_reachable h
  obtain ⟨x, ho⟩ : ∃ x, Only s.vars x := by
    rcases hinv.phase with hi | ⟨x, k, hb⟩
    · have hr := hi.main
      rw [hm] at hr
      exact hr.resolve_left ha
    · exact ⟨x, hb.only⟩
  have h0 : s.vars.client_p 0 ≠ 0 := by
    rw [ho.first]
    exact ne_of_gt ho.pos
  have h1 : s.vars.client_p 1 = 0 := ho.rest 1 (by decide) (by decide)
  let s₁ : St := { s with
    vars := { s.vars with clientfd := fd, i := 0 }
    main := .test
    opened := fd :: s.opened }
  have hlt : 0 < 50 ∧ 1 < 50 := by decide
  obtain ⟨s₂, hs₂, hvars₂, hmain₂⟩ := pass_slot (s := s₁.keep) rfl hlt.1 h0
  have hfree : s₂.vars.client_p s₂.vars.i = 0 := by
    rw [hvars₂]
    exact h1
  have hi : s₂.vars.i < 50 := by
    rw [hvars₂]
    exact hlt.2
  obtain ⟨s₃, hs₃, hvars₃, hnew⟩ := fill_slot hmain₂ hi hfree
  have hother : s₃.vars.client_p 0 ≠ 0 := by
    rw [hvars₃, hvars₂]
    exact h0
  have hself : s₃.vars.client_p 1 ≠ 0 := by
    rw [hvars₃, hvars₂]
    exact ne_of_gt hfd
  obtain ⟨bs, g, y, hy, hsent⟩ :=
    newcomer (x := ⟨s₂.vars.clientfd, 0, .enter s₂.vars.i, [], []⟩) s₃.vars rfl hother hself
  obtain ⟨u, hu, hlast⟩ := run_handler hnew hy
  have hinit : sys.run [.main true] { s with
      vars.clientfd := fd, main := .init, opened := fd :: s.opened } = some s₁.keep := rfl
  refine ⟨_, u, Sys.run_trans hinit (Sys.run_trans hs₂ (Sys.run_trans hs₃ hu)), fun hiso => ?_⟩
  have hnodup := hiso.running _ y hlast
  rw [hsent] at hnodup
  exact (List.nodup_cons.1 hnodup).1 (List.mem_singleton_self _)

/-- The second client connects before the first handler has come to its `recv`. -/
def crossing : List Act := .accept 4 :: List.replicate 8 (.main true) ++
  [.accept 5, .handler 0 false, .handler 0 false]

/-- The handler of the first client receives from the second one. -/
theorem not_sessions_isolated : ∃ as s, sys.run as start = some s ∧ ¬ Isolated s := by
  have hr : (sys.run crossing start).map St.received = some [(4, 5)] := by decide +kernel
  obtain ⟨s, hs, hrec⟩ := Option.map_eq_some_iff.1 hr
  refine ⟨crossing, s, hs, fun h => ?_⟩
  have hsame := h.received (4, 5) (hrec ▸ List.mem_singleton_self _)
  exact absurd hsame (by decide)

/-- A client is served for one pass of the relay loop and goes, and then another one comes. -/
def successive : List Act :=
  .accept 4 :: List.replicate 8 (.main true) ++
  List.replicate 257 (.handler 0 false) ++ List.replicate 3 (.handler 0 true) ++
  .accept 5 :: List.replicate 8 (.main true) ++ List.replicate 2 (.handler 1 false)

theorem sessions_isolated_successive : ∃ s, sys.ReachableIf Alone s ∧ Isolated s ∧
    s.received = [(4, 4), (4, 4), (5, 5)] ∧ s.passes = [([(0, 4)], [4])] := by
  have hr : ((sys.runIf Alone successive start).map fun s => (s.received, s.passes)) =
      some ([(4, 4), (4, 4), (5, 5)], [([(0, 4)], [4])]) := by decide +kernel
  obtain ⟨s, hs, hlog⟩ := Option.map_eq_some_iff.1 hr
  have hreach : sys.ReachableIf Alone s := Sys.ReachableIf.runIf (.init rfl) hs
  exact ⟨s, hreach, sessions_isolated hreach, congrArg Prod.fst hlog, congrArg Prod.snd hlog⟩

end LinuxIpc.SlotChat.Globals
