import LinuxIpc.Procon.Sequential

namespace LinuxIpc.Procon.Sequential
set_option autoImplicit true

open Function (update update_self update_of_ne)
open ProdCons (Producer Consumer rounds product)

/-- The abstract machine, a stack of numbers: a producer puts five of its own on it, and a consumer
takes the five on top. -/
def Deed.serve (stock : List Nat) : Deed → Option (List Nat)
  | .thread .producer _ nums => if nums.length = rounds then some (nums.reverse ++ stock) else none
  | .thread .consumer _ nums =>
    if rounds ≤ stock.length ∧ nums = stock.take rounds then some (stock.drop rounds) else none
  | _ => some stock

def serve (deeds : List Deed) : Option (List Nat) := deeds.foldlM Deed.serve []

def Deed.id (k : Kind) : Deed → Option UInt64
  | .thread j self _ => if j = k then some self else none
  | _ => none

def ids (k : Kind) (deeds : List Deed) : List UInt64 := deeds.filterMap (Deed.id k)

theorem serve_append (deeds : List Deed) (d : Deed) :
    serve (deeds ++ [d]) = (serve deeds).bind fun stock => d.serve stock := by
  rw [serve, List.foldlM_append]
  apply congrArg
  funext stock
  rw [List.foldlM_cons]
  exact bind_pure _

theorem ids_append (k : Kind) (deeds : List Deed) (d : Deed) :
    ids k (deeds ++ [d]) = ids k deeds ++ (d.id k).toList := by
  rw [ids, List.filterMap_append]
  rfl

/-- Each producer has put five numbers on the stack, and each consumer has taken five. -/
theorem serve_length (h : serve deeds = some stock) :
    stock.length + rounds * (ids .consumer deeds).length =
      rounds * (ids .producer deeds).length := by
  induction deeds using List.reverseRecOn generalizing stock with
  | nil =>
    obtain rfl := Option.some.inj h
    rfl
  | append_singleton deeds d ih =>
    rw [serve_append] at h
    obtain ⟨old, hold, hd⟩ := Option.bind_eq_some_iff.1 h
    have hlen := ih hold
    rw [ids_append, ids_append, List.length_append, List.length_append]
    cases d with
    | thread k self nums =>
      cases k with
      | producer =>
        obtain ⟨hn, rfl⟩ := of_guard hd
        change _ + rounds * (ids .consumer deeds).length =
          rounds * ((ids .producer deeds).length + 1)
        rw [List.length_append, List.length_reverse, hn, Nat.mul_succ]
        omega
      | consumer =>
        obtain ⟨⟨hle, -⟩, rfl⟩ := of_guard hd
        change _ + rounds * ((ids .consumer deeds).length + 1) =
          rounds * (ids .producer deeds).length
        rw [List.length_drop, Nat.mul_succ]
        omega
    | _ =>
      obtain rfl := Option.some.inj hd
      exact hlen

/-- The number that a consumer has taken and not printed yet. -/
def held : Consumer → List Nat
  | .took _ n => [n]
  | _ => []

/-- The stack at `head` while a thread is at work on the stack `base` and has printed `nums`. -/
def Matches (base nums head : List Nat) : Body → Prop
  | .producer p => head = nums.reverse ++ base ∧ nums.length = p.pushes
  | .consumer c => base = nums ++ held c ++ head ∧ nums.length + (held c).length = c.pops

theorem Matches.start (k : Kind) (base : List Nat) : Matches base [] base k.body := by
  cases k <;> exact ⟨rfl, rfl⟩

theorem Matches.step (h : Matches base nums head b) (hb : b.step r head = some (b', head')) :
    Matches base (nums ++ (num r b).toList) head' b' := by
  rcases Body.step_cases hb with
    ⟨p, p', rfl, rfl, hp | ⟨hp, rfl⟩⟩ | ⟨c, c', rfl, rfl, hc | ⟨n, hc, rfl⟩⟩
  · obtain ⟨i, -, rfl, rfl, rfl⟩ := Producer.push_eq hp
    obtain ⟨rfl, hlen⟩ := h
    constructor
    · change _ = (nums ++ [product r]).reverse ++ base
      rw [List.reverse_append]
      rfl
    · change (nums ++ [product r]).length = i + 1
      rw [List.length_append, hlen]
      rfl
  · obtain ⟨i, rfl, rfl⟩ := Producer.signalled_eq hp
    change Matches base (nums ++ []) _ _
    rw [List.append_nil]
    exact h
  · obtain ⟨i, hi, ⟨rfl, rfl, rfl⟩ | ⟨n, rfl, rfl⟩⟩ := Consumer.enter_eq hc
    · have hn : num r (.consumer c) = none := by
        rcases hi with ⟨rfl, -⟩ | rfl <;> rfl
      rw [hn, Option.toList_none, List.append_nil]
      rcases hi with ⟨rfl, -⟩ | rfl <;> exact h
    · have hn : num r (.consumer c) = none := by
        rcases hi with ⟨rfl, -⟩ | rfl <;> rfl
      have hheld : held c = [] ∧ c.pops = i := by
        rcases hi with ⟨rfl, -⟩ | rfl <;> exact ⟨rfl, rfl⟩
      obtain ⟨hbase, hlen⟩ := h
      rw [hheld.1, List.append_nil] at hbase
      rw [hheld.1, hheld.2] at hlen
      rw [hn, Option.toList_none, List.append_nil]
      constructor
      · rw [hbase]
        exact (List.append_assoc nums [n] head').symm
      · exact congrArg (· + 1) hlen
  · obtain ⟨i, rfl, rfl⟩ := Consumer.print_eq hc
    obtain ⟨hbase, hlen⟩ := h
    constructor
    · change _ = (nums ++ [n]) ++ [] ++ head'
      rw [List.append_nil]
      exact hbase
    · change (nums ++ [n]).length + 0 = i + 1
      rw [List.length_append]
      exact hlen

theorem Matches.spurious (h : Matches base nums head b) (hb : b.spurious = some b') :
    Matches base nums head b' := by
  cases b with
  | producer p => cases hb
  | consumer c =>
    obtain ⟨-, rfl⟩ := of_guard hb
    cases c <;> exact h

/-- A thread that is through has done what it does on the stack of numbers. -/
theorem Matches.serve (h : Matches base nums head b) (he : b.ended = true) (hr : b.InRounds) :
    (Deed.thread b.kind self nums).serve base = some head := by
  obtain ⟨hpush, hpop⟩ := Body.ended_stock he hr
  cases b with
  | producer p =>
    obtain ⟨rfl, hlen⟩ := h
    exact if_pos (hlen.trans hpush)
  | consumer c =>
    obtain ⟨rfl, hlen⟩ := h
    have hheld : held c = [] := by
      cases c <;> first | rfl | cases he
    have hn : nums.length = rounds := by
      rw [hheld] at hlen
      exact hlen.trans hpop
    rw [hheld, List.append_nil]
    have hle : rounds ≤ (nums ++ head).length := by
      rw [List.length_append, hn]
      exact Nat.le_add_right ..
    have htake : nums = (nums ++ head).take rounds := by
      rw [← hn, List.take_left]
    refine (if_pos ⟨hle, htake⟩).trans ?_
    rw [← hn, List.drop_left]

/-- What the commands have come to is what the stack of numbers makes of them, and the arrays hold
the ids of the threads. -/
structure Settled (s : St) : Prop where
  stock : serve s.deeds = some s.head
  ids : ∀ k, ids k s.deeds = (List.range (s.count k)).map (s.tid k)

/-- The same of all but the thread that is at work on the stack `base`. -/
structure Working (s : St) (w : Worker) (b : Body) (base : List Nat) : Prop where
  kind : b.kind = w.kind
  rounds : b.InRounds
  stock : serve s.deeds = some base
  nums : Matches base w.nums s.head b
  ids : ∀ k, ids k s.deeds = (List.range (s.count k)).map (s.tid k)
  stored : w.nums ≠ [] → s.tid w.kind (s.count w.kind) = w.self

def WorkerOk (s : St) (w : Worker) : Prop :=
  match w.body with
  | some b => ∃ base, Working s w b base
  | none => Settled { s with deeds := s.deeds ++ [.thread w.kind w.self w.nums] }

/-- A thread that is asked for and not counted yet. -/
def St.due (s : St) (k : Kind) : Nat :=
  match s.main, s.thread with
  | .spawn j, _ => if j = k then 1 else 0
  | .join j, some ⟨_, _, some _, _⟩ => if j = k then 1 else 0
  | _, _ => 0

structure Kept (addr : Kind → UInt64) (s : St) : Prop where
  out : s.out = s.deeds.flatMap (Deed.reply addr)
  worker : ∀ w, s.thread = some w → s.main = .join w.kind ∧ WorkerOk s w
  idle : s.thread = none → (∀ k, s.main ≠ .join k) ∧ Settled s
  commands : s.deeds.map Deed.command ++ s.main.command = s.commands
  asked : ∀ k, s.asked k = s.count k + s.due k

theorem Kept.start : Kept addr start where
  out := rfl
  worker := nofun
  idle _ := ⟨nofun, rfl, fun _ => rfl⟩
  commands := rfl
  asked _ := rfl

/-- An id behind those that are counted leaves these as they are. -/
theorem map_store (s : St) (w : Worker) (k : Kind) :
    (List.range (s.count k)).map (s.store w k) = (List.range (s.count k)).map (s.tid k) := by
  apply List.map_congr_left
  intro i hi
  rw [St.store]
  by_cases hk : k = w.kind
  · subst hk
    rw [update_self, update_of_ne (Nat.ne_of_lt (List.mem_range.1 hi))]
  · rw [update_of_ne hk]

theorem Working.finish {s : St} (h : Working s w b base) (he : b.ended = true) :
    Settled { s.finish w with deeds := s.deeds ++ [.thread w.kind w.self w.nums] } where
  stock := by
    change serve (s.deeds ++ [.thread w.kind w.self w.nums]) = some s.head
    rw [serve_append, h.stock, Option.bind_some, ← h.kind]
    exact h.nums.serve he h.rounds
  ids k := by
    have hne : w.nums ≠ [] := by
      obtain ⟨hpush, hpop⟩ := Body.ended_stock he h.rounds
      have hn := h.nums
      intro hnil
      rw [hnil] at hn
      cases b with
      | producer p => exact absurd (show 0 = 5 from hn.2.trans hpush) (by decide)
      | consumer c =>
        have hheld : held c = [] := by
          cases c <;> first | rfl | cases he
        have hlen := hn.2.trans hpop
        rw [hheld] at hlen
        exact absurd (show 0 = 5 from hlen) (by decide)
    change Sequential.ids k (s.deeds ++ [_]) = (List.range (bump s.count w.kind k)).map (s.tid k)
    rw [ids_append, h.ids]
    by_cases hk : w.kind = k
    · subst hk
      rw [bump, update_self, List.range_succ, List.map_append, Deed.id, if_pos rfl,
        List.map_singleton, h.stored hne]
      rfl
    · rw [bump, update_of_ne (Ne.symm hk), Deed.id, if_neg hk, Option.toList_none, List.append_nil]

theorem Working.step {s : St} (h : Working s w b base) (hb : b.step r s.head = some (b', head))
    (hn : num r b = some n) :
    Working { s with
      tid := s.store w
      head := head
      thread := some { w with body := some b', nums := w.nums ++ [n] } }
      { w with body := some b', nums := w.nums ++ [n] } b' base where
  kind := (Body.step_stock hb h.rounds).1.trans h.kind
  rounds := (Body.step_stock hb h.rounds).2.1
  stock := h.stock
  nums := by
    have hm := h.nums.step hb
    rw [hn] at hm
    exact hm
  ids k := (h.ids k).trans (map_store s w k).symm
  stored _ := by
    change s.store w w.kind (s.count w.kind) = w.self
    rw [St.store, update_self, update_self]

theorem Working.quiet {s : St} (h : Working s w b base) (hb : b.step r s.head = some (b', head))
    (hn : num r b = none) :
    Working { s with head := head, thread := some { w with body := some b' } }
      { w with body := some b' } b' base where
  kind := (Body.step_stock hb h.rounds).1.trans h.kind
  rounds := (Body.step_stock hb h.rounds).2.1
  stock := h.stock
  nums := by
    have hm := h.nums.step hb
    rw [hn, Option.toList_none, List.append_nil] at hm
    exact hm
  ids := h.ids
  stored := h.stored

theorem Working.spurious {s : St} (h : Working s w b base) (hb : b.spurious = some b') :
    Working { s with thread := some { w with body := some b' } } { w with body := some b' } b'
      base where
  kind := (Body.spurious_stock hb).2.1.trans h.kind
  rounds := (Body.spurious_stock hb).2.2.2.2 h.rounds
  stock := h.stock
  nums := h.nums.spurious hb
  ids := h.ids
  stored := h.stored

/-- A creation is due from the `read` on. -/
theorem asked_receive {s : St} (h : s.asked k = s.count k) (hw : s.thread = none)
    (str : List UInt8) : (s.receive str).asked k = s.count k + (s.receive str).due k := by
  have hdue : (s.receive str).due k = if interpret str = .create k then 1 else 0 := by
    rw [St.due, St.receive]
    dsimp only
    rw [hw]
    cases interpret str with
    | create j =>
      simp only [Command.main, Command.create.injEq]
    | ask q => rfl
  rw [hdue, ← h]
  change (s.commands ++ [interpret str]).count (.create k) = _
  rw [List.count_append, List.count_singleton]
  simp only [beq_iff_eq, St.asked]

theorem Kept.idle_thread {s : St} (h : Kept addr s) (hm : ∀ k, s.main ≠ .join k) :
    s.thread = none := by
  cases hth : s.thread with
  | none => rfl
  | some w => exact (hm _ (h.worker w hth).1).elim

/-- The thread at work is the one that is due. -/
theorem due_working {s : St} (hm : s.main = .join j) (hw : s.thread = some w)
    (hb : w.body = some b) (k : Kind) : s.due k = if j = k then 1 else 0 := by
  obtain ⟨kind, self, body, nums⟩ := w
  obtain rfl : body = some b := hb
  rw [St.due, hm, hw]

theorem Kept.working {s : St} (h : Kept addr s) (hw : s.thread = some w) (hb : w.body = some b) :
    s.main = .join w.kind ∧ ∃ base, Working s w b base := by
  obtain ⟨hm, hok⟩ := h.worker w hw
  rw [WorkerOk, hb] at hok
  exact ⟨hm, hok⟩

theorem Kept.finish {s : St} (h : Kept addr s) (hw : s.thread = some w) (hb : w.body = some b)
    (he : b.ended = true) : Kept addr (s.finish w) := by
  obtain ⟨hm, base, hok⟩ := h.working hw hb
  refine ⟨h.out, ?_, nofun, h.commands, ?_⟩
  · rintro _ ⟨⟩
    exact ⟨hm, hok.finish he⟩
  · intro k
    have hdue : (s.finish w).due k = 0 := by
      rw [St.due]
      change (s.finish w).main = .join w.kind at hm
      rw [hm]
      rfl
    rw [hdue]
    change s.asked k = bump s.count w.kind k
    rw [h.asked, due_working hm hw hb, bump]
    by_cases hk : w.kind = k
    · subst hk
      rw [update_self, if_pos rfl]
    · rw [update_of_ne (Ne.symm hk), if_neg hk]
      rfl

/-- A thread moves, and is not through yet. -/
theorem Kept.move {s : St} (h : Kept addr s) (hw : s.thread = some w) (hb : w.body = some b)
    (hmain : t.main = s.main) (hout : t.out = s.out) (hdeeds : t.deeds = s.deeds)
    (hcount : t.count = s.count) (hcmds : t.commands = s.commands) (hw' : t.thread = some w')
    (hb' : w'.body = some b') (hkind : w'.kind = w.kind) (hok : Working t w' b' base) :
    Kept addr t := by
  obtain ⟨hm, -⟩ := h.working hw hb
  refine ⟨by rw [hout, hdeeds, h.out], ?_, ?_, by rw [hdeeds, hmain, hcmds, h.commands], ?_⟩
  · intro x hx
    obtain rfl := Option.some.inj (hw'.symm.trans hx)
    rw [WorkerOk, hb', hmain, hkind]
    exact ⟨hm, base, hok⟩
  · intro hx
    cases hw'.symm.trans hx
  · intro k
    rw [St.asked, hcmds, ← St.asked, h.asked, hcount, due_working hm hw hb,
      due_working (hmain.trans hm) hw' hb']

theorem Kept.receive {s : St} (h : Kept addr s) (hm : s.main = .read) (str : List UInt8) :
    Kept addr (s.receive str) := by
  have hth := h.idle_thread (by rw [hm]; nofun)
  obtain ⟨-, hset⟩ := h.idle hth
  have hasked : ∀ k, s.asked k = s.count k := by
    intro k
    rw [h.asked, St.due, hm]
    rfl
  have hcmds := h.commands
  rw [hm, Main.command, List.append_nil] at hcmds
  refine ⟨h.out, fun w hw => (by cases hth.symm.trans hw), fun _ => ⟨?_, hset.stock, hset.ids⟩,
    ?_, fun k => asked_receive (hasked k) hth _⟩
  · intro k
    rw [St.receive]
    dsimp only
    cases interpret str <;> nofun
  · change s.deeds.map Deed.command ++ _ = s.commands ++ [interpret str]
    rw [hcmds, St.receive]
    dsimp only
    cases interpret str <;> rfl

theorem Kept.spawn {s : St} (h : Kept addr s) (hm : s.main = .spawn k) (self : UInt64) :
    Kept addr { s with main := .join k, thread := some ⟨k, self, some k.body, []⟩ } := by
  obtain ⟨-, hset⟩ := h.idle (h.idle_thread (by rw [hm]; nofun))
  have hcmds := h.commands
  rw [hm] at hcmds
  refine ⟨h.out, ?_, nofun, hcmds, ?_⟩
  · rintro _ ⟨⟩
    refine ⟨rfl, s.head, ?_, ?_, hset.stock, .start k s.head, hset.ids, fun hn => (hn rfl).elim⟩
    · cases k <;> rfl
    · cases k <;> exact Nat.zero_le _
  · intro j
    change s.asked j = s.count j + if k = j then 1 else 0
    rw [h.asked, St.due, hm]

/-- What the thread has done is done for good. -/
theorem Kept.join {s : St} (h : Kept addr s) (hm : s.main = .join k)
    (hw : s.thread = some ⟨j, self, none, nums⟩) :
    Kept addr { s with
      main := .read, thread := none, deeds := s.deeds ++ [.thread j self nums] } := by
  obtain ⟨-, hok⟩ := h.worker _ hw
  have hcmds := h.commands
  rw [hm, Main.join.inj (hm.symm.trans (h.worker _ hw).1)] at hcmds
  refine ⟨?_, nofun, fun _ => ⟨nofun, hok.stock, hok.ids⟩, ?_, ?_⟩
  · rw [List.flatMap_append, ← h.out]
    exact (List.append_nil _).symm
  · rw [List.map_append, ← hcmds]
    exact List.append_nil _
  · intro k
    change s.asked k = s.count k + 0
    rw [h.asked, St.due, hm, hw]

theorem Kept.reply {s : St} (h : Kept addr s) (hm : s.main = .reply q exit) (ok : Bool) :
    Kept addr { s with
      main := if exit then .left else .read
      deeds := s.deeds ++ [q.deed ok]
      out := s.out ++ (q.deed ok).reply addr } := by
  have hth := h.idle_thread (by rw [hm]; nofun)
  obtain ⟨-, hset⟩ := h.idle hth
  have hcmds := h.commands
  rw [hm] at hcmds
  refine ⟨?_, fun w hw => (by cases hth.symm.trans hw), fun _ => ⟨?_, ?_, ?_⟩, ?_, ?_⟩
  · rw [List.flatMap_append, ← h.out, List.flatMap_singleton]
  · cases exit <;> nofun
  · rw [serve_append, hset.stock]
    cases q <;> rfl
  · intro k
    rw [ids_append, hset.ids]
    cases q <;> exact List.append_nil _
  · rw [List.map_append, ← hcmds]
    cases exit <;> cases q <;> exact List.append_nil _
  · intro k
    change s.asked k = _
    rw [h.asked, St.due, St.due, hm]
    cases exit <;> rfl

theorem Kept.killed {s : St} (h : Kept addr s) (hm : s.main = .reply q exit) :
    Kept addr { s with main := .killed q } := by
  have hth := h.idle_thread (by rw [hm]; nofun)
  obtain ⟨-, hset⟩ := h.idle hth
  have hcmds := h.commands
  rw [hm] at hcmds
  refine ⟨h.out, fun w hw => (by cases hth.symm.trans hw),
    fun _ => ⟨nofun, hset.stock, hset.ids⟩, hcmds, ?_⟩
  intro k
  change s.asked k = s.count k + 0
  rw [h.asked, St.due, hm]

theorem Kept.step {s : St} (h : Kept addr s) (ht : Sequential.step addr s a = some t) :
    Kept addr t := by
  cases move_of_step ht with
  | read hm => exact h.receive hm _
  | spawn hm => exact h.spawn hm _
  | join hm hw => exact h.join hm hw
  | reply hm => exact h.reply hm _
  | killed hm => exact h.killed hm
  | finish hw hb he => exact h.finish hw hb he
  | print hw hb hstep hn hlt =>
    obtain ⟨-, base, hok⟩ := h.working hw hb
    exact h.move hw hb rfl rfl rfl rfl rfl rfl rfl rfl (hok.step hstep hn)
  | quiet hw hb hstep hn =>
    obtain ⟨-, base, hok⟩ := h.working hw hb
    exact h.move hw hb rfl rfl rfl rfl rfl rfl rfl rfl (hok.quiet hstep hn)
  | spurious hw hb hspur =>
    obtain ⟨-, base, hok⟩ := h.working hw hb
    exact h.move hw hb rfl rfl rfl rfl rfl rfl rfl rfl (hok.spurious hspur)

theorem kept_of_reachable (hs : (sys addr).Reachable s) : Kept addr s := by
  apply hs.invariant
  · rintro s rfl
    exact .start
  · intro s a t h _ ht
    exact h.step ht

/-- What `procon` has done while no thread of its is at work: the commands read, but for one that
is being answered, have been carried out in their order; the stack at `head` and the numbers
printed are those of the stack of numbers; each command has had its reply; and the arrays hold the
ids of all threads. -/
structure Served (addr : Kind → UInt64) (s : St) : Prop where
  commands : s.deeds.map Deed.command ++ s.main.command = s.commands
  stock : serve s.deeds = some s.head
  out : s.out = s.deeds.flatMap (Deed.reply addr)
  ids : ∀ k, ids k s.deeds = (List.range (s.count k)).map (s.tid k)

theorem serves_stack (hs : (sys addr).Reachable s) (hth : s.thread = none) : Served addr s := by
  have h := kept_of_reachable hs
  obtain ⟨-, hset⟩ := h.idle hth
  exact ⟨h.commands, hset.stock, h.out, hset.ids⟩

/-- A producer, and a listing after it. -/
def produced : List Act :=
  [.read (ascii "create producer\n") [], .spawn 7, .thread 0, .thread 0, .thread 1, .thread 0,
    .thread 2, .thread 0, .thread 3, .thread 0, .thread 4, .thread 0, .thread 0, .join,
    .read (ascii "list producer\n") [], .reply false true]

theorem serves_stack_produced : ∃ s, (sys fun _ => 0).run produced start = some s ∧
    s.head = [5, 4, 3, 2, 1] ∧ s.deeds.length = 2 ∧ Served (fun _ => 0) s := by
  have hr : ((sys fun _ => 0).run produced start).map
      (fun s => (s.thread, s.head, s.deeds.length)) = some (none, [5, 4, 3, 2, 1], 2) := by decide
  obtain ⟨s, hs, he⟩ := Option.map_eq_some_iff.1 hr
  simp only [Prod.mk.injEq] at he
  obtain ⟨hth, hhead, hlen⟩ := he
  exact ⟨s, hs, hhead, hlen, serves_stack (.of_run rfl hs) hth⟩

end LinuxIpc.Procon.Sequential
