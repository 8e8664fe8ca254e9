import LinuxIpc.Lib.Family
import LinuxIpc.Lib.Transition
import LinuxIpc.TcpChat.Serial

namespace LinuxIpc.TcpChat.Handover
set_option autoImplicit true

open Function (update)
open Slots (From Distinct)

/-- A thread running `pthread_run`; what it has copied is kept after its end. -/
inductive Pc where
  | absent
  | start (slot : Nat)
  | recv (cl : Client)
  | done (cl : Client)

/-- `conn` records the connection a handler was created for. -/
structure Handler where
  conn : Int
  pc : Pc

structure St where
  tbl : Table
  handler : Nat → Handler
  created : Nat
  live : List Int
  sent : List (Int × List UInt8)
  behind : Behind

/-- Accept iterations, departures and messages are each one step, and only the start of a
handler is a step apart from its creation. -/
inductive Act where
  -- the bytes of the name, and whether `pthread_create` succeeds
  | accept (cfd : Int) (d : List UInt8) (ok : Bool) (fail : List Int)
  | start (h : Nat)
  | relay (h : Nat) (d : List UInt8) (fail : List Int)
  | leave (h : Nat) (fail : List Int)
  -- something else comes to stand behind the name fields and `buf`
  | memory (b : Behind)
  deriving DecidableEq, Repr

def St.setPc (s : St) (h : Nat) (pc : Pc) : St :=
  { s with handler := update s.handler h ⟨(s.handler h).conn, pc⟩ }

/-- `pthread_create(&id,NULL,pthread_run,(void*)(&client[cnt]));` -/
def St.create (s : St) (cfd : Int) (slot : Nat) : St := { s with
  handler := update s.handler s.created ⟨cfd, .start slot⟩
  created := s.created + 1 }

def St.accept (s : St) (cfd : Int) (d : List UInt8) (fail : List Int) : St := { s with
  tbl := s.tbl.login cfd d
  live := cfd :: s.live
  sent := s.sent ++ s.tbl.loginSends cfd d s.behind.name fail }

def St.leave (s : St) (cl : Client) (fail : List Int) : St := { s with
  tbl := s.tbl.leave cl
  live := s.live.filter (· ≠ cl.cfd)
  sent := s.sent ++ s.tbl.leaveSends cl s.behind.name fail }

def step (s : St) : Act → Option St
  | .accept cfd d ok fail =>
    if cfd ∉ s.live then
      some (if ok then (s.accept cfd d fail).create cfd s.tbl.cnt else s.accept cfd d fail)
    else none
  | .start h =>
    match (s.handler h).pc with
    | .start slot => some (s.setPc h (.recv (s.tbl.client slot)))
    | _ => none
  | .relay h d fail =>
    match (s.handler h).pc with
    | .recv cl =>
      some { s with sent := s.sent ++ s.tbl.broadcast (chatLine cl d s.behind) cl fail }
    | _ => none
  | .leave h fail =>
    match (s.handler h).pc with
    | .recv cl => some ((s.leave cl fail).setPc h (.done cl))
    | _ => none
  | .memory b => some { s with behind := b }

def start : St := ⟨.empty, fun _ => ⟨0, .absent⟩, 0, [], [], ⟨[], []⟩⟩

def sys : Sys St Act := ⟨(· = start), step⟩

def Pc.copied : Pc → Option Client
  | .absent | .start _ => none
  | .recv cl | .done cl => some cl

def Pc.recving : Pc → Option Client
  | .recv cl => some cl
  | _ => none

def Pc.alive : Pc → Bool
  | .start _ | .recv _ => true
  | .absent | .done _ => false

/-- The slot a handler has still to read. -/
def Pc.unread : Pc → Option Nat
  | .start slot => some slot
  | _ => none

/-- Every handler copied the descriptor of the connection it was created for, and no two live
ones the same. -/
def Served (s : St) : Prop :=
  (∀ h cl, (s.handler h).pc.copied = some cl → cl.cfd = (s.handler h).conn) ∧
  ∀ h k cl cl', (s.handler h).pc.recving = some cl → (s.handler k).pc.recving = some cl' →
    cl.cfd = cl'.cfd → h = k

/-- The slot that an accept iteration fills is in `client`, and no handler has still to read it. -/
def Free (s : St) : Act → Prop
  | .accept .. => s.tbl.cnt < MAX ∧ ∀ h < s.created, (s.handler h).pc.unread ≠ some s.tbl.cnt
  | _ => True

instance (s : St) (a : Act) : Decidable (Free s a) := by
  cases a <;> unfold Free <;> infer_instance

def HandlerOk (t : Table) (h : Handler) : Prop :=
  match h.pc with
  | .absent => True
  | .start slot => t.fd slot = h.conn ∧ From t.fd t.cnt h.conn 0
  | .recv cl => cl.cfd = h.conn ∧ From t.fd t.cnt h.conn 0
  | .done cl => cl.cfd = h.conn

structure Inv (s : St) : Prop where
  inj : Distinct s.tbl.fd s.tbl.cnt
  listed : ∀ f, From s.tbl.fd s.tbl.cnt f 0 → f ∈ s.live
  handler : ∀ h, HandlerOk s.tbl (s.handler h)
  conn_inj : ∀ h k, (s.handler h).pc.alive → (s.handler k).pc.alive →
    (s.handler h).conn = (s.handler k).conn → h = k
  absent : ∀ h, s.created ≤ h → (s.handler h).pc = .absent
  bound : s.tbl.cnt ≤ MAX

theorem Inv.keyed (h : Inv s) : Keyed (fun x => x.pc.alive) Handler.conn s.handler := h.conn_inj

/-- A handler in the place of one that was created is none beyond those created. -/
theorem Inv.absent_update (h : Inv s) (ha : (s.handler k).pc.alive) (j : Nat)
    (hj : s.created ≤ j) : (update s.handler k x j).pc = .absent := by
  have hjk : j ≠ k := by
    rintro rfl
    rw [h.absent j hj] at ha
    cases ha
  rw [Function.update_of_ne hjk]
  exact h.absent j hj

theorem HandlerOk.listed {h : Handler} (hok : HandlerOk t h) (ha : h.pc.alive) :
    From t.fd t.cnt h.conn 0 := by
  unfold HandlerOk at hok
  cases hpc : h.pc with
  | absent => rw [hpc] at ha; cases ha
  | start slot => rw [hpc] at hok; exact hok.2
  | recv cl => rw [hpc] at hok; exact hok.2
  | done cl => rw [hpc] at ha; cases ha

/-- The table may change under a handler that finds its connection and the slot it has still to
read as before. -/
theorem HandlerOk.congr {h : Handler} (hok : HandlerOk t h)
    (hs : ∀ slot, h.pc = .start slot → t'.fd slot = t.fd slot)
    (hin : h.pc.alive → From t'.fd t'.cnt h.conn 0) : HandlerOk t' h := by
  unfold HandlerOk at hok ⊢
  cases hpc : h.pc with
  | absent => trivial
  | start slot => rw [hpc] at hok hin; exact ⟨(hs slot hpc).trans hok.1, hin rfl⟩
  | recv cl => rw [hpc] at hok hin; exact ⟨hok.1, hin rfl⟩
  | done cl => rw [hpc] at hok; exact hok

theorem Inv.served (h : Inv s) : Served s := by
  have hcopied : ∀ k cl, (s.handler k).pc.copied = some cl → cl.cfd = (s.handler k).conn := by
    intro k cl hc
    have hok := h.handler k
    unfold HandlerOk at hok
    cases hpc : (s.handler k).pc with
    | absent => rw [hpc] at hc; cases hc
    | start slot => rw [hpc] at hc; cases hc
    | recv cl' => rw [hpc] at hc hok; exact Option.some.inj hc ▸ hok.1
    | done cl' => rw [hpc] at hc hok; exact Option.some.inj hc ▸ hok
  have hrecving : ∀ k cl, (s.handler k).pc.recving = some cl →
      (s.handler k).pc.alive ∧ (s.handler k).pc.copied = some cl := by
    intro k cl hc
    cases hpc : (s.handler k).pc with
    | recv cl' => rw [hpc] at hc; exact ⟨rfl, hc⟩
    | _ => rw [hpc] at hc; cases hc
  constructor
  · exact hcopied
  · intro i j cl cl' hi hj he
    obtain ⟨hai, hci⟩ := hrecving i cl hi
    obtain ⟨haj, hcj⟩ := hrecving j cl' hj
    apply h.conn_inj i j hai haj
    rw [← hcopied i cl hci, ← hcopied j cl' hcj, he]

theorem Inv.start : Inv start := by
  constructor
  case inj => intro p q hp; exact (Nat.not_lt_zero p hp).elim
  case listed => rintro f ⟨p, _, hp, _⟩; exact (Nat.not_lt_zero p hp).elim
  case handler => intro h; trivial
  case conn_inj => nofun
  case absent => intro h _; rfl
  case bound => exact Nat.zero_le _

theorem Inv.accept (h : Inv s) (d : List UInt8) (fail : List Int) (hn : cfd ∉ s.live)
    (hb : s.tbl.cnt < MAX) (hu : ∀ k, (s.handler k).pc.unread ≠ some s.tbl.cnt) :
    Inv (s.accept cfd d fail) := by
  have hcnt : (s.tbl.login cfd d).cnt = s.tbl.cnt + 1 :=
    s.tbl.login_cnt (by unfold MAX at hb; omega)
  have hfd := s.tbl.fd_login cfd d
  have hsame : ∀ p < s.tbl.cnt, s.tbl.fd p = (s.tbl.login cfd d).fd p := by
    intro p hp
    rw [hfd, Function.update_of_ne (Nat.ne_of_lt hp)]
  have hnew : (s.tbl.login cfd d).fd s.tbl.cnt = cfd := by rw [hfd, Function.update_self]
  have hfrom : ∀ f, From (s.tbl.login cfd d).fd (s.tbl.login cfd d).cnt f 0 ↔
      From s.tbl.fd s.tbl.cnt f 0 ∨ cfd = f := by
    intro f
    rw [hcnt, Slots.from_succ, hnew, Slots.from_congr hsame]
  exact { h with
    inj := by
      change Distinct (s.tbl.login cfd d).fd (s.tbl.login cfd d).cnt
      rw [hcnt]
      apply (h.inj.congr hsame).succ
      rw [hnew, ← Slots.from_congr hsame]
      exact fun hin => hn (h.listed cfd hin)
    listed := by
      intro f hf
      rcases (hfrom f).1 hf with hf | rfl
      · exact List.mem_cons_of_mem _ (h.listed f hf)
      · exact List.mem_cons_self ..
    handler := by
      intro k
      apply (h.handler k).congr
      · intro slot hk
        have hne : slot ≠ s.tbl.cnt := by
          rintro rfl
          exact hu k (by rw [hk]; rfl)
        change (s.tbl.login cfd d).fd slot = s.tbl.fd slot
        rw [hfd, Function.update_of_ne hne]
      · intro ha
        exact (hfrom _).2 (.inl ((h.handler k).listed ha))
    bound := hcnt ▸ hb }

/-- A handler is created for a connection that has none, on the slot of its entry. -/
theorem Inv.create (h : Inv s) (hne : ∀ k, (s.handler k).pc.alive → (s.handler k).conn ≠ cfd)
    (hs : s.tbl.fd slot = cfd) (hslot : slot < s.tbl.cnt) : Inv (s.create cfd slot) := by
  exact { h with
    handler := (Function.forall_update_iff _ fun _ => HandlerOk s.tbl).2
      ⟨⟨hs, slot, Nat.zero_le _, hslot, hs⟩, fun k _ => h.handler k⟩
    conn_inj := h.keyed.put fun _ j _ => hne j
    absent := by
      intro k hk
      have hlt : s.created < k := hk
      simp only [St.create, Function.update_of_ne (Nat.ne_of_gt hlt)]
      exact h.absent k (Nat.le_of_lt hlt) }

/-- A handler reads its slot. -/
theorem Inv.read (h : Inv s) (hpc : (s.handler k).pc = .start slot) :
    Inv (s.setPc k (.recv (s.tbl.client slot))) := by
  have hok := h.handler k
  rw [HandlerOk, hpc] at hok
  have ha : (s.handler k).pc.alive := by rw [hpc]; rfl
  exact { h with
    handler := (Function.forall_update_iff _ fun _ => HandlerOk s.tbl).2
      ⟨hok, fun j _ => h.handler j⟩
    conn_inj := h.keyed.replace ha rfl
    absent := h.absent_update ha }

theorem Inv.leave (h : Inv s) (hpc : (s.handler k).pc = .recv cl) :
    Inv ((s.leave cl fail).setPc k (.done cl)) := by
  have hok := h.handler k
  rw [HandlerOk, hpc] at hok
  obtain ⟨hcl, hin⟩ := hok
  have ha : (s.handler k).pc.alive := by rw [hpc]; rfl
  have hmax : s.tbl.cnt ≤ 2 ^ 64 := h.bound.trans (by decide)
  obtain ⟨i, hi, hfi, hcnt, hfd⟩ := Table.leave_eq cl (hcl ▸ hin) hmax
  have hfrom : ∀ f, From (s.tbl.leave cl).fd (s.tbl.leave cl).cnt f 0 ↔
      From s.tbl.fd s.tbl.cnt f 0 ∧ f ≠ cl.cfd := by
    intro f
    rw [hcnt, hfd, ← hfi]
    exact h.inj.from_moveLast hi
  have hne : ∀ j, j ≠ k → (s.handler j).pc.alive → (s.handler j).conn ≠ cl.cfd := by
    intro j hj haj he
    exact hj (h.conn_inj j k haj ha (he.trans hcl))
  constructor
  case inj =>
    change Distinct (s.tbl.leave cl).fd (s.tbl.leave cl).cnt
    rw [hcnt, hfd]
    exact h.inj.moveLast hi
  case listed =>
    intro f hf
    obtain ⟨hf, hne⟩ := (hfrom f).1 hf
    exact List.mem_filter.2 ⟨h.listed f hf, decide_eq_true hne⟩
  case handler =>
    apply (Function.forall_update_iff s.handler fun _ => HandlerOk (s.tbl.leave cl)).2
    apply And.intro hcl
    intro j hj
    apply (h.handler j).congr
    · intro slot hs
      have hokj := h.handler j
      rw [HandlerOk, hs] at hokj
      have hsi : slot ≠ i := by
        rintro rfl
        exact hne j hj (by rw [hs]; rfl) (hokj.1.symm.trans hfi)
      rw [hfd, Slots.moveLast_of_ne hsi]
    · intro haj
      exact (hfrom _).2 ⟨(h.handler j).listed haj, hne j hj haj⟩
  case conn_inj => exact h.keyed.drop rfl
  case absent => exact h.absent_update ha
  case bound =>
    change (s.tbl.leave cl).cnt ≤ MAX
    have hb := h.bound
    omega

theorem Inv.step (h : Inv s) (hg : Free s a) (ht : Handover.step s a = some t) : Inv t := by
  cases a with
  | accept cfd d ok fail =>
    obtain ⟨hn, rfl⟩ := of_guard ht
    have hu : ∀ k, (s.handler k).pc.unread ≠ some s.tbl.cnt := by
      intro k
      by_cases hk : k < s.created
      · exact hg.2 k hk
      · rw [h.absent k (Nat.le_of_not_lt hk)]
        nofun
    have hacc := h.accept d fail hn hg.1 hu
    cases ok with
    | false => exact hacc
    | true =>
      apply hacc.create
      · intro k hk he
        exact hn (he ▸ h.listed _ ((h.handler k).listed hk))
      · change (s.tbl.login cfd d).fd s.tbl.cnt = cfd
        rw [Table.fd_login, Function.update_self]
      · change s.tbl.cnt < (s.tbl.login cfd d).cnt
        rw [Table.login_cnt _ (by have := hg.1; unfold MAX at this; omega)]
        exact Nat.lt_succ_self _
  | start k =>
    cases hpc : (s.handler k).pc with
    | start slot =>
      simp only [Handover.step, hpc, Option.some.injEq] at ht
      exact ht ▸ h.read hpc
    | _ => simp only [Handover.step, hpc, reduceCtorEq] at ht
  | relay k d fail =>
    cases hpc : (s.handler k).pc with
    | recv cl =>
      simp only [Handover.step, hpc, Option.some.injEq] at ht
      exact ht ▸ { h with }
    | _ => simp only [Handover.step, hpc, reduceCtorEq] at ht
  | leave k fail =>
    cases hpc : (s.handler k).pc with
    | recv cl =>
      simp only [Handover.step, hpc, Option.some.injEq] at ht
      exact ht ▸ h.leave hpc
    | _ => simp only [Handover.step, hpc, reduceCtorEq] at ht
  | memory b => exact Option.some.inj ht ▸ { h with }

/-- The second client's handler starts late: the first client has left and a third one has taken
the slot by then. -/
theorem not_served : ∃ as s, sys.run as start = some s ∧ ¬ Served s := by
  refine ⟨[.accept 4 [65] true [], .accept 5 [66] true [], .start 0, .leave 0 [],
    .accept 6 [67] true [], .start 1], _, rfl, ?_⟩
  intro h
  have h5 := h.1 1 _ rfl
  revert h5
  decide

theorem handlers_served (h : sys.ReachableIf Free s) : Served s := by
  apply Inv.served
  apply h.invariant
  · rintro s rfl
    exact Inv.start
  · intro s a t hs hg ht
    exact hs.step hg ht

def startInTime : List Act :=
  [.accept 4 [65] true [], .accept 5 [66] true [], .start 0, .start 1, .leave 0 [],
    .accept 6 [67] true [], .start 2]

theorem served_in_time : ∃ s, sys.runIf Free startInTime start = some s ∧
    s.live = [6, 5] ∧ Served s := by
  have hr : ((sys.runIf Free startInTime start).map St.live) = some [6, 5] := by decide
  obtain ⟨s, hs, hl⟩ := Option.map_eq_some_iff.1 hr
  exact ⟨s, hs, hl, handlers_served (.runIf (.init rfl) hs)⟩

end LinuxIpc.TcpChat.Handover
