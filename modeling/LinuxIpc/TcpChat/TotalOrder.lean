import LinuxIpc.Lib.Multicast
import LinuxIpc.Lib.Trace
import LinuxIpc.TcpChat.Integrity

namespace LinuxIpc.TcpChat
set_option autoImplicit true

open Function (update update_self update_of_ne update_eq_self)
open Multicast (Event heard saidBy inbox)

/-- No client leaves, and what the server calls succeeds. -/
def Staying (_ : St) : Act → Prop
  | .recv _ d => d ≠ []
  | .main ok | .handler _ ok => ok = true
  | .accept _ | .recvName _ | .memory _ => True

instance (s : St) (a : Act) : Decidable (Staying s a) :=
  match a with
  | .recv _ [] => .isFalse fun h => h rfl
  | .recv _ (b :: d) => .isTrue (List.cons_ne_nil b d)
  | .main ok | .handler _ ok => inferInstanceAs (Decidable (ok = true))
  | .accept _ | .recvName _ | .memory _ => .isTrue trivial

section Attending

/-- A handler that has not been told to leave. -/
def Handler.Pc.present : Handler.Pc → Bool
  | .absent | .start _ | .recv _ | .relay .. => true
  | _ => false

/-- Where nobody leaves, a slot that a handler has still to read is counted or about to be. -/
structure Attending (s : St) : Prop where
  inv : Inv s.toCore
  present : ∀ h, (s.handler h).pc.present
  slot : ∀ h slot, (s.handler h).pc = .start slot →
    slot < s.tbl.cnt ∨ slot = s.tbl.cnt ∧ s.main.counting.isSome

theorem Attending.start : Attending start := ⟨⟨0, .start⟩, fun _ => rfl, nofun⟩

theorem Attending.orderly (h : Attending s) (a : Act) : Orderly s a := by
  cases a with
  | accept cfd => trivial
  | recvName d => trivial
  | recv k d => trivial
  | memory b => trivial
  | main ok =>
    change s.main.Orderly s.toCore
    cases hm : s.main with
    | setCfd cfd =>
      intro k _
      have hp := h.present k
      constructor
      · cases hpc : (s.handler k).pc <;> simp_all [Handler.Pc.present, Handler.Pc.uncounting]
      · intro hu
        cases hpc : (s.handler k).pc with
        | start slot =>
          rw [hpc, Handler.Pc.unread, Option.some.injEq] at hu
          rcases h.slot k slot hpc with hlt | ⟨-, hc⟩
          · exact absurd hu (Nat.ne_of_lt hlt)
          · rw [hm] at hc
            cases hc
        | _ => rw [hpc] at hu; cases hu
    | _ => trivial
  | handler k ok =>
    have hp := h.present k
    unfold Orderly Handler.Pc.Orderly
    cases hpc : (s.handler k).pc <;> simp_all [Handler.Pc.present]

theorem present_setPc (h : ∀ k, (s.handler k).pc.present) (hp : pc.present = true) (k j : Nat) :
    ((St.setPc s k pc).handler j).pc.present := by
  by_cases hj : j = k
  · subst hj
    simp only [St.setPc, update_self]
    exact hp
  · simp only [St.setPc, update_of_ne hj]
    exact h j

/-- A handler that walks on after it has read its slot. -/
theorem slot_setPc {s : St} (h : Attending s) (hp : pc.unread = none) (k j slot : Nat)
    (hj : ((s.setPc k pc).handler j).pc = .start slot) :
    slot < s.tbl.cnt ∨ slot = s.tbl.cnt ∧ s.main.counting.isSome := by
  by_cases hjk : j = k
  · subst hjk
    simp only [St.setPc, update_self] at hj
    rw [hj] at hp
    cases hp
  · simp only [St.setPc, update_of_ne hjk] at hj
    exact h.slot j slot hj

theorem Attending.setPc {s u : St} (h : Attending s) (hi : Inv (u.setPc k pc).toCore)
    (hu : u.toCore = s.toCore) (hp : pc.present = true) (hr : pc.unread = none) :
    Attending (u.setPc k pc) := by
  have hcore : (u.setPc k pc).toCore = (s.setPc k pc).toCore := by
    simp only [St.setPc, hu]
  constructor
  · exact hi
  · rw [hcore]
    exact present_setPc h.present hp k
  · rw [hcore]
    exact slot_setPc h hr k

/-- `main` walks on where it is not about to count. -/
theorem Attending.walk {s t : St} (h : Attending s) (hi : Inv t.toCore)
    (hh : t.handler = s.handler) (hc : t.tbl.cnt = s.tbl.cnt) (hm : s.main.counting = none) :
    Attending t where
  inv := hi
  present k := hh ▸ h.present k
  slot k slot hk := by
    rw [hh] at hk
    rcases h.slot k slot hk with hlt | ⟨-, hs⟩
    · exact .inl (hc ▸ hlt)
    · rw [hm] at hs
      cases hs

/-- Where `main` and a handler go on from a call of `broadcast`. -/
def Main.after (cfd : Int) : Option Bcast → Main
  | some b => .bcast cfd b
  | none => .create cfd

def Handler.Pc.after (cl : Client) : Option Bcast → Handler.Pc
  | some b => .relay cl b
  | none => .recv cl

/-- The steps there are while nobody leaves. -/
inductive Stays (s : St) : Act → St → Prop
  | accept (hm : s.main = .accept) :
      Stays s (.accept cfd) { s.setMain (.recvName cfd) with live := cfd :: s.live }
  | recvName (hm : s.main = .recvName cfd) :
      Stays s (.recvName d) { s.setMain (.setCfd cfd) with tbl := s.tbl.recvName d }
  | setCfd (hm : s.main = .setCfd cfd) :
      Stays s (.main true) { s.setMain (.notice cfd) with tbl := s.tbl.setCfd cfd }
  | notice (hm : s.main = .notice cfd) :
      Stays s (.main true)
        (s.setMain (.call cfd (loginNotice (s.tbl.client s.tbl.cnt) s.behind.name)))
  | call (hm : s.main = .call cfd buf) :
      Stays s (.main true) (s.setMain (.bcast cfd ⟨.lock, buf, s.tbl.client s.tbl.cnt⟩))
  | bcast {u : St} (hm : s.main = .bcast cfd b) (hb : s.bcast 0 true b = some (u, b')) :
      Stays s (.main true) (u.setMain (.after cfd b'))
  | create (hm : s.main = .create cfd) :
      Stays s (.main true) { s.setMain (.count cfd) with
        handler := update s.handler s.created ⟨cfd, .start s.tbl.cnt⟩
        created := s.created + 1 }
  | count (hm : s.main = .count cfd) :
      Stays s (.main true) { s.setMain .accept with tbl := { s.tbl with cnt := s.tbl.cnt + 1 } }
  | start (hpc : (s.handler k).pc = .start slot) :
      Stays s (.handler k true) (s.setPc k (.recv (s.tbl.client slot)))
  | recv (hpc : (s.handler k).pc = .recv cl) :
      Stays s (.recv k d) (s.setPc k (.relay cl ⟨.lock, chatLine cl d s.behind, cl⟩))
  | relay {u : St} (hpc : (s.handler k).pc = .relay cl b)
      (hb : s.bcast (k + 1) true b = some (u, b')) :
      Stays s (.handler k true) (u.setPc k (.after cl b'))
  | memory : Stays s (.memory b) { s with behind := b }

theorem Attending.succ64 {s : St} (h : Attending s) (hm : s.main = .count cfd) :
    succ64 s.tbl.cnt = s.tbl.cnt + 1 := by
  obtain ⟨top, hi⟩ := h.inv
  have htop := hi.counting (by rw [hm]; rfl)
  have hlt := hi.top_lt
  exact succ64_eq (by omega)

theorem Attending.stays {s t : St} (h : Attending s) (hg : Staying s a)
    (hs : TcpChat.step s a = some t) : Stays s a t := by
  cases a with
  | accept cfd =>
    cases hm : s.main with
    | accept =>
      simp only [TcpChat.step, hm, Option.ite_none_right_eq_some, Option.some.injEq] at hs
      exact hs.2 ▸ .accept hm
    | _ => simp only [TcpChat.step, hm, reduceCtorEq] at hs
  | recvName d =>
    cases hm : s.main with
    | recvName cfd =>
      simp only [TcpChat.step, hm, Option.some.injEq] at hs
      exact hs ▸ .recvName hm
    | _ => simp only [TcpChat.step, hm, reduceCtorEq] at hs
  | recv k d =>
    cases hpc : (s.handler k).pc with
    | recv cl =>
      simp only [TcpChat.step, hpc, if_neg hg, Option.some.injEq] at hs
      exact hs ▸ .recv hpc
    | _ => simp only [TcpChat.step, hpc, reduceCtorEq] at hs
  | main ok =>
    obtain rfl : ok = true := hg
    change s.stepMain true = some t at hs
    unfold St.stepMain at hs
    cases hm : s.main with
    | accept => simp only [hm, reduceCtorEq] at hs
    | recvName cfd => simp only [hm, reduceCtorEq] at hs
    | setCfd cfd =>
      simp only [hm, Option.some.injEq] at hs
      exact hs ▸ .setCfd hm
    | notice cfd =>
      simp only [hm, Option.some.injEq] at hs
      exact hs ▸ .notice hm
    | call cfd buf =>
      simp only [hm, Option.some.injEq] at hs
      exact hs ▸ .call hm
    | bcast cfd b =>
      simp only [hm, Option.map_eq_some_iff, Prod.exists] at hs
      obtain ⟨u, b', hb, rfl⟩ := hs
      cases b' with
      | none => exact .bcast hm hb
      | some b' => exact .bcast hm hb
    | create cfd =>
      simp only [hm, if_true, Option.some.injEq] at hs
      exact hs ▸ .create hm
    | count cfd =>
      simp only [hm, Option.some.injEq, h.succ64 hm] at hs
      exact hs ▸ .count hm
  | handler k ok =>
    obtain rfl : ok = true := hg
    have hp := h.present k
    change s.stepHandler k true = some t at hs
    unfold St.stepHandler at hs
    cases hpc : (s.handler k).pc with
    | absent => simp only [hpc, reduceCtorEq] at hs
    | recv cl => simp only [hpc, reduceCtorEq] at hs
    | start slot =>
      simp only [hpc, Option.some.injEq] at hs
      exact hs ▸ .start hpc
    | relay cl b =>
      simp only [hpc, Option.map_eq_some_iff, Prod.exists] at hs
      obtain ⟨u, b', hb, rfl⟩ := hs
      cases b' with
      | none => exact .relay hpc hb
      | some b' => exact .relay hpc hb
    | _ => rw [hpc] at hp; cases hp
  | memory b => exact Option.some.inj hs ▸ .memory

theorem Attending.step {s t : St} (h : Attending s) (hg : Staying s a)
    (hs : TcpChat.step s a = some t) : Attending t := by
  have hi : Inv t.toCore := h.inv.step (h.orderly a) hs
  cases h.stays hg hs with
  | accept hm => exact h.walk hi rfl rfl (by rw [hm]; rfl)
  | recvName hm => exact h.walk hi rfl rfl (by rw [hm]; rfl)
  | setCfd hm => exact h.walk hi rfl rfl (by rw [hm]; rfl)
  | notice hm => exact h.walk hi rfl rfl (by rw [hm]; rfl)
  | call hm => exact h.walk hi rfl rfl (by rw [hm]; rfl)
  | @bcast cfd b b' u hm hb =>
    have hu := St.bcast_core hb
    have hh : u.handler = s.handler := congrArg Core.handler hu
    have hc : u.tbl.cnt = s.tbl.cnt := congrArg (fun c => c.tbl.cnt) hu
    exact h.walk hi hh hc (by rw [hm]; rfl)
  | create hm =>
    refine ⟨hi, fun k => ?_, fun k slot hk => ?_⟩
    · by_cases hk : k = s.created
      · subst hk
        simp only [update_self]
        rfl
      · simp only [update_of_ne hk]
        exact h.present k
    · by_cases hks : k = s.created
      · subst hks
        simp only [update_self, Handler.Pc.start.injEq] at hk
        exact .inr ⟨hk.symm, rfl⟩
      · simp only [update_of_ne hks] at hk
        rcases h.slot k slot hk with hlt | ⟨-, hc⟩
        · exact .inl hlt
        · rw [hm] at hc
          cases hc
  | count hm =>
    refine ⟨hi, h.present, fun k slot hk => ?_⟩
    rcases h.slot k slot hk with hlt | ⟨heq, -⟩
    · exact .inl (Nat.lt_succ_of_lt hlt)
    · exact .inl (heq ▸ Nat.lt_succ_self _)
  | start hpc => exact h.setPc hi rfl rfl rfl
  | recv hpc => exact h.setPc hi rfl rfl rfl
  | @relay k cl b b' u hpc hb =>
    have hu := St.bcast_core hb
    cases b' with
    | none => exact h.setPc hi hu rfl rfl
    | some b' => exact h.setPc hi hu rfl rfl
  | memory => exact ⟨hi, h.present, h.slot⟩

end Attending

section Log

/-- The call of `broadcast` that `main` or a handler is in. -/
def Main.inCall : Main → Option Bcast
  | .bcast _ b => some b
  | _ => none

def Handler.Pc.inCall : Handler.Pc → Option Bcast
  | .relay _ b | .bye _ b => some b
  | _ => none

/-- Calls by party: `main` is 0 and handler `h` is `h + 1`, as for the mutex. -/
def St.inCall (s : St) : Nat → Option Bcast
  | 0 => s.main.inCall
  | h + 1 => (s.handler h).pc.inCall

/-- A broadcast counts as said when its scan has come to the end of the table. -/
def St.finishes (s : St) (me : Nat) : List (Event Nat Int (List UInt8)) :=
  match s.inCall me with
  | some ⟨.test i, msg, c⟩ => if i < s.tbl.cnt then [] else [.said me c.cfd msg]
  | _ => []

/-- A client has joined from its `cnt++` on. -/
def St.counts (s : St) : List (Event Nat Int (List UInt8)) :=
  match s.main with
  | .count _ => [.joined (s.tbl.fd s.tbl.cnt)]
  | _ => []

def logged (s : St) : Act → List (Event Nat Int (List UInt8))
  | .main _ => s.counts ++ s.finishes 0
  | .handler h _ => s.finishes (h + 1)
  | _ => []

/-- What a step gives to a party to broadcast: to `main` the notice of a login, and to handler `h`
the line it has received. -/
def handed (me : Nat) (s : St) : Act → List (List UInt8)
  | .main _ =>
    match s.main with
    | .call _ buf => if me = 0 then [buf] else []
    | _ => []
  | .recv h d =>
    match (s.handler h).pc with
    | .recv cl => if me = h + 1 then [chatLine cl d s.behind] else []
    | _ => []
  | _ => []

theorem inCall_core {s u : St} (h : u.toCore = s.toCore) : u.inCall = s.inCall := by
  funext me
  cases me with
  | zero => simp only [St.inCall, h]
  | succ k => simp only [St.inCall, h]

theorem inCall_setMain (s : St) (m : Main) : (s.setMain m).inCall = update s.inCall 0 m.inCall := by
  funext me
  cases me with
  | zero => rfl
  | succ h => rfl

theorem inCall_setPc (s : St) (k : Nat) (pc : Handler.Pc) :
    (s.setPc k pc).inCall = update s.inCall (k + 1) pc.inCall := by
  funext me
  by_cases hme : me = k + 1
  · subst hme
    simp only [update_self, St.inCall, St.setPc]
  · rw [update_of_ne hme]
    cases me with
    | zero => rfl
    | succ h =>
      have hne : h ≠ k := fun he => hme (congrArg _ he)
      simp only [St.inCall, St.setPc, update_of_ne hne]

end Log

section Talks

def Bcast.Pc.place : Bcast.Pc → Multicast.Pc
  | .lock => .lock
  | .test i => .test i
  | .cmp i => .cmp i
  | .send i => .send i
  | .unlock => .unlock

/-- A call of `broadcast` goes through the descriptors and leaves one out. -/
def Bcast.call (b : Bcast) : Multicast.Call Int (List UInt8) := ⟨b.pc.place, b.msg, b.c.cfd⟩

/-- What the server's parties share, taken as a group. -/
structure Talks (s : St) (g : Multicast.St Nat Int (List UInt8)) : Prop where
  members : g.members = s.tbl.fds
  mutex : g.mutex = s.mutex
  call : g.call = fun me => (s.inCall me).map Bcast.call
  sent : g.sent = s.sent

variable {s t : St} {g : Multicast.St Nat Int (List UInt8)}

theorem Talks.of_eq (h : Talks s g) (hf : t.tbl.fds = s.tbl.fds) (hm : t.mutex = s.mutex)
    (hc : t.inCall = s.inCall) (hs : t.sent = s.sent) : Talks t g :=
  ⟨hf ▸ h.members, hm ▸ h.mutex, hc ▸ h.call, hs ▸ h.sent⟩

theorem map_update (f : Nat → Option Bcast) (me : Nat) (b : Option Bcast) :
    (fun p => (update f me b p).map Bcast.call) =
      update (fun p => (f p).map Bcast.call) me (b.map Bcast.call) := by
  funext p
  by_cases hp : p = me
  · subst hp
    simp only [update_self]
  · simp only [update_of_ne hp]

theorem getElem?_fds (t : Table) (h : i < t.cnt) : t.fds[i]? = some (t.client i).cfd := by
  rw [Table.fds, List.getElem?_map, List.getElem?_range h]
  rfl

/-- A statement of `broadcast` is a step of the group. -/
theorem Talks.bcast {u : St} (h : Talks s g) (hi : Multicast.Inv g) (hc : s.inCall me = some b)
    (hb : s.bcast me true b = some (u, b')) :
    ∃ g', Multicast.step g (.go me) = some g' ∧ g'.members = s.tbl.fds ∧ g'.mutex = u.mutex ∧
      g'.call = update g.call me (b'.map Bcast.call) ∧ g'.sent = u.sent ∧
      g'.log = g.log ++ s.finishes me ∧ g'.handed = g.handed := by
  obtain ⟨pc, msg, c⟩ := b
  have hcall : g.call me = some (Bcast.call ⟨pc, msg, c⟩) := by
    rw [h.call]
    simp only [hc, Option.map_some]
  have hok := hi.calls me _ hcall
  have hlen : g.members.length = s.tbl.cnt := by
    rw [h.members, Table.fds, List.length_map, List.length_range]
  have hstep : Multicast.step g (.go me) = g.go me (Bcast.call ⟨pc, msg, c⟩) := by
    rw [Multicast.step, hcall, Option.bind_some]
  rw [hstep]
  unfold St.bcast at hb
  unfold Multicast.St.go
  cases pc with
  | lock =>
    simp only [Option.ite_none_right_eq_some, Option.some.injEq, Prod.mk.injEq] at hb
    obtain ⟨hm, rfl, rfl⟩ := hb
    refine ⟨_, if_pos (h.mutex.trans hm), h.members, rfl, rfl, h.sent, ?_, rfl⟩
    simp only [St.finishes, hc, List.append_nil]
  | test i =>
    simp only [Option.some.injEq, Prod.mk.injEq] at hb
    obtain ⟨rfl, rfl⟩ := hb
    by_cases hlt : i < s.tbl.cnt
    · refine ⟨_, if_pos (hlen ▸ hlt), h.members, h.mutex, ?_, h.sent, ?_, rfl⟩
      · simp only [if_pos hlt]
        rfl
      · simp only [St.finishes, hc, if_pos hlt, List.append_nil]
    · refine ⟨_, if_neg (hlen ▸ hlt), h.members, h.mutex, ?_, h.sent, ?_, rfl⟩
      · simp only [if_neg hlt]
        rfl
      · simp only [St.finishes, hc, if_neg hlt]
        rfl
  | cmp i =>
    have hlt : i < s.tbl.cnt := hlen ▸ hok
    simp only [Option.some.injEq, Prod.mk.injEq] at hb
    obtain ⟨rfl, rfl⟩ := hb
    refine ⟨_, rfl, h.members, h.mutex, ?_, h.sent, ?_, rfl⟩
    · have hget : g.members[i]? = some (s.tbl.client i).cfd := by
        rw [h.members, getElem?_fds s.tbl hlt]
      simp only [hget, Option.some.injEq]
      by_cases hne : (s.tbl.client i).cfd = c.cfd
      · simp only [hne, Bcast.call, if_true, ne_eq, not_true_eq_false, if_false, Option.map_some]
        rfl
      · simp only [hne, Bcast.call, if_true, ne_eq, not_false_eq_true, if_false, Option.map_some]
        rfl
    · simp only [St.finishes, hc, List.append_nil]
  | send i =>
    have hlt : i < s.tbl.cnt := hlen ▸ hok.1
    simp only [Option.some.injEq, Prod.mk.injEq] at hb
    obtain ⟨rfl, rfl⟩ := hb
    have hget : g.members[i]? = some (s.tbl.client i).cfd := by
      rw [h.members, getElem?_fds s.tbl hlt]
    refine ⟨_, congrArg (Option.map _) hget, h.members, h.mutex, rfl, ?_, ?_, rfl⟩
    · simp only [h.sent]
      rfl
    · simp only [St.finishes, hc, List.append_nil]
  | unlock =>
    simp only [Option.some.injEq, Prod.mk.injEq] at hb
    obtain ⟨rfl, rfl⟩ := hb
    refine ⟨_, rfl, h.members, rfl, rfl, h.sent, ?_, rfl⟩
    simp only [St.finishes, hc, List.append_nil]

/-- What a step comes to in the group, with what it logs and what it hands over. -/
def Follows (s : St) (a : Act) (t : St) (g : Multicast.St Nat Int (List UInt8)) : Prop :=
  ∃ g', (g' = g ∨ ∃ b, Multicast.step g b = some g') ∧ Talks t g' ∧
    g'.log = g.log ++ logged s a ∧ ∀ me, g'.handed me = g.handed me ++ handed me s a

theorem Talks.silent (h : Talks t g) (hl : logged s a = []) (hh : ∀ me, handed me s a = []) :
    Follows s a t g := by
  refine ⟨g, .inl rfl, h, ?_, fun me => ?_⟩
  · rw [hl, List.append_nil]
  · rw [hh me, List.append_nil]

/-- `main` goes on outside of `broadcast`, and before its `cnt++`. -/
theorem Talks.silent_main (h : Talks s g) (hf : t.tbl.fds = s.tbl.fds) (hm : t.mutex = s.mutex)
    (hs : t.sent = s.sent) (hh : t.handler = s.handler) (hc : s.main.inCall = none)
    (hc' : t.main.inCall = none) (hcount : s.counts = [])
    (hcall : ∀ me, handed me s (.main true) = []) : Follows s (.main true) t g := by
  have hin : t.inCall = s.inCall := by
    funext me
    cases me with
    | zero => exact hc'.trans hc.symm
    | succ k => simp only [St.inCall, hh]
  refine (h.of_eq hf hm hin hs).silent ?_ hcall
  rw [logged, hcount, List.nil_append, St.finishes]
  simp only [St.inCall, hc]

theorem Talks.starts (h : Talks s g) (hc : s.inCall me = none) (msg : List UInt8) (c : Client)
    (ht : t.inCall = update s.inCall me (some ⟨.lock, msg, c⟩)) (hf : t.tbl = s.tbl)
    (hm : t.mutex = s.mutex) (hs : t.sent = s.sent) (hl : logged s a = [])
    (hh : ∀ p, handed p s a = if p = me then [msg] else []) : Follows s a t g := by
  have hnone : g.call me = none := by
    rw [h.call]
    simp only [hc, Option.map_none]
  refine ⟨_, .inr ⟨.call me msg c.cfd, if_pos (Option.isNone_iff_eq_none.2 hnone)⟩, ?_, ?_, ?_⟩
  · refine ⟨hf ▸ h.members, hm ▸ h.mutex, ?_, hs ▸ h.sent⟩
    rw [ht, map_update, h.call]
    rfl
  · rw [hl, List.append_nil]
  · intro p
    rw [hh p]
    by_cases hp : p = me
    · subst hp
      simp only [update_self, if_true]
    · simp only [update_of_ne hp, if_neg hp, List.append_nil]

/-- A statement of `broadcast`, after which its party goes on at `x`. -/
theorem Talks.goes {u : St} (h : Talks s g) (hi : Multicast.Inv g) (hc : s.inCall me = some b)
    (hb : s.bcast me true b = some (u, b')) (ht : t.inCall = update s.inCall me b')
    (hf : t.tbl = s.tbl) (hm : t.mutex = u.mutex) (hs : t.sent = u.sent)
    (hl : logged s a = s.finishes me) (hh : ∀ p, handed p s a = []) : Follows s a t g := by
  obtain ⟨g', hg, hmem, hmutex, hcall, hsent, hlog, hhand⟩ := h.bcast hi hc hb
  refine ⟨g', .inr ⟨_, hg⟩, ⟨hf ▸ hmem, hm ▸ hmutex, ?_, hs ▸ hsent⟩, hl ▸ hlog, fun p => ?_⟩
  · rw [hcall, ht, map_update, h.call]
  · rw [hhand, hh p, List.append_nil]

theorem fds_setCfd (t : Table) (cfd : Int) : (t.setCfd cfd).fds = t.fds := by
  rw [Table.fds, Table.fd_setCfd]
  apply List.map_congr_left
  intro i hi
  exact update_of_ne (Nat.ne_of_lt (List.mem_range.1 hi)) ..

theorem fds_count (t : Table) : Table.fds { t with cnt := t.cnt + 1 } = t.fds ++ [t.fd t.cnt] := by
  simp only [Table.fds, List.range_succ, List.map_append]
  rfl

theorem Attending.fresh (h : Attending s) (hm : s.main = .count cfd) :
    s.tbl.fd s.tbl.cnt ∉ s.tbl.fds := by
  obtain ⟨top, hi⟩ := h.inv
  have htop := hi.counting (by rw [hm]; rfl)
  intro hmem
  obtain ⟨p, -, hp, he⟩ := Slots.mem_map_range.1 hmem
  have heq := hi.inj p s.tbl.cnt (by omega) (by omega) he
  omega

/-- The new handler has not begun. -/
theorem Talks.create (h : Talks s g) (ha : Attending s) (hm : s.main = .create cfd) :
    Follows s (.main true) { s.setMain (.count cfd) with
      handler := update s.handler s.created ⟨cfd, .start s.tbl.cnt⟩
      created := s.created + 1 } g := by
  refine (h.of_eq (t := { s.setMain (.count cfd) with
    handler := update s.handler s.created ⟨cfd, .start s.tbl.cnt⟩
    created := s.created + 1 }) rfl rfl ?_ rfl).silent ?_ ?_
  · funext me
    cases me with
    | zero => simp only [St.inCall, hm]; rfl
    | succ k =>
      obtain ⟨top, hinv⟩ := ha.inv
      by_cases hk : k = s.created
      · subst hk
        simp only [St.inCall, update_self, hinv.absent s.created (Nat.le_refl _)]
        rfl
      · simp only [St.inCall, update_of_ne hk]
  · simp only [logged, St.counts, hm, St.finishes, St.inCall, Main.inCall, List.append_nil]
  · simp only [handed, hm, implies_true]

/-- With its `cnt++` the newcomer joins the group. -/
theorem Talks.count (h : Talks s g) (ha : Attending s) (hm : s.main = .count cfd) :
    Follows s (.main true)
      { s.setMain .accept with tbl := { s.tbl with cnt := s.tbl.cnt + 1 } } g := by
  have hfresh : s.tbl.fd s.tbl.cnt ∉ g.members := h.members ▸ ha.fresh hm
  refine ⟨_, .inr ⟨.join (s.tbl.fd s.tbl.cnt), if_pos hfresh⟩, ⟨?_, h.mutex, ?_, h.sent⟩, ?_, ?_⟩
  · simp only [h.members]
    exact (fds_count s.tbl).symm
  · simp only [h.call]
    funext me
    cases me with
    | zero => simp only [St.inCall, hm]; rfl
    | succ k => rfl
  · simp only [logged, St.counts, hm, St.finishes, St.inCall, Main.inCall, List.append_nil]
  · simp only [handed, hm, List.append_nil, implies_true]

theorem Talks.stays (h : Talks s g) (hi : Multicast.Inv g) (ha : Attending s)
    (hs : Stays s a t) : Follows s a t g := by
  cases hs with
  | accept hm =>
    refine (h.of_eq (t := { s.setMain (.recvName _) with live := _ :: s.live }) rfl rfl ?_
      rfl).silent rfl fun _ => rfl
    funext me
    cases me with
    | zero => simp only [St.inCall, hm]; rfl
    | succ k => rfl
  | recvName hm =>
    refine (h.of_eq (t := { s.setMain (.setCfd _) with tbl := s.tbl.recvName _ }) ?_ rfl ?_
      rfl).silent rfl fun _ => rfl
    · simp only [Table.fds, Table.fd_recvName]
      rfl
    · funext me
      cases me with
      | zero => simp only [St.inCall, hm]; rfl
      | succ k => rfl
  | setCfd hm =>
    refine h.silent_main (fds_setCfd ..) rfl rfl rfl (by rw [hm]; rfl) rfl ?_ ?_
    · simp only [St.counts, hm]
    · simp only [handed, hm, implies_true]
  | notice hm =>
    refine h.silent_main rfl rfl rfl rfl (by rw [hm]; rfl) rfl ?_ ?_
    · simp only [St.counts, hm]
    · simp only [handed, hm, implies_true]
  | @call cfd buf hm =>
    have hc : s.inCall 0 = none := by
      simp only [St.inCall, hm]
      rfl
    refine h.starts hc buf (s.tbl.client s.tbl.cnt) (inCall_setMain ..) rfl rfl rfl ?_ ?_
    · simp only [logged, St.counts, hm, St.finishes, hc, List.append_nil]
    · simp only [handed, hm, implies_true]
  | @bcast cfd b b' u hm hb =>
    have hc : s.inCall 0 = some b := by
      simp only [St.inCall, hm]
      rfl
    have hu := St.bcast_core hb
    have htbl : u.tbl = s.tbl := congrArg Core.tbl hu
    have hin : (u.setMain (.after cfd b')).inCall = update s.inCall 0 b' := by
      rw [inCall_setMain, inCall_core hu]
      cases b' with
      | none => rfl
      | some b' => rfl
    refine h.goes hi hc hb hin htbl rfl rfl ?_ ?_
    · simp only [logged, St.counts, hm, List.nil_append]
    · simp only [handed, hm, implies_true]
  | create hm => exact h.create ha hm
  | count hm => exact h.count ha hm
  | @start k slot hpc =>
    have hc : s.inCall (k + 1) = none := by
      simp only [St.inCall, hpc]
      rfl
    refine (h.of_eq (t := s.setPc k (.recv (s.tbl.client slot))) rfl rfl ?_ rfl).silent ?_ ?_
    · have hnone : (Handler.Pc.recv (s.tbl.client slot)).inCall = none := rfl
      rw [inCall_setPc, hnone, ← hc, update_eq_self]
    · simp only [logged, St.finishes, hc]
    · exact fun _ => rfl
  | @recv k cl d hpc =>
    have hc : s.inCall (k + 1) = none := by
      simp only [St.inCall, hpc]
      rfl
    refine h.starts hc (chatLine cl d s.behind) cl (inCall_setPc ..) rfl rfl rfl rfl ?_
    simp only [handed, hpc, implies_true]
  | @relay k cl b b' u hpc hb =>
    have hc : s.inCall (k + 1) = some b := by
      simp only [St.inCall, hpc]
      rfl
    have hu := St.bcast_core hb
    have htbl : u.tbl = s.tbl := congrArg Core.tbl hu
    have hin : (u.setPc k (.after cl b')).inCall = update s.inCall (k + 1) b' := by
      rw [inCall_setPc, inCall_core hu]
      cases b' with
      | none => rfl
      | some b' => rfl
    exact h.goes hi hc hb hin htbl rfl rfl rfl fun _ => rfl
  | @memory b =>
    have ht : Talks { s with behind := b } g := h.of_eq rfl rfl rfl rfl
    exact ht.silent (s := s) (a := .memory b) rfl fun _ => rfl

end Talks

/-- A run of the server is one of the group, in which is said what the server's steps log, and
asked for what they hand over. -/
theorem Talks.run {s t : St} {g : Multicast.St Nat Int (List UInt8)} (h : Talks s g)
    (hi : Multicast.Inv g) (ha : Attending s) (hr : sys.runIf Staying as s = some t) :
    ∃ g', Talks t g' ∧ Multicast.Inv g' ∧ Attending t ∧ g'.log = g.log ++ sys.trace logged as s ∧
      ∀ me, g'.handed me = g.handed me ++ sys.trace (handed me) as s := by
  induction as generalizing s g with
  | nil =>
    obtain rfl := Option.some.inj hr
    exact ⟨g, h, hi, ha, (List.append_nil _).symm, fun me => (List.append_nil _).symm⟩
  | cons a as ih =>
    obtain ⟨hg, hr⟩ := Option.ite_none_right_eq_some.1 hr
    obtain ⟨u, hu, hr⟩ := Option.bind_eq_some_iff.1 hr
    obtain ⟨g₁, hstep, h₁, hlog₁, hhand₁⟩ := h.stays hi ha (ha.stays hg hu)
    have hi₁ : Multicast.Inv g₁ := by
      rcases hstep with rfl | ⟨b, hb⟩
      · exact hi
      · exact hi.step hb
    obtain ⟨g₂, h₂, hi₂, ha₂, hlog₂, hhand₂⟩ := ih h₁ hi₁ (ha.step hg hu) hr
    refine ⟨g₂, h₂, hi₂, ha₂, ?_, fun me => ?_⟩
    · rw [hlog₂, hlog₁, Sys.trace_cons _ hu, List.append_assoc]
    · rw [hhand₂ me, hhand₁ me, Sys.trace_cons _ hu, List.append_assoc]

theorem Talks.start : Talks start Multicast.start := ⟨rfl, rfl, funext fun me => by
  cases me <;> rfl, rfl⟩

/-- While nobody leaves, the broadcasts come in one order for all: whenever none is on its way,
each client in the table has been sent, in that order, exactly what the others have said since its
`cnt++`, and whoever is not in `broadcast` has said all it was to say, in its own order. -/
theorem total_order (hr : sys.runIf Staying as start = some s) (hm : s.mutex = none) :
    (∀ y ∈ s.tbl.fds, inbox y s.sent = heard y (sys.trace logged as start)) ∧
      ∀ me, s.inCall me = none →
        saidBy me (sys.trace logged as start) = sys.trace (handed me) as start := by
  obtain ⟨g, h, hi, -, hlog, hhand⟩ := Talks.start.run .start .start hr
  have hlog' : g.log = sys.trace logged as TcpChat.start := hlog
  rw [← hlog']
  constructor
  · intro y hy
    rw [← h.sent]
    exact hi.inbox_eq (h.mutex.trans hm) (h.members ▸ hy)
  · intro me hc
    have hg : g.call me = none := by
      rw [h.call]
      simp only [hc, Option.map_none]
    exact (hi.handed_eq hg).trans (hhand me)

/-- A second client comes, and the first one sends a line. -/
def comeAndTalk : List Act :=
  [Act.accept 4, .recvName [65]] ++ List.replicate 8 (Act.main true) ++
  [Act.handler 0 true, .accept 5, .recvName [66]] ++ List.replicate 11 (Act.main true) ++
  [Act.recv 0 [72]] ++ List.replicate 8 (Act.handler 0 true)

theorem total_order_two : ∃ s, sys.runIf Staying comeAndTalk start = some s ∧
    s.tbl.fds = [4, 5] ∧ inbox 5 s.sent = [ascii "A :H"] ∧
    inbox 5 s.sent = heard 5 (sys.trace logged comeAndTalk start) := by
  have hr : ((sys.runIf Staying comeAndTalk start).map fun s =>
    (s.mutex, s.tbl.fds, inbox 5 s.sent)) = some (none, [4, 5], [ascii "A :H"]) := by
    decide +kernel
  obtain ⟨s, hs, he⟩ := Option.map_eq_some_iff.1 hr
  simp only [Prod.mk.injEq] at he
  obtain ⟨hm, hfds, hin⟩ := he
  refine ⟨s, hs, hfds, hin, (total_order hs hm).1 5 ?_⟩
  rw [hfds]
  decide

end LinuxIpc.TcpChat
