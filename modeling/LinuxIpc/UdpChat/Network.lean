import LinuxIpc.Lib.Family
import LinuxIpc.Lib.Transition
import LinuxIpc.UdpChat.Client
import LinuxIpc.UdpChat.Members
import Mathlib.Data.List.Perm.Basic
import Mathlib.Logic.Function.Basic

namespace LinuxIpc.UdpChat.Network
set_option autoImplicit true
set_option linter.unusedSectionVars false

open Function (update update_self update_of_ne)

variable {ι : Type u} [DecidableEq ι]

instance (t : UInt8) : Decidable (Known t) := inferInstanceAs (Decidable (_ ∨ _ ∨ _))

/-- The clients and, as `none`, the server: where their sockets are, what `msg` holds before it is
written, and what is typed. -/
structure World (ι : Type u) where
  addr : Option ι → SockaddrIn
  addr_inj : Function.Injective addr
  init : Option ι → Fields
  name : ι → List UInt8
  stdin : Option ι → List UInt8

structure Packet where
  src : SockaddrIn
  dst : SockaddrIn
  data : List UInt8
  deriving DecidableEq

/-- A client up to its `fork`, and its child from there on. -/
inductive Child
  | login
  | loop (c : Client)
  | kill
  | done

/-- `parent` is the `msg` of the parent, from the `fork` until it is killed; `printed` has what
`msg` held at each `printf`. -/
structure Peer where
  child : Child
  parent : Option Msg
  printed : List Msg

/-- `admin` is the child of the server; `said` records who has sent which message, and `net` has
the datagrams on their way. -/
structure St (ι : Type u) where
  server : Server
  admin : Client
  peer : ι → Peer
  said : List (Option ι × Msg)
  net : List Packet

/-- A datagram may be lost or come twice, and any one may be the next to arrive. -/
inductive Act (ι : Type u)
  | login (i : ι)
  | turn (i : ι)
  | kill (i : ι)
  | admin
  | serve (p : Packet)
  | print (i : ι) (p : Packet)
  | lose (p : Packet)
  | twice (p : Packet)

/-- One iteration of the loop in the child of the server. -/
def adminTurn (c : Client) : Client × Msg :=
  let msg := c.read.msg.strip
  let msg := { msg with name := msg.name.overwrite (ascii "server" ++ [0]), type := broadcast }
  ({ c.read with msg }, msg.msg)

/-- `sendto` the server. -/
def St.say (w : World ι) (s : St ι) (x : Option ι) (m : Msg) : St ι :=
  { s with said := s.said ++ [(x, m)], net := ⟨w.addr x, w.addr none, m.bytes⟩ :: s.net }

def step (w : World ι) (s : St ι) : Act ι → Option (St ι)
  | .login i =>
    match (s.peer i).child with
    | .login =>
      let c := begin (w.init (some i)) (w.name i) (w.stdin (some i))
      some { s.say w (some i) c.msg.msg with
        peer := update s.peer i { s.peer i with child := .loop c, parent := some c.msg.msg } }
    | _ => none
  | .turn i =>
    match (s.peer i).child with
    | .loop c =>
      let (c', m) := c.turn
      some { s.say w (some i) m.msg with
        peer := update s.peer i { s.peer i with
          child := if m.msg.type = quit then .kill else .loop c' } }
    | _ => none
  | .kill i =>
    match (s.peer i).child with
    | .kill => some { s with
        peer := update s.peer i { s.peer i with child := .done, parent := none } }
    | _ => none
  | .admin =>
    let (c, m) := adminTurn s.admin
    some { s.say w none m with admin := c }
  | .serve p =>
    if p ∈ s.net ∧ p.dst = w.addr none then
      let (server, sent) := receive s.server ⟨p.data, p.src⟩
      some { s with
        server := server
        net := sent.map (fun e => ⟨w.addr none, e.dst, e.msg.bytes⟩) ++ s.net.erase p }
    else none
  | .print i p =>
    match (s.peer i).parent with
    | some own =>
      if p ∈ s.net ∧ p.dst = w.addr (some i) then
        let msg := own.overwrite p.data
        some { s with
          peer := update s.peer i { s.peer i with
            parent := some msg
            printed := (s.peer i).printed ++ if Known (Msg.type msg) then [msg] else [] }
          net := s.net.erase p }
      else none
    | none => none
  | .lose p => if p ∈ s.net then some { s with net := s.net.erase p } else none
  | .twice p => if p ∈ s.net then some { s with net := p :: s.net } else none

def begun (w : World ι) (msg : Msg) : St ι :=
  ⟨UdpChat.start msg, ⟨w.stdin none, w.init none, 0⟩, fun _ => ⟨.login, none, []⟩, [], []⟩

def sys (w : World ι) : Sys (St ι) (Act ι) := ⟨fun s => ∃ msg, s = begun w msg, step w⟩

/-- Somebody else than `j` has sent `m`. -/
def St.Elsewhere (s : St ι) (j : ι) (m : Msg) : Prop := ∃ x, x ≠ some j ∧ (x, m) ∈ s.said

/-- What is on its way to the server has been sent by the one at its source, and what is on its
way to a client has been sent by another one. -/
def Packet.Ok (w : World ι) (s : St ι) (p : Packet) : Prop :=
  (p.dst = w.addr none ∧ ∃ x m, p.src = w.addr x ∧ p.data = Buf.bytes m ∧ (x, m) ∈ s.said) ∨
    ∃ j m, p.dst = w.addr (some j) ∧ p.data = Buf.bytes m ∧ s.Elsewhere j m

structure Inv (w : World ι) (s : St ι) : Prop where
  net : ∀ p ∈ s.net, p.Ok w s
  printed : ∀ j, ∀ m ∈ (s.peer j).printed, s.Elsewhere j m
  list : ∀ a ∈ s.server.H, ∃ i, a = w.addr (some i)
  admin : ∀ m, (none, m) ∈ s.said → m.type = broadcast

theorem mem_list_dispatch (ha : a ∈ (dispatch H msg x).1) : a ∈ H ∨ a = x ∧ msg.type = login := by
  unfold dispatch at ha
  split at ha
  · rename_i hl
    rcases List.mem_cons.1 ha with rfl | ha
    · exact .inr ⟨rfl, hl⟩
    · exact .inl ha
  · split at ha
    · exact .inl ha
    · split at ha
      · rw [processQuit_eq] at ha
        exact .inl (List.mem_filter.1 ha).1
      · exact .inl ha

theorem Packet.Ok.mono {w : World ι} {s t : St ι} {p : Packet} (h : p.Ok w s)
    (hs : s.said ⊆ t.said) : p.Ok w t := by
  rcases h with ⟨hd, x, m, hx, hm, hsaid⟩ | ⟨j, m, hd, hm, x, hx, hsaid⟩
  · exact .inl ⟨hd, x, m, hx, hm, hs hsaid⟩
  · exact .inr ⟨j, m, hd, hm, x, hx, hs hsaid⟩

namespace Inv

variable {w : World ι} {s t : St ι}

/-- Whatever else a step does that sends `m` to the server for `x`. -/
theorem say (h : Inv w s) (hserver : t.server = s.server)
    (hprinted : ∀ j, (t.peer j).printed = (s.peer j).printed)
    (hsaid : t.said = s.said ++ [(x, m)])
    (hnet : t.net = ⟨w.addr x, w.addr none, m.bytes⟩ :: s.net)
    (hx : x = none → m.type = broadcast) : Inv w t where
  net p hp := by
    have hsub : s.said ⊆ t.said := hsaid ▸ List.subset_append_left ..
    rw [hnet] at hp
    rcases List.mem_cons.1 hp with rfl | hp
    · refine .inl ⟨rfl, x, m, rfl, rfl, ?_⟩
      rw [hsaid]
      exact List.mem_append_right _ (List.mem_singleton_self _)
    · exact (h.net p hp).mono hsub
  printed j m' hm' := by
    rw [hprinted j] at hm'
    obtain ⟨y, hy, hmem⟩ := h.printed j m' hm'
    exact ⟨y, hy, hsaid ▸ List.mem_append_left _ hmem⟩
  list a ha := h.list a (hserver ▸ ha)
  admin m' hm' := by
    rw [hsaid] at hm'
    rcases List.mem_append.1 hm' with hm' | hm'
    · exact h.admin m' hm'
    · cases List.mem_singleton.1 hm'
      exact hx rfl

/-- A step that leaves what has been said and the member list as they are. -/
theorem pass (h : Inv w s) (hserver : t.server = s.server) (hsaid : t.said = s.said)
    (hnet : t.net ⊆ s.net)
    (hprinted : ∀ j, ∀ m ∈ (t.peer j).printed, s.Elsewhere j m) : Inv w t where
  net p hp := (h.net p (hnet hp)).mono (hsaid ▸ fun _ he => he)
  printed j m hm := by
    obtain ⟨x, hx, hmem⟩ := hprinted j m hm
    exact ⟨x, hx, hsaid ▸ hmem⟩
  list a ha := h.list a (hserver ▸ ha)
  admin m hm := h.admin m (hsaid ▸ hm)

theorem serve (h : Inv w s) (hp : p ∈ s.net) (hd : p.dst = w.addr none) :
    Inv w { s with
      server := (receive s.server ⟨p.data, p.src⟩).1
      net := (receive s.server ⟨p.data, p.src⟩).2.map
        (fun e => ⟨w.addr none, e.dst, e.msg.bytes⟩) ++ s.net.erase p } := by
  obtain ⟨-, x, m, hx, hm, hsaid⟩ | ⟨j, m, hj, -, -⟩ := h.net p hp
  case inr => exact absurd (w.addr_inj (hd.symm.trans hj)) (Option.some_ne_none j).symm
  have hmsg : s.server.msg.overwrite p.data = m := hm ▸ Msg.overwrite_msg s.server.msg m
  have hrec : receive s.server ⟨p.data, p.src⟩ =
      (⟨(dispatch s.server.H m (w.addr x)).1, m⟩, (dispatch s.server.H m (w.addr x)).2) := by
    rw [receive, hmsg, hx]
  rw [hrec]
  constructor
  case net =>
    intro q hq
    rcases List.mem_append.1 hq with hq | hq
    · obtain ⟨e, he, rfl⟩ := List.mem_map.1 hq
      obtain ⟨hem, hdst, hne⟩ := mem_dispatch he
      obtain ⟨j, hj⟩ := h.list e.dst hdst
      refine .inr ⟨j, m, hj, congrArg Buf.bytes hem, x, ?_, hsaid⟩
      rintro rfl
      exact hne hj
    · exact h.net q (List.mem_of_mem_erase hq)
  case printed => exact h.printed
  case list =>
    intro a ha
    rcases mem_list_dispatch ha with ha | ⟨rfl, hl⟩
    · exact h.list a ha
    · cases x with
      | none =>
        rw [h.admin m hsaid] at hl
        exact absurd hl (by decide)
      | some i => exact ⟨i, rfl⟩
  case admin => exact h.admin

theorem print (h : Inv w s) (hp : p ∈ s.net) (hd : p.dst = w.addr (some i)) (own : Msg)
    (hm : m ∈ if Known (Msg.type (own.overwrite p.data)) then [own.overwrite p.data] else []) :
    s.Elsewhere i m := by
  split at hm
  · obtain rfl := List.mem_singleton.1 hm
    obtain ⟨hn, -⟩ | ⟨j, m', hj, hm', hsaid⟩ := h.net p hp
    · exact absurd (w.addr_inj (hd.symm.trans hn)) (Option.some_ne_none i)
    · obtain rfl := Option.some.inj (w.addr_inj (hd.symm.trans hj))
      rw [hm', Msg.overwrite_msg]
      exact hsaid
  · cases hm

theorem step (h : Inv w s) (hs : Network.step w s a = some t) : Inv w t := by
  have hchild (i : ι) (c : Child) (q : Option Msg) (j : ι) :
      (update s.peer i { s.peer i with child := c, parent := q } j).printed =
        (s.peer j).printed :=
    update_same Peer.printed (x := ⟨c, q, (s.peer i).printed⟩) (f := s.peer) (k := i) rfl j
  unfold Network.step at hs
  split at hs
  · split at hs
    · exact Option.some.inj hs ▸ h.say rfl (hchild _ _ _) rfl rfl nofun
    · cases hs
  · split at hs
    · exact Option.some.inj hs ▸ h.say rfl (hchild _ _ _) rfl rfl nofun
    · cases hs
  · split at hs
    · refine Option.some.inj hs ▸ h.pass rfl rfl (fun _ hp => hp) fun j m hm => h.printed j m ?_
      exact hchild _ _ _ j ▸ hm
    · cases hs
  · exact Option.some.inj hs ▸ h.say rfl (fun _ => rfl) rfl rfl fun _ => rfl
  · obtain ⟨⟨hp, hd⟩, rfl⟩ := of_guard hs
    exact h.serve hp hd
  · split at hs
    · rename_i i p _ own hown
      obtain ⟨⟨hp, hd⟩, rfl⟩ := of_guard hs
      refine h.pass rfl rfl (fun _ hq => List.mem_of_mem_erase hq) fun j m hm => ?_
      by_cases hj : j = i
      · subst hj
        simp only [update_self] at hm
        rcases List.mem_append.1 hm with hm | hm
        · exact h.printed j m hm
        · exact h.print hp hd own hm
      · simp only [update_of_ne hj] at hm
        exact h.printed j m hm
    · cases hs
  · obtain ⟨hp, rfl⟩ := of_guard hs
    exact h.pass rfl rfl (fun _ hq => List.mem_of_mem_erase hq) h.printed
  · obtain ⟨hp, rfl⟩ := of_guard hs
    refine h.pass rfl rfl (fun q hq => ?_) h.printed
    rcases List.mem_cons.1 hq with rfl | hq
    · exact hp
    · exact hq

end Inv

theorem inv_of_reachable {w : World ι} {s : St ι} (h : (sys w).Reachable s) : Inv w s := by
  apply h.invariant
  · rintro _ ⟨msg, rfl⟩
    exact ⟨nofun, nofun, nofun, nofun⟩
  · intro s a t hi _ hs
    exact hi.step hs

/-- What is printed has been sent by another party, however many datagrams are lost, come twice or
overtake each other; a login or a quit is one of another client. -/
theorem printed_said {w : World ι} {s : St ι} (h : (sys w).Reachable s)
    (hm : m ∈ (s.peer j).printed) : (∃ x, x ≠ some j ∧ (x, m) ∈ s.said) ∧
      (m.type ≠ broadcast → ∃ i, i ≠ j ∧ (some i, m) ∈ s.said) := by
  have hi := inv_of_reachable h
  obtain ⟨x, hx, hsaid⟩ := hi.printed j m hm
  refine ⟨⟨x, hx, hsaid⟩, fun ht => ?_⟩
  cases x with
  | none => exact (ht (hi.admin m hsaid)).elim
  | some i => exact ⟨i, fun he => hx (congrArg some he), hsaid⟩

/-- Two clients, the second of which says hi. -/
def lounge : World Bool where
  addr
    | none => ⟨2, 1, 1, 0⟩
    | some false => ⟨2, 2, 1, 0⟩
    | some true => ⟨2, 3, 1, 0⟩
  addr_inj := by
    rintro (_ | _ | _) (_ | _ | _) h <;> first | rfl | exact absurd h (by decide)
  init _ := ⟨0, .zero 32, .zero 128⟩
  name
    | false => ascii "ann"
    | true => ascii "ben"
  stdin _ := ascii "hi" ++ [10]

def lounge.child (i : Bool) : Client :=
  begin (lounge.init (some i)) (lounge.name i) (lounge.stdin (some i))

def lounge.hi : Msg := (lounge.child true).turn.2.msg

/-- The way of a message from the second client to the first one. -/
def lounge.relay (m : Msg) : List (Act Bool) :=
  [.serve ⟨lounge.addr (some true), lounge.addr none, m.bytes⟩,
    .print false ⟨lounge.addr none, lounge.addr (some false), m.bytes⟩]

def lounge.acts : List (Act Bool) :=
  [.login false, .serve ⟨lounge.addr (some false), lounge.addr none, (child false).msg.msg.bytes⟩,
    .login true] ++ relay (child true).msg.msg ++ [.turn true] ++ relay hi

theorem printed_said_hi : ∃ s, (sys lounge).Reachable s ∧ lounge.hi ∈ (s.peer false).printed ∧
    ∃ x, x ≠ some false ∧ (x, lounge.hi) ∈ s.said := by
  have hr : (((sys lounge).run lounge.acts (begun lounge (.zero _))).map fun s =>
      decide (lounge.hi ∈ (s.peer false).printed)) = some true := by
    decide +kernel
  obtain ⟨s, hs, hm⟩ := Option.map_eq_some_iff.1 hr
  have hreach : (sys lounge).Reachable s := .of_run ⟨_, rfl⟩ hs
  exact ⟨s, hreach, of_decide_eq_true hm, (printed_said hreach (of_decide_eq_true hm)).1⟩

section Once

/-- No datagram comes twice. -/
def Once (_ : St ι) : Act ι → Prop
  | .twice _ => False
  | _ => True

instance (s : St ι) (a : Act ι) : Decidable (Once s a) := by
  cases a <;> unfold Once <;> infer_instance

def Child.logins : Child → Nat
  | .login => 1
  | _ => 0

/-- A login of `j` on its way to the server. -/
def Packet.Login (w : World ι) (j : ι) (p : Packet) : Prop :=
  p.src = w.addr (some j) ∧ p.dst = w.addr none ∧ p.data.headD 0 = login

/-- A message on its way to `j`, or to the server from another party. -/
def Packet.Bears (w : World ι) (j : ι) (m : Msg) (p : Packet) : Prop :=
  p.data = m.bytes ∧ (p.dst = w.addr (some j) ∨ p.dst = w.addr none ∧ p.src ≠ w.addr (some j))

instance (w : World ι) (j : ι) (p : Packet) : Decidable (p.Login w j) :=
  inferInstanceAs (Decidable (_ ∧ _))

instance (w : World ι) (j : ι) (m : Msg) (p : Packet) : Decidable (p.Bears w j m) :=
  inferInstanceAs (Decidable (_ ∧ _))

/-- The times others than `j` have sent `m`. -/
def St.times (s : St ι) (j : ι) (m : Msg) : Nat := s.said.countP fun e => e.1 ≠ some j ∧ e.2 = m

/-- A client is in the list once at most, and what it has printed and may still get of a message
does not exceed what others have sent of it. -/
structure Conserved (w : World ι) (s : St ι) : Prop where
  logins : ∀ j, s.server.H.count (w.addr (some j)) + s.net.countP (·.Login w j) +
    (s.peer j).child.logins ≤ 1
  flow : ∀ j m, (s.peer j).printed.count m + s.net.countP (·.Bears w j m) ≤ s.times j m

theorem Packet.login_iff {w : World ι} {p : Packet} (hx : p.src = w.addr x)
    (hm : p.data = Buf.bytes m₀) (hd : p.dst = w.addr none) (j : ι) :
    p.Login w j ↔ x = some j ∧ Msg.type m₀ = login := by
  rw [Packet.Login, hx, hm, hd, w.addr_inj.eq_iff]
  simp only [true_and]
  rfl

theorem Packet.bears_iff {w : World ι} {p : Packet} (hx : p.src = w.addr x)
    (hm : p.data = Buf.bytes m₀) (hd : p.dst = w.addr none) (j : ι) (m : Msg) :
    p.Bears w j m ↔ x ≠ some j ∧ m₀ = m := by
  rw [Packet.Bears, hx, hm, hd]
  simp only [ne_eq, w.addr_inj.eq_iff, true_and, reduceCtorEq, false_or]
  exact ⟨fun h => ⟨h.2, Buf.eq_of_bytes h.1⟩, fun h => ⟨congrArg Buf.bytes h.2, h.1⟩⟩

theorem countP_erase {net : List Packet} (hp : p ∈ net) (q : Packet → Prop) [DecidablePred q] :
    net.countP q = (net.erase p).countP q + if q p then 1 else 0 := by
  rw [(List.perm_cons_erase hp).countP_eq, List.countP_cons]
  simp only [decide_eq_true_eq]

theorem sendsTo_le (H : List SockaddrIn) (m : Msg) (x y : SockaddrIn) :
    sendsTo y (dispatch H m x).2 ≤ if x = y then 0 else H.count y := by
  by_cases ht : m.type = login ∨ m.type = broadcast ∨ m.type = quit
  · exact Nat.le_of_eq (sendsTo_dispatch H m x y ht)
  · rw [dispatch_unknown H m x ht]
    exact Nat.zero_le _

theorem countAfter_le (t : UInt8) (x y : SockaddrIn) (n : Nat) :
    countAfter t x y n ≤ n + if x = y ∧ t = login then 1 else 0 := by
  unfold countAfter
  by_cases hxy : x = y
  · by_cases hl : t = login
    · simp only [hxy, hl, ne_eq, not_true_eq_false, if_false, if_true, and_self, Nat.le_refl]
    · simp only [hxy, hl, ne_eq, not_true_eq_false, if_false, and_false, Nat.add_zero]
      split
      · exact Nat.zero_le _
      · exact Nat.le_refl _
  · simp only [hxy, ne_eq, not_false_eq_true, if_true, false_and, if_false, Nat.add_zero,
      Nat.le_refl]

namespace Conserved

variable {w : World ι} {s t : St ι}

theorem begun (w : World ι) (msg : Msg) : Conserved w (begun w msg) where
  logins _ := Nat.le_refl _
  flow _ _ := Nat.le_refl _

/-- A message is sent to the server: a login by the client that had it to send, or something
else. -/
theorem say (h : Conserved w s) (hserver : t.server = s.server)
    (hprinted : ∀ j, (t.peer j).printed = (s.peer j).printed)
    (hsaid : t.said = s.said ++ [(x, m)])
    (hnet : t.net = ⟨w.addr x, w.addr none, m.bytes⟩ :: s.net)
    (hchild : ∀ j, (t.peer j).child.logins ≤ (s.peer j).child.logins)
    (hlogin : ∀ j, x = some j → m.type = login →
      (t.peer j).child.logins < (s.peer j).child.logins) : Conserved w t where
  logins j := by
    have hl := h.logins j
    have hnew := Packet.login_iff (w := w) (p := ⟨w.addr x, w.addr none, m.bytes⟩) rfl rfl rfl j
    rw [hserver, hnet, List.countP_cons]
    simp only [decide_eq_true_eq, hnew]
    by_cases hx : x = some j ∧ m.type = login
    · have hc := hlogin j hx.1 hx.2
      rw [if_pos hx]
      omega
    · have hc := hchild j
      rw [if_neg hx]
      omega
  flow j m' := by
    have hf := h.flow j m'
    have hnew := Packet.bears_iff (w := w) (p := ⟨w.addr x, w.addr none, m.bytes⟩) rfl rfl rfl j m'
    simp only [St.times] at hf ⊢
    rw [hprinted, hnet, hsaid, List.countP_cons, List.countP_append, List.countP_singleton]
    simp only [decide_eq_true_eq, hnew]
    omega

/-- Datagrams go. -/
theorem pass (h : Conserved w s) (hserver : t.server = s.server) (hsaid : t.said = s.said)
    (hchild : ∀ j, (t.peer j).child.logins ≤ (s.peer j).child.logins)
    (hnet : ∀ (q : Packet → Prop) [DecidablePred q], t.net.countP q ≤ s.net.countP q)
    (hflow : ∀ j m, (t.peer j).printed.count m + t.net.countP (·.Bears w j m) ≤
      (s.peer j).printed.count m + s.net.countP (·.Bears w j m)) : Conserved w t where
  logins j := by
    have hl := h.logins j
    have hc := hchild j
    have hn := hnet (·.Login w j)
    rw [hserver]
    omega
  flow j m := by
    rw [St.times, hsaid]
    exact Nat.le_trans (hflow j m) (h.flow j m)

/-- The sends of an iteration carry the message on, once at most to each client. -/
theorem sent_bears (h : Conserved w s) (hi : Inv w s) (m₀ m : Msg) (x : Option ι) (j : ι) :
    ((dispatch s.server.H m₀ (w.addr x)).2.map
      (fun e => (⟨w.addr none, e.dst, e.msg.bytes⟩ : Packet))).countP (·.Bears w j m) ≤
      if x ≠ some j ∧ m₀ = m then 1 else 0 := by
  rw [List.countP_map]
  have hle : (dispatch s.server.H m₀ (w.addr x)).2.countP
      ((fun p => decide (Packet.Bears w j m p)) ∘ fun e => ⟨w.addr none, e.dst, e.msg.bytes⟩) ≤
      if m₀ = m then sendsTo (w.addr (some j)) (dispatch s.server.H m₀ (w.addr x)).2 else 0 := by
    have himp : ∀ e ∈ (dispatch s.server.H m₀ (w.addr x)).2,
        Packet.Bears w j m ⟨w.addr none, e.dst, e.msg.bytes⟩ →
          m₀ = m ∧ e.dst = w.addr (some j) := by
      rintro e he ⟨hdata, hdst⟩
      obtain ⟨hem, hH, -⟩ := mem_dispatch he
      refine ⟨hem ▸ Buf.eq_of_bytes hdata, hdst.resolve_right ?_⟩
      rintro ⟨hn, -⟩
      obtain ⟨i, hidst⟩ := hi.list e.dst hH
      exact absurd (w.addr_inj (hidst.symm.trans hn)) (Option.some_ne_none i)
    split
    · apply List.countP_mono_left
      intro e he hb
      exact decide_eq_true (himp e he (of_decide_eq_true hb)).2
    · rename_i hne
      apply Nat.le_of_eq
      rw [List.countP_eq_zero]
      intro e he hb
      exact hne (himp e he (of_decide_eq_true hb)).1
  have hsends := sendsTo_le s.server.H m₀ (w.addr x) (w.addr (some j))
  have hl := h.logins j
  have hx : w.addr x = w.addr (some j) ↔ x = some j := w.addr_inj.eq_iff
  simp only [hx] at hsends
  by_cases hm : m₀ = m
  · by_cases hxj : x = some j
    · simp only [hm, hxj, if_true] at hle hsends ⊢
      omega
    · simp only [hm, hxj, if_true, if_false, ne_eq, not_false_eq_true, and_self] at hle hsends ⊢
      omega
  · simp only [hm, if_false] at hle
    omega

theorem serve (h : Conserved w s) (hi : Inv w s) (hp : p ∈ s.net) (hd : p.dst = w.addr none) :
    Conserved w { s with
      server := (receive s.server ⟨p.data, p.src⟩).1
      net := (receive s.server ⟨p.data, p.src⟩).2.map
        (fun e => ⟨w.addr none, e.dst, e.msg.bytes⟩) ++ s.net.erase p } := by
  obtain ⟨-, x, m₀, hx, hm, -⟩ | ⟨j, m₀, hj, -, -⟩ := hi.net p hp
  case inr => exact absurd (w.addr_inj (hd.symm.trans hj)) (Option.some_ne_none j).symm
  have hmsg : s.server.msg.overwrite p.data = m₀ := hm ▸ Msg.overwrite_msg s.server.msg m₀
  have hrec : receive s.server ⟨p.data, p.src⟩ =
      (⟨(dispatch s.server.H m₀ (w.addr x)).1, m₀⟩, (dispatch s.server.H m₀ (w.addr x)).2) := by
    rw [receive, hmsg, hx]
  rw [hrec]
  constructor
  case logins =>
    intro j
    have hl := h.logins j
    have hcount : (dispatch s.server.H m₀ (w.addr x)).1.count (w.addr (some j)) ≤
        s.server.H.count (w.addr (some j)) +
          if w.addr x = w.addr (some j) ∧ Msg.type m₀ = login then 1 else 0 := by
      rw [count_dispatch]
      exact countAfter_le ..
    have hnone : ((dispatch s.server.H m₀ (w.addr x)).2.map
        (fun e => (⟨w.addr none, e.dst, e.msg.bytes⟩ : Packet))).countP (·.Login w j) = 0 := by
      rw [List.countP_eq_zero]
      intro q hq hlog
      obtain ⟨e, he, rfl⟩ := List.mem_map.1 hq
      obtain ⟨i, hidst⟩ := hi.list e.dst (mem_dispatch he).2.1
      exact absurd (w.addr_inj (hidst.symm.trans (of_decide_eq_true hlog).2.1))
        (Option.some_ne_none i)
    have herase := countP_erase hp (·.Login w j)
    simp only [Packet.login_iff hx hm hd] at herase
    simp only [w.addr_inj.eq_iff] at hcount
    rw [List.countP_append, hnone]
    simp only
    omega
  case flow =>
    intro j m
    have hf := h.flow j m
    have hsent := h.sent_bears hi m₀ m x j
    have herase := countP_erase hp (·.Bears w j m)
    simp only [Packet.bears_iff hx hm hd] at herase
    rw [List.countP_append]
    simp only [St.times] at hf ⊢
    omega

theorem printed_count {w : World ι} (hi : Inv w s) (hp : p ∈ s.net) (hd : p.dst = w.addr (some i))
    (own m : Msg) :
    (if Known (Msg.type (own.overwrite p.data)) then [own.overwrite p.data] else []).count m ≤
      if p.Bears w i m then 1 else 0 := by
  obtain ⟨hn, -⟩ | ⟨j, m₀, -, hm, -⟩ := hi.net p hp
  case inl => exact absurd (w.addr_inj (hd.symm.trans hn)) (Option.some_ne_none i)
  rw [hm, Msg.overwrite_msg]
  by_cases he : m₀ = m
  · have hb : p.Bears w i m := ⟨he ▸ hm, .inl hd⟩
    rw [if_pos hb]
    split
    · exact List.count_le_length
    · exact Nat.zero_le _
  · split
    · rw [List.count_singleton, if_neg fun hb => he (beq_iff_eq.1 hb)]
      exact Nat.zero_le _
    · exact Nat.zero_le _

theorem turn_ne_login (c : Client) : c.turn.2.msg.type ≠ login := by
  change (if (ascii "quit").isPrefixOf (cstr c.read.msg.strip.text.bytes) then quit
    else broadcast) ≠ login
  split <;> decide

/-- The child of `i` goes on. -/
theorem logins_update (hc : c.logins ≤ (s.peer i).child.logins) (q : Option Msg)
    (ms : List Msg) (j : ι) :
    (update s.peer i ⟨c, q, ms⟩ j).child.logins ≤ (s.peer j).child.logins := by
  by_cases hj : j = i
  · subst hj
    rw [update_self]
    exact hc
  · rw [update_of_ne hj]

theorem step (h : Conserved w s) (hi : Inv w s) (hg : Once s a)
    (hs : Network.step w s a = some t) : Conserved w t := by
  have hprinted (i : ι) (c : Child) (q : Option Msg) (j : ι) :
      (update s.peer i { s.peer i with child := c, parent := q } j).printed =
        (s.peer j).printed :=
    update_same Peer.printed (x := ⟨c, q, (s.peer i).printed⟩) (f := s.peer) (k := i) rfl j
  unfold Network.step at hs
  split at hs
  · split at hs
    · rename_i i _ hc
      refine Option.some.inj hs ▸ h.say rfl (hprinted _ _ _) rfl rfl (fun j => ?_) fun j hj _ => ?_
      · exact logins_update (Nat.zero_le _) _ _ j
      · obtain rfl := Option.some.inj hj
        simp only [update_self, hc, Child.logins]
        decide
    · cases hs
  · split at hs
    · rename_i i _ c hc
      refine Option.some.inj hs ▸ h.say rfl (hprinted _ _ _) rfl rfl (fun j => ?_) fun j _ hl => ?_
      · refine logins_update ?_ _ _ j
        split <;> exact Nat.zero_le _
      · exact absurd hl (turn_ne_login c)
    · cases hs
  · split at hs
    · rename_i i _ hc
      refine Option.some.inj hs ▸ h.pass rfl rfl (fun j => ?_) (fun _ _ => Nat.le_refl _) ?_
      · exact logins_update (Nat.zero_le _) _ _ j
      · intro j m
        rw [hprinted i .done none j]
    · cases hs
  · exact Option.some.inj hs ▸ h.say rfl (fun _ => rfl) rfl rfl (fun _ => Nat.le_refl _) nofun
  · obtain ⟨⟨hp, hd⟩, rfl⟩ := of_guard hs
    exact h.serve hi hp hd
  · split at hs
    · rename_i i p _ own hown
      obtain ⟨⟨hp, hd⟩, rfl⟩ := of_guard hs
      refine h.pass rfl rfl (fun j => ?_) (fun q _ => ?_) fun j m => ?_
      · exact logins_update (Nat.le_refl _) _ _ j
      · exact Nat.le_trans (Nat.le_add_right ..) (Nat.le_of_eq (countP_erase hp q).symm)
      · have herase := countP_erase hp (·.Bears w j m)
        by_cases hj : j = i
        · subst hj
          have hcount := printed_count hi hp hd own m
          simp only [update_self, List.count_append]
          omega
        · simp only [update_of_ne hj]
          omega
    · cases hs
  · obtain ⟨hp, rfl⟩ := of_guard hs
    refine h.pass rfl rfl (fun _ => Nat.le_refl _) (fun q _ => ?_) fun j m => ?_
    · exact Nat.le_trans (Nat.le_add_right ..) (Nat.le_of_eq (countP_erase hp q).symm)
    · have herase := countP_erase hp (·.Bears w j m)
      simp only
      omega
  · cases hg

end Conserved

/-- Where no datagram comes twice, a client prints a message at most as often as others have sent
it, in whatever order datagrams come. -/
theorem printed_le {w : World ι} {s : St ι} (h : (sys w).ReachableIf Once s) (j : ι) (m : Msg) :
    (s.peer j).printed.count m ≤ s.times j m := by
  have hc : Inv w s ∧ Conserved w s := by
    apply h.invariant (I := fun s => Inv w s ∧ Conserved w s)
    · rintro _ ⟨msg, rfl⟩
      exact ⟨⟨nofun, nofun, nofun, nofun⟩, .begun w msg⟩
    · rintro s a t ⟨hi, hc⟩ hg hs
      exact ⟨hi.step hs, hc.step hi hg hs⟩
  exact Nat.le_trans (Nat.le_add_right ..) (hc.2.flow j m)

theorem printed_le_hi : ∃ s, (sys lounge).ReachableIf Once s ∧
    (s.peer false).printed.count lounge.hi = 1 ∧
    (s.peer false).printed.count lounge.hi ≤ s.times false lounge.hi := by
  have hr : (((sys lounge).runIf Once lounge.acts (begun lounge (.zero _))).map fun s =>
      (s.peer false).printed.count lounge.hi) = some 1 := by
    decide +kernel
  obtain ⟨s, hs, hm⟩ := Option.map_eq_some_iff.1 hr
  have hreach : (sys lounge).ReachableIf Once s := .runIf (.init ⟨_, rfl⟩) hs
  exact ⟨s, hreach, hm, printed_le hreach false lounge.hi⟩

end Once

end LinuxIpc.UdpChat.Network
