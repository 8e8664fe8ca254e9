import LinuxIpc.Lib.Transition
import LinuxIpc.TcpChat.Serial

namespace LinuxIpc.TcpChat.Roster
set_option autoImplicit true

deriving instance DecidableEq for Client

/-- The server with each event executed to its end before the next one; `live` are the open
connections as they logged in, each with the handler that has this copy of its entry. -/
structure St where
  table : Table
  live : List Client

/-- Each with what stands behind the strings that it reads. -/
inductive Event where
  -- the bytes of the name; none arrive where `recv` fails or returns 0
  | accept (cfd : Int) (d behind : List UInt8)
  | line (cl : Client) (d : List UInt8) (b : Behind)
  -- `recv` returns at most 0
  | leave (cl : Client) (behind : List UInt8)

/-- The descriptor of the connection that an event concerns. -/
def Event.cfd : Event → Int
  | .accept cfd _ _ => cfd
  | .line cl _ _ | .leave cl _ => cl.cfd

def others (live : List Client) (cfd : Int) : List Client := live.filter fun c => c.cfd ≠ cfd

def step (s : St) : Event → Option St
  | .accept cfd d _ =>
    if cfd ∉ s.live.map Client.cfd ∧ s.live.length < MAX ∧ d.length ≤ 40 then
      some ⟨s.table.login cfd d, s.table.entry cfd d :: s.live⟩
    else none
  | .line cl d b =>
    if cl ∈ s.live ∧ d ≠ [] ∧ d.length ≤ 1024 - (linePrefix cl b.name).length then some s else none
  | .leave cl _ => if cl ∈ s.live then some ⟨s.table.leave cl, others s.live cl.cfd⟩ else none

/-- What the event sends, where no `send` fails. -/
def St.sends (s : St) : Event → List (Int × List UInt8)
  | .accept cfd d behind => s.table.loginSends cfd d behind []
  | .line cl d b => s.table.broadcast (chatLine cl d b) cl []
  | .leave cl behind => s.table.leaveSends cl behind []

def sys : Sys St Event := ⟨(· = ⟨.empty, []⟩), step⟩

structure Inv (s : St) : Prop where
  perm : s.table.entries.Perm s.live
  nodup : (s.live.map Client.cfd).Nodup
  bound : s.live.length ≤ MAX

theorem Inv.cnt (h : Inv s) : s.table.cnt = s.live.length := by
  rw [← h.perm.length_eq, Table.entries, List.length_map, List.length_range]

theorem Inv.cnt_lt (h : Inv s) : s.table.cnt + 1 < 2 ^ 64 := by
  have hb := h.bound
  rw [h.cnt]
  exact Nat.lt_of_le_of_lt (Nat.succ_le_succ hb) (by decide)

theorem Inv.init : Inv ⟨.empty, []⟩ := ⟨.refl _, .nil, Nat.zero_le _⟩

/-- A broadcast from the table reaches the others among the live connections. -/
theorem broadcast_perm {t : Table} (h : t.entries.Perm live) (msg : List UInt8) (c : Client) :
    (t.broadcast msg c []).Perm ((others live c.cfd).map fun e => (e.cfd, msg)) := by
  rw [Table.broadcast, sends_eq]
  exact (h.filter _).map _

theorem others_cons_self (c : Client) (live : List Client) :
    others (c :: live) c.cfd = others live c.cfd := by
  rw [others, List.filter_cons, if_neg (by rw [decide_eq_true_eq]; exact fun h => h rfl)]
  rfl

theorem others_eq_self (h : cfd ∉ live.map Client.cfd) : others live cfd = live := by
  apply List.filter_eq_self.2
  intro c hc
  rw [decide_eq_true_eq]
  rintro rfl
  exact h (List.mem_map_of_mem hc)

theorem Inv.accept (h : Inv s) (hn : cfd ∉ s.live.map Client.cfd) (hb : s.live.length < MAX)
    (d : List UInt8) : Inv ⟨s.table.login cfd d, s.table.entry cfd d :: s.live⟩ where
  perm := by
    change (s.table.login cfd d).entries.Perm _
    rw [s.table.entries_login d h.cnt_lt]
    exact (List.perm_append_singleton ..).trans (h.perm.cons _)
  nodup := by
    rw [List.map_cons, List.nodup_cons]
    exact ⟨hn, h.nodup⟩
  bound := hb

/-- Before the new connection is counted it is told to those that are there. -/
theorem Inv.accept_sends (h : Inv s) (hn : cfd ∉ s.live.map Client.cfd) (d b : List UInt8) :
    (s.table.loginSends cfd d b []).Perm
      (s.live.map fun c => (c.cfd, loginNotice (s.table.entry cfd d) b)) := by
  have he : (s.table.fill cfd d).client s.table.cnt = s.table.entry cfd d := by
    rw [Table.fill_client, Function.update_self]
  have hp : (s.table.fill cfd d).entries.Perm s.live := by
    rw [Table.entries_fill]
    exact h.perm
  have ho := broadcast_perm hp (loginNotice (s.table.entry cfd d) b) (s.table.entry cfd d)
  have hcfd : (s.table.entry cfd d).cfd = cfd := rfl
  rw [hcfd, others_eq_self hn] at ho
  rw [Table.loginSends, he]
  exact ho

/-- The entry of a connection that leaves is the one that is found, and every other one stays. -/
theorem Inv.find (h : Inv s) (hc : cl ∈ s.live) : ∃ i, s.table.find cl.cfd = some i ∧
    (s.table.remove i).entries.Perm (others s.live cl.cfd) := by
  have hce : cl ∈ s.table.entries := h.perm.mem_iff.2 hc
  obtain ⟨j, hj, rfl⟩ := List.mem_map.1 hce
  obtain ⟨i, hi, hlt, hfd⟩ := Table.find_some (t := s.table) (f := s.table.fd j)
    (.of_lt (List.mem_range.1 hj))
  have hp := s.table.entries_remove hlt (Nat.le_of_lt (Nat.lt_of_succ_lt h.cnt_lt))
  have hl : s.live.Perm (s.table.client i :: (s.table.remove i).entries) := h.perm.symm.trans hp
  have hcfd : (s.table.client i).cfd = (s.table.client j).cfd := hfd
  have hn : (s.table.client i).cfd ∉ (s.table.remove i).entries.map Client.cfd := by
    have hd := (hl.map Client.cfd).nodup h.nodup
    rw [List.map_cons, List.nodup_cons] at hd
    exact hd.1
  have ho : (others s.live (s.table.client i).cfd).Perm
      (others (s.table.client i :: (s.table.remove i).entries) (s.table.client i).cfd) :=
    hl.filter _
  rw [others_cons_self, others_eq_self hn] at ho
  rw [← hcfd]
  exact ⟨i, hcfd ▸ hi, ho.symm⟩

theorem Inv.leave (h : Inv s) (hc : cl ∈ s.live) :
    Inv ⟨s.table.leave cl, others s.live cl.cfd⟩ where
  perm := by
    obtain ⟨i, hi, hp⟩ := h.find hc
    rw [Table.leave, hi]
    exact hp
  nodup := h.nodup.sublist (List.filter_sublist.map _)
  bound := Nat.le_trans (List.length_filter_le ..) h.bound

theorem others_others (live : List Client) (cfd : Int) :
    others (others live cfd) cfd = others live cfd := by
  rw [others, others, List.filter_filter]
  simp only [Bool.and_self]

theorem Inv.leave_sends (h : Inv s) (hc : cl ∈ s.live) (b : List UInt8) :
    (s.table.leaveSends cl b []).Perm
      ((others s.live cl.cfd).map fun c => (c.cfd, leaveNotice cl b)) := by
  obtain ⟨i, hi, hp⟩ := h.find hc
  have ho := broadcast_perm hp (leaveNotice cl b) cl
  rw [others_others] at ho
  rw [Table.leaveSends, hi]
  exact ho

theorem Inv.step (h : Inv s) (ht : Roster.step s e = some t) : Inv t := by
  cases e with
  | accept cfd d behind =>
    obtain ⟨⟨hn, hb, -⟩, rfl⟩ := of_guard ht
    exact h.accept hn hb d
  | line cl d b =>
    obtain ⟨-, rfl⟩ := of_guard ht
    exact h
  | leave cl behind =>
    obtain ⟨hc, rfl⟩ := of_guard ht
    exact h.leave hc

theorem inv_of_reachable (h : sys.Reachable s) : Inv s := by
  apply h.invariant
  · rintro _ rfl
    exact .init
  · intro s e t hs _ ht
    exact hs.step ht

/-- A line goes out behind the name, with what follows it in `buf` up to a NUL. -/
theorem Inv.line_sends (h : Inv s) (ht : Roster.step s (.line cl d b) = some t) :
    (s.sends (.line cl d b)).Perm ((others s.live cl.cfd).map fun c =>
      (c.cfd, cstr (cl.name.bytes ++ b.name) ++ ascii " :" ++
        cstr (d ++ List.replicate (1022 - (cstr (cl.name.bytes ++ b.name)).length - d.length) 0 ++
          b.buf))) := by
  obtain ⟨⟨-, hd, hlen⟩, -⟩ := of_guard ht
  have hpos := List.length_pos_of_ne_nil hd
  have hp : (linePrefix cl b.name).length = (cstr (cl.name.bytes ++ b.name)).length + 2 :=
    List.length_append
  have htext := chatLine_eq (by omega) hlen
  have hroom : 1024 - (linePrefix cl b.name).length - d.length =
      1022 - (cstr (cl.name.bytes ++ b.name)).length - d.length := by omega
  rw [hroom] at htext
  change (s.table.broadcast (chatLine cl d b) cl []).Perm _
  rw [htext]
  exact broadcast_perm h.perm ..

/-- After every event the table lists the live connections, and the event has told every other one
of them once and no one else: of a login and of a departure by name, and of a line with the name
in front of it. -/
theorem listed_and_told (h : sys.Reachable s) (ht : step s e = some t) :
    t.table.entries.Perm t.live ∧ t.table.cnt = t.live.length ∧ (t.live.map Client.cfd).Nodup ∧
    (∀ cfd d b, e = .accept cfd d b → ∃ c, t.live = c :: s.live ∧ c.cfd = cfd ∧
      c.name.bytes = d ++ (s.table.client s.table.cnt).name.bytes.drop d.length ∧
      (s.sends e).Perm (s.live.map fun o =>
        (o.cfd, yourFriend ++ cstr (c.name.bytes ++ b) ++ isOnline))) ∧
    (∀ cl d b, e = .line cl d b → t.live = s.live ∧
      (s.sends e).Perm ((s.live.filter fun o => o.cfd ≠ cl.cfd).map fun o =>
        (o.cfd, cstr (cl.name.bytes ++ b.name) ++ ascii " :" ++
          cstr (d ++ List.replicate (1022 - (cstr (cl.name.bytes ++ b.name)).length - d.length) 0 ++
            b.buf)))) ∧
    ∀ cl b, e = .leave cl b → t.live = s.live.filter (fun o => o.cfd ≠ cl.cfd) ∧
      (s.sends e).Perm (t.live.map fun o =>
        (o.cfd, yourFriend ++ cstr (cl.name.bytes ++ b) ++ hasLeft)) := by
  have hs := inv_of_reachable h
  have hi := hs.step ht
  refine ⟨hi.perm, hi.cnt, hi.nodup, ?_, ?_, ?_⟩
  · rintro cfd d b rfl
    obtain ⟨⟨hn, -, hlen⟩, rfl⟩ := of_guard ht
    refine ⟨s.table.entry cfd d, rfl, rfl, ?_, hs.accept_sends hn d b⟩
    simp only [Table.entry, Buf.overwrite, List.take_of_length_le hlen]
  · rintro cl d b rfl
    have hsends := hs.line_sends ht
    obtain ⟨-, rfl⟩ := of_guard ht
    exact ⟨rfl, hsends⟩
  · rintro cl b rfl
    obtain ⟨hc, rfl⟩ := of_guard ht
    exact ⟨rfl, hs.leave_sends hc b⟩

def entry4 : Client := Table.empty.entry 4 [97, 0]
def entry5 : Client := (Table.empty.login 4 [97, 0]).entry 5 [98, 0]

/-- A second connection is told to the first one, sends it a line, and is told that it leaves. -/
theorem listed_and_told_two : ∃ r s t u,
    sys.run [.accept 4 [97, 0] []] ⟨.empty, []⟩ = some r ∧
    step r (.accept 5 [98, 0] []) = some s ∧
    (r.sends (.accept 5 [98, 0] [])).Perm [(4, [0xE6, 0x82, 0xA8, 0xE7, 0x9A, 0x84, 0xE5, 0xA5,
      0xBD, 0xE5, 0x8F, 0x8B, 98, 0xE4, 0xB8, 0x8A, 0xE7, 0xBA, 0xBF, 0xE5, 0x95, 0xA6])] ∧
    step s (.line entry5 [72, 105, 0] ⟨[], []⟩) = some t ∧
    (s.sends (.line entry5 [72, 105, 0] ⟨[], []⟩)).Perm [(4, ascii "b :Hi")] ∧
    step t (.leave entry4 []) = some u ∧ u.table.entries.Perm [entry5] ∧
    (t.sends (.leave entry4 [])).Perm [(5, [0xE6, 0x82, 0xA8, 0xE7, 0x9A, 0x84, 0xE5, 0xA5, 0xBD,
      0xE5, 0x8F, 0x8B, 97, 0xE9, 0x80, 0x80, 0xE5, 0x87, 0xBA, 0xE4, 0xBA, 0x86])] := by
  have hr : ∃ r s t u, sys.run [.accept 4 [97, 0] []] ⟨.empty, []⟩ = some r ∧
      r.live = [entry4] ∧ step r (.accept 5 [98, 0] []) = some s ∧ s.live = [entry5, entry4] ∧
      step s (.line entry5 [72, 105, 0] ⟨[], []⟩) = some t ∧ step t (.leave entry4 []) = some u :=
    ⟨_, _, _, _, rfl, rfl, rfl, rfl, rfl, rfl⟩
  obtain ⟨r, s, t, u, hr, hone, hs, htwo, ht, hu⟩ := hr
  have hreach : sys.Reachable r := .of_run rfl hr
  have hs' : sys.step r (.accept 5 [98, 0] []) = some s := hs
  have ht' : sys.step s (.line entry5 [72, 105, 0] ⟨[], []⟩) = some t := ht
  have hnext := hreach.step trivial hs'
  have hlast := hnext.step trivial ht'
  obtain ⟨-, -, -, haccept, -, -⟩ := listed_and_told hreach hs
  obtain ⟨c, hcons, -, -, hcame⟩ := haccept _ _ _ rfl
  obtain ⟨-, -, -, -, hline, -⟩ := listed_and_told hnext ht
  obtain ⟨hsame, hsaid⟩ := hline _ _ _ rfl
  obtain ⟨hperm, -, -, -, -, hleave⟩ := listed_and_told hlast hu
  obtain ⟨hleft, htold⟩ := hleave _ _ rfl
  rw [htwo] at hcons
  obtain rfl := (List.cons.inj hcons).1
  rw [hone] at hcame
  rw [hsame, htwo] at hleft
  rw [htwo] at hsaid
  rw [hleft] at hperm htold
  exact ⟨r, s, t, u, hr, hs, hcame.trans (.of_eq rfl), ht, hsaid.trans (.of_eq rfl), hu,
    hperm.trans (.of_eq rfl), htold.trans (.of_eq rfl)⟩

end LinuxIpc.TcpChat.Roster
