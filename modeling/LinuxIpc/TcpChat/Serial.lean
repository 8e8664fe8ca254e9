import LinuxIpc.TcpChat.Table

namespace LinuxIpc.TcpChat
set_option autoImplicit true

open Function (update)
open Slots (From Distinct)

/-- The loop of `broadcast` over the entries it has still to visit; a `send` fails to the
descriptors in `fail`. -/
def sends (msg : List UInt8) (c : Client) (fail : List Int) : List Client → List (Int × List UInt8)
  | [] => []
  | e :: es =>
    if e.cfd ≠ c.cfd then
      (e.cfd, msg) :: if e.cfd ∈ fail then [] else sends msg c fail es
    else sends msg c fail es

/-- Where no `send` fails, the message goes to everyone else. -/
theorem sends_eq (msg : List UInt8) (c : Client) (es : List Client) :
    sends msg c [] es = (es.filter fun e => e.cfd ≠ c.cfd).map fun e => (e.cfd, msg) := by
  induction es with
  | nil => rfl
  | cons e es ih =>
    by_cases h : e.cfd ≠ c.cfd
    · rw [sends, if_pos h, if_neg List.not_mem_nil, ih, List.filter_cons, if_pos (decide_eq_true h)]
      rfl
    · rw [sends, if_neg h, ih, List.filter_cons, if_neg (by rwa [decide_eq_true_eq])]

namespace Table

def entries (t : Table) : List Client := (List.range t.cnt).map t.client

/-- `broadcast(msg,c)`. -/
def broadcast (t : Table) (msg : List UInt8) (c : Client) (fail : List Int) :
    List (Int × List UInt8) := sends msg c fail t.entries

/-- The new entry at `client[cnt]`, not counted yet. -/
def fill (t : Table) (cfd : Int) (d : List UInt8) : Table := (t.recvName d).setCfd cfd

/-- One iteration of the accept loop, and what it sends. -/
def login (t : Table) (cfd : Int) (d : List UInt8) : Table :=
  { t.fill cfd d with cnt := succ64 t.cnt }

def loginSends (t : Table) (cfd : Int) (d behind : List UInt8) (fail : List Int) :
    List (Int × List UInt8) :=
  let c := (t.fill cfd d).client t.cnt
  (t.fill cfd d).broadcast (loginNotice c behind) c fail

/-- The slot at which the scan for a descriptor stops. -/
def find (t : Table) (f : Int) : Option Nat := (List.range t.cnt).find? fun i => t.fd i = f

/-- `client[i] = client[cnt-1]; --cnt;` -/
def remove (t : Table) (i : Nat) : Table := { t.moveLast i with cnt := pred64 t.cnt }

/-- What `pthread_run` does with the table when `recv` returns at most 0, and what it sends. -/
def leave (t : Table) (cl : Client) : Table :=
  match t.find cl.cfd with
  | some i => t.remove i
  | none => t

def leaveSends (t : Table) (cl : Client) (behind : List UInt8) (fail : List Int) :
    List (Int × List UInt8) :=
  match t.find cl.cfd with
  | some i => (t.remove i).broadcast (leaveNotice cl behind) cl fail
  | none => t.broadcast (linePrefix cl behind) cl fail

/-- The entry under which a new connection is listed. -/
def entry (t : Table) (cfd : Int) (d : List UInt8) : Client :=
  ⟨cfd, (t.client t.cnt).name.overwrite d⟩

theorem fill_client (t : Table) (cfd : Int) (d : List UInt8) :
    (t.fill cfd d).client = update t.client t.cnt (t.entry cfd d) := by
  change update (update t.client t.cnt ⟨_, (t.client t.cnt).name.overwrite d⟩) t.cnt
    ⟨cfd, (update t.client t.cnt ⟨_, (t.client t.cnt).name.overwrite d⟩ t.cnt).name⟩ = _
  rw [Function.update_self, Function.update_idem]
  rfl

/-- The new entry stands behind those that are counted. -/
theorem entries_fill (t : Table) (cfd : Int) (d : List UInt8) :
    (t.fill cfd d).entries = t.entries := by
  rw [entries, fill_client]
  apply List.map_congr_left
  intro i hi
  exact Function.update_of_ne (Nat.ne_of_lt (List.mem_range.1 hi)) _ _

theorem entries_login (t : Table) (d : List UInt8) (h : t.cnt + 1 < 2 ^ 64) :
    (t.login cfd d).entries = t.entries ++ [t.entry cfd d] := by
  change (List.range (succ64 t.cnt)).map (t.fill cfd d).client = _
  rw [succ64_eq h, List.range_succ, List.map_append, List.map_singleton]
  congr 1
  · exact t.entries_fill cfd d
  · rw [fill_client, Function.update_self]

theorem remove_cnt (t : Table) (h : 0 < t.cnt) (hb : t.cnt ≤ 2 ^ 64) :
    (t.remove i).cnt = t.cnt - 1 := pred64_eq h hb

theorem remove_client (t : Table) (h : 0 < t.cnt) (hb : t.cnt ≤ 2 ^ 64) :
    (t.remove i).client = Slots.moveLast t.client t.cnt i := by
  change update t.client i (t.client (pred64 t.cnt)) = _
  rw [pred64_eq h hb]
  rfl

theorem entries_remove (t : Table) (hi : i < t.cnt) (hb : t.cnt ≤ 2 ^ 64) :
    t.entries.Perm (t.client i :: (t.remove i).entries) := by
  have hpos : 0 < t.cnt := Nat.zero_lt_of_lt hi
  rw [entries, entries, t.remove_client hpos hb, t.remove_cnt hpos hb]
  exact Slots.perm_moveLast hi

theorem fd_login (t : Table) (cfd : Int) (d : List UInt8) :
    (t.login cfd d).fd = update t.fd t.cnt cfd := by
  rw [login, fd_setCnt, fill, fd_setCfd, fd_recvName]
  rfl

theorem login_cnt (t : Table) (h : t.cnt + 1 < 2 ^ 64) : (t.login cfd d).cnt = t.cnt + 1 :=
  succ64_eq h

theorem fd_remove (t : Table) (h : 0 < t.cnt) (hb : t.cnt ≤ 2 ^ 64) :
    (t.remove i).fd = Slots.moveLast t.fd t.cnt i := by
  rw [remove, fd_setCnt, t.fd_moveLast h hb]

theorem find_some {t : Table} (h : From t.fd t.cnt f 0) :
    ∃ i, t.find f = some i ∧ i < t.cnt ∧ t.fd i = f := by
  obtain ⟨p, -, hp, hfd⟩ := h
  have hsome : (t.find f).isSome := by
    rw [find, List.find?_isSome]
    exact ⟨p, List.mem_range.2 hp, decide_eq_true hfd⟩
  obtain ⟨i, hi⟩ := Option.isSome_iff_exists.1 hsome
  refine ⟨i, hi, ?_, ?_⟩
  · exact List.mem_range.1 (List.mem_of_find?_eq_some hi)
  · have hfound := List.find?_some hi
    exact of_decide_eq_true hfound

/-- The departure of a connection that is in the table. -/
theorem leave_eq {t : Table} (cl : Client) (h : From t.fd t.cnt cl.cfd 0) (hb : t.cnt ≤ 2 ^ 64) :
    ∃ i, i < t.cnt ∧ t.fd i = cl.cfd ∧ (t.leave cl).cnt = t.cnt - 1 ∧
      (t.leave cl).fd = Slots.moveLast t.fd t.cnt i := by
  obtain ⟨i, hf, hi, hfd⟩ := find_some h
  have hpos : 0 < t.cnt := Nat.zero_lt_of_lt hi
  have he : t.leave cl = t.remove i := by rw [leave, hf]
  refine ⟨i, hi, hfd, ?_, ?_⟩
  · rw [he, remove_cnt t hpos hb]
  · rw [he, fd_remove t hpos hb]

end Table

end LinuxIpc.TcpChat
