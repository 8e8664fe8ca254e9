import LinuxIpc.TcpChat.Roster

namespace LinuxIpc.TcpChat.Bound
set_option autoImplicit true

/-- An event, and the descriptors to which `send` fails in its broadcast. -/
structure Act where
  event : Roster.Event
  fail : List Int

/-- The events as in `Roster.step`, but with any number of connections at once. -/
def step (s : Roster.St) (a : Act) : Option Roster.St :=
  match a.event with
  | .accept cfd d _ =>
    if cfd ∉ s.live.map Client.cfd ∧ d.length ≤ 40 then
      some ⟨s.table.login cfd d, s.table.entry cfd d :: s.live⟩
    else none
  | e => Roster.step s e

def start : Roster.St := ⟨.empty, []⟩

def sys : Sys Roster.St Act := ⟨(· = start), step⟩

/-- How many entries the loop of `broadcast` looks at. -/
def visited (c : Client) (fail : List Int) : List Client → Nat
  | [] => 0
  | e :: es => if e.cfd ≠ c.cfd ∧ e.cfd ∈ fail then 1 else visited c fail es + 1

/-- The slots of `client` that a broadcast, and the scan for a descriptor, look at. -/
def broadcastReads (t : Table) (c : Client) (fail : List Int) : List Nat :=
  List.range (visited c fail t.entries)

def findReads (t : Table) (f : Int) : List Nat :=
  match t.find f with
  | some i => List.range (i + 1)
  | none => List.range t.cnt

/-- All the indices at which an event reads or writes `client`. -/
def accessed (t : Table) (a : Act) : List Nat :=
  match a.event with
  -- the new entry is filled, shown, and copied by the thread
  | .accept cfd d _ => t.cnt :: broadcastReads (t.fill cfd d) ((t.fill cfd d).client t.cnt) a.fail
  | .line cl _ _ => broadcastReads t cl a.fail
  | .leave cl _ => findReads t cl.cfd ++
      match t.find cl.cfd with
      | some i => i :: pred64 t.cnt :: broadcastReads (t.remove i) cl a.fail
      | none => broadcastReads t cl a.fail

/-- The event stays within `client`, and `--cnt` does not wrap. -/
structure Within (s : Roster.St) (a : Act) : Prop where
  accessed : ∀ i ∈ accessed s.table a, i < MAX
  cnt : ∀ cl b, a.event = .leave cl b → s.table.find cl.cfd ≠ none → 0 < s.table.cnt

/-- A connection is accepted only while fewer than `MAX` are there. -/
def Roomy (s : Roster.St) (a : Act) : Prop :=
  match a.event with
  | .accept .. => s.live.length < MAX
  | .line .. | .leave .. => True

instance (s : Roster.St) (a : Act) : Decidable (Roomy s a) := by
  unfold Roomy
  split <;> infer_instance

theorem visited_le (c : Client) (fail : List Int) (es : List Client) :
    visited c fail es ≤ es.length := by
  induction es with
  | nil => exact Nat.le_refl _
  | cons e es ih =>
    rw [visited, List.length_cons]
    split
    · exact Nat.succ_le_succ (Nat.zero_le _)
    · exact Nat.succ_le_succ ih

theorem entries_length (t : Table) : t.entries.length = t.cnt := by
  rw [Table.entries, List.length_map, List.length_range]

theorem lt_of_broadcastReads {t : Table} (h : i ∈ broadcastReads t c fail) : i < t.cnt := by
  rw [← entries_length t]
  exact Nat.lt_of_lt_of_le (List.mem_range.1 h) (visited_le ..)

theorem lt_of_findReads {t : Table} (h : i ∈ findReads t f) : i < t.cnt := by
  unfold findReads at h
  split at h
  · rename_i j hj
    have hlt := List.mem_range.1 (List.mem_of_find?_eq_some hj)
    exact Nat.lt_of_lt_of_le (List.mem_range.1 h) hlt
  · exact List.mem_range.1 h

/-- The event keeps to the slots that are counted, but for the one that a new connection gets. -/
theorem le_of_accessed (t : Table) (a : Act) (hb : t.cnt ≤ 2 ^ 64)
    (h : i ∈ accessed t a) : i < t.cnt ∨ i = t.cnt ∧ ∃ cfd d b, a.event = .accept cfd d b := by
  unfold accessed at h
  split at h
  · rename_i cfd d b he
    rcases List.mem_cons.1 h with rfl | h
    · exact .inr ⟨rfl, cfd, d, b, he⟩
    · have hi : i < (t.fill cfd d).cnt := lt_of_broadcastReads h
      exact .inl hi
  · exact .inl (lt_of_broadcastReads h)
  · rename_i cl he
    left
    rcases List.mem_append.1 h with h | h
    · exact lt_of_findReads h
    · split at h
      · rename_i j hj
        have hlt : j < t.cnt := List.mem_range.1 (List.mem_of_find?_eq_some hj)
        have hpos : 0 < t.cnt := Nat.zero_lt_of_lt hlt
        rcases List.mem_cons.1 h with rfl | h
        · exact hlt
        · rcases List.mem_cons.1 h with hi | h
          · rw [hi, pred64_eq hpos hb]
            exact Nat.sub_lt hpos Nat.one_pos
          · have hi := lt_of_broadcastReads h
            rw [t.remove_cnt hpos hb] at hi
            exact Nat.lt_of_lt_of_le hi (Nat.sub_le ..)
      · exact lt_of_broadcastReads h

/-- In a table of at most `MAX` entries, exactly the accepts without room go past its end. -/
theorem within_iff (h : Roster.Inv s) (a : Act) : Within s a ↔ Roomy s a := by
  constructor
  · intro hw
    unfold Roomy
    split
    · rename_i cfd d b he
      have hmem : s.table.cnt ∈ accessed s.table a := by
        rw [accessed, he]
        exact List.mem_cons_self
      have hlt := hw.accessed _ hmem
      rwa [h.cnt] at hlt
    · trivial
    · trivial
  · intro hr
    constructor
    · intro i hi
      have hb := h.bound
      have hcnt := h.cnt
      rcases le_of_accessed s.table a (Nat.le_of_lt (Nat.lt_of_succ_lt h.cnt_lt)) hi with
        hlt | ⟨rfl, cfd, d, b, he⟩
      · omega
      · rw [Roomy, he] at hr
        rw [hcnt]
        exact hr
    · intro cl b he hf
      obtain ⟨i, hi⟩ := Option.ne_none_iff_exists'.1 hf
      exact Nat.zero_lt_of_lt (List.mem_range.1 (List.mem_of_find?_eq_some hi))

theorem inv_step (h : Roster.Inv s) (hr : Roomy s a) (ht : step s a = some t) : Roster.Inv t := by
  obtain ⟨e, fail⟩ := a
  cases e with
  | accept cfd d b =>
    obtain ⟨⟨hn, -⟩, rfl⟩ := of_guard ht
    exact h.accept hn hr d
  | line cl d b =>
    have ht' : Roster.step s (.line cl d b) = some t := ht
    exact h.step ht'
  | leave cl b =>
    have ht' : Roster.step s (.leave cl b) = some t := ht
    exact h.step ht'

/-- A run stays within `client` exactly if it accepts no connection while `MAX` are there. -/
theorem in_bounds_iff (h : sys.run as start = some s) :
    sys.Along Within as start ↔ sys.Along Roomy as start := by
  refine (Sys.along_congr (I := Roster.Inv) .init ?_ ?_ h).symm
  · intro s a t hi hr ht
    exact inv_step hi hr ht
  · intro s a t hi _
    exact (within_iff hi a).symm

/-- So many connections one after the other, and no one leaves. -/
def crowd : Nat → List Act
  | 0 => []
  | n + 1 => crowd n ++ [⟨.accept n [] [], []⟩]

theorem notMem_of_lt {s : Roster.St} {n : Nat} (h : ∀ c ∈ s.live, c.cfd < n) :
    (n : Int) ∉ s.live.map Client.cfd := by
  intro hm
  obtain ⟨c, hc, he⟩ := List.mem_map.1 hm
  exact ne_of_lt (h c hc) he

theorem accept_next {s : Roster.St} {n : Nat} (h : ∀ c ∈ s.live, c.cfd < n) :
    sys.step s ⟨.accept n [] [], []⟩ =
      some ⟨s.table.login n [], s.table.entry n [] :: s.live⟩ :=
  if_pos ⟨notMem_of_lt h, Nat.zero_le _⟩

theorem crowd_run (h : n ≤ MAX) : ∃ s, sys.run (crowd n) start = some s ∧ Roster.Inv s ∧
    s.live.length = n ∧ ∀ c ∈ s.live, c.cfd < n := by
  induction n with
  | zero => exact ⟨start, rfl, .init, rfl, nofun⟩
  | succ n ih =>
    obtain ⟨s, hs, hi, hlen, hlt⟩ := ih (Nat.le_of_succ_le h)
    refine ⟨_, ?_, hi.accept (notMem_of_lt hlt) (hlen ▸ h) [], ?_, ?_⟩
    · exact Sys.run_trans hs (Sys.run_cons (accept_next hlt))
    · rw [List.length_cons, hlen]
    · intro c hc
      rcases List.mem_cons.1 hc with rfl | hc
      · exact Int.lt_succ n
      · exact (hlt c hc).trans (Int.lt_succ n)

/-- The entry of the connection after the hundredth is written behind the end of `client`. -/
theorem not_in_bounds : ∃ as s, sys.run as start = some s ∧ ¬ sys.Along Within as start := by
  obtain ⟨s, hs, hi, hlen, hlt⟩ := crowd_run (Nat.le_refl MAX)
  have hstep := accept_next hlt
  refine ⟨crowd (MAX + 1), _, Sys.run_trans hs (Sys.run_cons hstep), ?_⟩
  rw [crowd, Sys.along_append hs, Sys.along_cons hstep]
  rintro ⟨-, hw, -⟩
  have hlast := hw.accessed s.table.cnt List.mem_cons_self
  rw [hi.cnt, hlen] at hlast
  exact Nat.lt_irrefl _ hlast

theorem in_bounds_iff_leave : ∃ s, sys.run [⟨.accept 4 [97, 0] [], []⟩, ⟨.accept 5 [98, 0] [], [4]⟩,
    ⟨.leave (Table.empty.entry 4 [97, 0]) [], []⟩] start = some s ∧ s.table.cnt = 1 ∧
    sys.Along Within [⟨.accept 4 [97, 0] [], []⟩, ⟨.accept 5 [98, 0] [], [4]⟩,
      ⟨.leave (Table.empty.entry 4 [97, 0]) [], []⟩] start := by
  refine ⟨_, rfl, rfl, ?_⟩
  exact (in_bounds_iff rfl).2 (by decide)

end LinuxIpc.TcpChat.Bound
