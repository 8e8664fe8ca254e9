import LinuxIpc.Lib.Heap
import LinuxIpc.UdpChat.Server

namespace LinuxIpc.UdpChat.Nodes
set_option autoImplicit true

open Heap (Chain chain_cons)

/-- `struct node`. -/
structure Node where
  addr : SockaddrIn
  next : Option Ptr

/-- What `process_quit` does to the memory and to the socket. -/
inductive Event where
  | read (p : Ptr)
  | write (p : Ptr)
  | free (p : Ptr)
  | send (m : Send)

def Event.ptr : Event → Option Ptr
  | .read p | .write p | .free p => some p
  | .send _ => none

def frees (es : List Event) : List Ptr := es.filterMap fun
  | .free p => some p
  | _ => none

def sends (es : List Event) : List Send := es.filterMap fun
  | .send m => some m
  | _ => none

/-- `process_quit` on the nodes themselves, for at most `k` tests of its `while` and with no
`sendto` failing; it comes to nothing where it accesses memory that is not allocated. -/
def processQuit (msg : Msg) (client_addr : SockaddrIn) :
    Nat → Heap Node → Ptr → Option (Heap Node × List Event)
  | 0, _, _ => none
  | k + 1, h, p => (h.deref p).bind fun n =>
    match n.next with
    | none => some (h, [.read p])
    | some q => (h.deref q).bind fun v =>
      if client_addr = v.addr then
        -- `p->next = q->next; free(q);`
        (processQuit msg client_addr k ((h.write p { n with next := v.next }).free q) p).map
          fun (h, es) => (h, .read p :: .read q :: .write p :: .free q :: es)
      else
        (processQuit msg client_addr k h q).map
          fun (h, es) => (h, .read p :: .read q :: .send ⟨msg, v.addr⟩ :: es)

def entry (e : Ptr × Node) : Ptr × SockaddrIn := (e.1, e.2.addr)

/-- The nodes of a list that hold an address, and the others. -/
def copies (x : SockaddrIn) (l : List (Ptr × Node)) : List (Ptr × Node) :=
  l.filter fun e => x = e.2.addr

def others (x : SockaddrIn) (l : List (Ptr × Node)) : List (Ptr × Node) :=
  l.filter fun e => x ≠ e.2.addr

theorem copies_cons_of_eq (h : x = e.2.addr) : copies x (e :: l) = e :: copies x l :=
  List.filter_cons_of_pos (decide_eq_true h)

theorem copies_cons_of_ne (h : x ≠ e.2.addr) : copies x (e :: l) = copies x l :=
  List.filter_cons_of_neg (by rwa [decide_eq_true_eq])

theorem others_cons_of_eq (h : x = e.2.addr) : others x (e :: l) = others x l :=
  List.filter_cons_of_neg (by rw [decide_eq_true_eq]; exact not_not_intro h)

theorem others_cons_of_ne (h : x ≠ e.2.addr) : others x (e :: l) = e :: others x l :=
  List.filter_cons_of_pos (decide_eq_true h)

/-- What the loop makes of the nodes `l` behind `p`. -/
structure Walked (msg : Msg) (x : SockaddrIn) (h : Heap Node) (p : Ptr) (l : List (Ptr × Node))
    (h' : Heap Node) (es : List Event) (l' : List (Ptr × Node)) : Prop where
  chain : ∃ n n', h.deref p = some n ∧ n'.addr = n.addr ∧
    Chain Node.next h' (some p) ((p, n') :: l')
  kept : l'.map entry = (others x l).map entry
  freed : frees es = (copies x l).map Prod.fst
  gone : ∀ q ∈ frees es, h'.deref q = none
  dead : ∀ q, h.deref q = none → h'.deref q = none
  frame : ∀ q v, h.deref q = some v → q ∉ p :: l.map Prod.fst → h'.deref q = some v
  touched : ∀ e ∈ es, ∀ q, e.ptr = some q → q ∈ p :: l.map Prod.fst
  untouched : es.Pairwise fun e e' => ∀ q, e = .free q → e'.ptr ≠ some q
  sent : sends es = l'.map fun e => ⟨msg, e.2.addr⟩

theorem Walked.nil (hp : h.deref p = some n) (hn : n.next = none) :
    Walked msg x h p [] h [.read p] [] where
  chain := ⟨n, n, hp, rfl, .cons hp (hn ▸ .nil)⟩
  kept := rfl
  freed := rfl
  gone := nofun
  dead _ := id
  frame _ _ hq _ := hq
  touched := by
    intro e he q hq
    obtain rfl := List.mem_singleton.1 he
    obtain rfl := Option.some.inj hq
    exact List.mem_cons_self
  untouched := List.pairwise_singleton ..
  sent := rfl

/-- A node of another address stays, and the loop goes on from it. -/
theorem Walked.pass (hp : h.deref p = some n) (hn : n.next = some q) (hx : x ≠ v.addr)
    (hm : p ∉ q :: l.map Prod.fst) (hw : Walked msg x h q l h' es l') (hv : h.deref q = some v) :
    ∃ v', Walked msg x h p ((q, v) :: l) h'
      (.read p :: .read q :: .send ⟨msg, v.addr⟩ :: es) ((q, v') :: l') := by
  obtain ⟨w, v', hw', hv', hc⟩ := hw.chain
  obtain rfl := Option.some.inj (hv.symm.trans hw')
  refine ⟨v', ?_⟩
  constructor
  case chain => exact ⟨n, n, hp, rfl, .cons (hw.frame p n hp hm) (hn ▸ hc)⟩
  case kept =>
    rw [others_cons_of_ne hx, List.map_cons, List.map_cons, hw.kept, entry, hv']
    rfl
  case freed =>
    rw [copies_cons_of_ne hx, ← hw.freed]
    rfl
  case gone => exact hw.gone
  case dead => exact hw.dead
  case frame =>
    intro r u hr hmr
    exact hw.frame r u hr fun hm => hmr (List.mem_cons_of_mem p hm)
  case touched =>
    intro e he r hr
    rcases List.mem_cons.1 he with rfl | he
    · obtain rfl := Option.some.inj hr
      exact List.mem_cons_self
    · apply List.mem_cons_of_mem
      rcases List.mem_cons.1 he with rfl | he
      · obtain rfl := Option.some.inj hr
        exact List.mem_cons_self
      · rcases List.mem_cons.1 he with rfl | he
        · cases hr
        · exact hw.touched e he r hr
  case untouched =>
    exact .cons (fun _ _ => nofun)
      (.cons (fun _ _ => nofun) (.cons (fun _ _ => nofun) hw.untouched))
  case sent =>
    rw [List.map_cons, ← hw.sent, hv']
    rfl

/-- A node of the address is taken out and freed, and the loop goes on with the one behind it. -/
theorem Walked.unlink (hp : h.deref p = some n) (hv : h.deref q = some v) (hx : x = v.addr)
    (hpq : p ≠ q) (hq : q ∉ l.map Prod.fst)
    (hw : Walked msg x ((h.write p { n with next := v.next }).free q) p l h' es l') :
    Walked msg x h p ((q, v) :: l) h'
      (.read p :: .read q :: .write p :: .free q :: es) l' := by
  have hq' : (h.write p { n with next := v.next }).deref q = some v :=
    Heap.deref_write hp hv hpq.symm
  have hp' : ((h.write p { n with next := v.next }).free q).deref p =
      some { n with next := v.next } := Heap.deref_free hq' (Heap.deref_write_self ..) hpq
  obtain ⟨m, n', hm, hn', hc⟩ := hw.chain
  obtain rfl := Option.some.inj (hp'.symm.trans hm)
  constructor
  case chain => exact ⟨n, n', hp, hn', hc⟩
  case kept =>
    rw [others_cons_of_eq hx]
    exact hw.kept
  case freed =>
    rw [copies_cons_of_eq hx, List.map_cons, ← hw.freed]
    rfl
  case gone =>
    intro r hr
    rcases List.mem_cons.1 hr with rfl | hr
    · exact hw.dead r (Heap.deref_free_self ..)
    · exact hw.gone r hr
  case dead =>
    intro r hr
    exact hw.dead r (Heap.deref_free_none (Heap.deref_write_none hp hr))
  case frame =>
    intro r u hr hmr
    rw [List.map_cons, List.mem_cons, List.mem_cons, not_or, not_or] at hmr
    obtain ⟨hrp, hrq, hrl⟩ := hmr
    apply hw.frame r u
    · exact Heap.deref_free hq' (Heap.deref_write hp hr hrp) hrq
    · rw [List.mem_cons, not_or]
      exact ⟨hrp, hrl⟩
  case touched =>
    have hself : ∀ r, some p = some r → r ∈ p :: ((q, v) :: l).map Prod.fst := by
      rintro r hr
      obtain rfl := Option.some.inj hr
      exact List.mem_cons_self
    have hnode : ∀ r, some q = some r → r ∈ p :: ((q, v) :: l).map Prod.fst := by
      rintro r hr
      obtain rfl := Option.some.inj hr
      exact List.mem_cons_of_mem _ List.mem_cons_self
    intro e he r hr
    simp only [List.mem_cons] at he
    rcases he with rfl | rfl | rfl | rfl | he
    · exact hself r hr
    · exact hnode r hr
    · exact hself r hr
    · exact hnode r hr
    · rcases List.mem_cons.1 (hw.touched e he r hr) with rfl | hm
      · exact List.mem_cons_self
      · exact List.mem_cons_of_mem _ (List.mem_cons_of_mem _ hm)
  case untouched =>
    refine .cons (fun _ _ => nofun) (.cons (fun _ _ => nofun) (.cons (fun _ _ => nofun)
      (.cons ?_ hw.untouched)))
    -- what is freed is neither `p` nor behind it
    intro e he r hr hptr
    cases hr
    rcases List.mem_cons.1 (hw.touched e he q hptr) with hqp | hm
    · exact hpq hqp.symm
    · exact hq hm
  case sent => exact hw.sent

/-- The loop ends after at most one test for each node and a last one. -/
theorem processQuit_walked (hc : Chain Node.next h (some p) ((p, n) :: l)) :
    ∃ h' es l', (∀ k, l.length < k → processQuit msg x k h p = some (h', es)) ∧
      Walked msg x h p l h' es l' := by
  induction l generalizing h p n with
  | nil =>
    obtain ⟨hp, hc⟩ := chain_cons.1 hc
    have hn : n.next = none := hc.head
    refine ⟨h, _, [], ?_, .nil hp hn⟩
    intro k hk
    obtain ⟨k, rfl⟩ := Nat.exists_eq_succ_of_ne_zero (Nat.ne_of_gt hk)
    rw [processQuit, hp, Option.bind_some, hn]
  | cons e l ih =>
    obtain ⟨q, v⟩ := e
    have hnodup := hc.nodup
    rw [List.map_cons, List.nodup_cons, List.map_cons, List.nodup_cons] at hnodup
    obtain ⟨hpm, hqm, -⟩ := hnodup
    have hpq : p ≠ q := fun hpq => hpm (hpq ▸ List.mem_cons_self)
    obtain ⟨hp, hct⟩ := chain_cons.1 hc
    have hn : n.next = some q := hct.head
    rw [hn] at hct
    obtain ⟨hv, htail⟩ := chain_cons.1 hct
    by_cases hx : x = v.addr
    · have hq' : (h.write p { n with next := v.next }).deref q = some v :=
        Heap.deref_write hp hv hpq.symm
      have hc' : Chain Node.next ((h.write p { n with next := v.next }).free q) (some p)
          ((p, { n with next := v.next }) :: l) := by
        refine .cons (Heap.deref_free hq' (Heap.deref_write_self ..) hpq) ?_
        refine htail.frame fun r w hr => ?_
        have hrm : r ∈ l.map Prod.fst := List.mem_map_of_mem hr
        have hrp : r ≠ p := fun he => hpm (he ▸ List.mem_cons_of_mem _ hrm)
        have hrq : r ≠ q := fun he => hqm (he ▸ hrm)
        exact Heap.deref_free hq' (Heap.deref_write hp (htail.deref hr) hrp) hrq
      obtain ⟨h', es, l', hk, hw⟩ := ih hc'
      refine ⟨h', _, l', ?_, hw.unlink hp hv hx hpq hqm⟩
      intro k hlt
      obtain ⟨k, rfl⟩ := Nat.exists_eq_succ_of_ne_zero (Nat.ne_zero_of_lt hlt)
      rw [processQuit, hp, Option.bind_some, hn]
      change (h.deref q).bind _ = _
      rw [hv, Option.bind_some, if_pos hx, hk k (Nat.lt_of_succ_lt_succ hlt)]
      rfl
    · obtain ⟨h', es, l', hk, hw⟩ := ih hct
      obtain ⟨v', hw'⟩ := hw.pass hp hn hx hpm hv
      refine ⟨h', _, _, ?_, hw'⟩
      intro k hlt
      obtain ⟨k, rfl⟩ := Nat.exists_eq_succ_of_ne_zero (Nat.ne_zero_of_lt hlt)
      rw [processQuit, hp, Option.bind_some, hn]
      change (h.deref q).bind _ = _
      rw [hv, Option.bind_some, if_neg hx, hk k (Nat.lt_of_succ_lt_succ hlt)]
      rfl

theorem sendOthers_eq (msg : Msg) (x : SockaddrIn) (H : List SockaddrIn) :
    sendOthers msg x H = (H.filter (x ≠ ·)).map fun addr => ⟨msg, addr⟩ := by
  induction H with
  | nil => rfl
  | cons y H ih =>
    by_cases hy : x = y
    · rw [sendOthers, if_pos hy, ih,
        List.filter_cons_of_neg (by rw [decide_eq_true_eq]; exact not_not_intro hy)]
    · have hf := List.filter_cons_of_pos (p := (x ≠ ·)) (l := H) (decide_eq_true hy)
      rw [sendOthers, if_neg hy, ih, hf]
      rfl

theorem others_addr (x : SockaddrIn) (l : List (Ptr × Node)) :
    (others x l).map (fun e => e.2.addr) = (l.map fun e => e.2.addr).filter (x ≠ ·) := by
  rw [List.filter_map]
  rfl

/-- On the addresses alone the loop does what `UdpChat.processQuit` does to a list of them. -/
theorem Walked.refines (hw : Walked msg x h p l h' es l') :
    UdpChat.processQuit msg x (l.map fun e => e.2.addr) =
      (l'.map fun e => e.2.addr, sends es) := by
  have haddr : (l'.map fun e => e.2.addr) = (l.map fun e => e.2.addr).filter (x ≠ ·) := by
    have hk := congrArg (List.map Prod.snd) hw.kept
    rw [List.map_map, List.map_map] at hk
    rw [← others_addr]
    exact hk
  rw [processQuit_eq, sendOthers_eq, ← haddr, hw.sent, List.map_map]
  rfl

/-- The list behind `H` after a quit, and what was done for it. -/
structure Unlinked (msg : Msg) (x : SockaddrIn) (h : Heap Node) (H : Ptr) (l : List (Ptr × Node))
    (h' : Heap Node) (es : List Event) (l' : List (Ptr × Node)) : Prop where
  chain : ∃ n, Chain Node.next h' (some H) ((H, n) :: l')
  acyclic : (H :: l'.map Prod.fst).Nodup
  kept : l'.map entry = (others x l).map entry
  freed : frees es = (copies x l).map Prod.fst
  once : (frees es).Nodup
  gone : ∀ q ∈ frees es, h'.deref q = none ∧ q ∉ H :: l'.map Prod.fst
  untouched : es.Pairwise fun e e' => ∀ q, e = .free q → e'.ptr ≠ some q
  addr : ∀ q v, h.deref q = some v → q ∉ frees es → ∃ v', h'.deref q = some v' ∧ v'.addr = v.addr
  sent : sends es = l'.map fun e => ⟨msg, e.2.addr⟩
  spared : ∀ m ∈ sends es, m.dst ≠ x

theorem Walked.addr (hw : Walked msg x h H l h' es l')
    (hc : Chain Node.next h (some H) ((H, n) :: l)) (hq : h.deref q = some v) (hf : q ∉ frees es) :
    ∃ v', h'.deref q = some v' ∧ v'.addr = v.addr := by
  obtain ⟨m, n', hm, hn', hc'⟩ := hw.chain
  by_cases hmem : q ∈ H :: l.map Prod.fst
  · rcases List.mem_cons.1 hmem with rfl | hl
    · obtain rfl := Option.some.inj (hq.symm.trans hm)
      exact ⟨n', (chain_cons.1 hc').1, hn'⟩
    · obtain ⟨⟨r, w⟩, hr, rfl⟩ := List.mem_map.1 hl
      obtain rfl := Option.some.inj (hq.symm.trans (hc.deref (List.mem_cons_of_mem _ hr)))
      have hx : x ≠ v.addr := by
        intro hx
        rw [hw.freed] at hf
        exact hf (List.mem_map_of_mem (List.mem_filter.2 ⟨hr, decide_eq_true hx⟩))
      have hk : entry (r, v) ∈ l'.map entry := by
        rw [hw.kept]
        exact List.mem_map_of_mem (List.mem_filter.2 ⟨hr, decide_eq_true hx⟩)
      obtain ⟨⟨r', v'⟩, hr', he⟩ := List.mem_map.1 hk
      obtain ⟨rfl, ha⟩ := Prod.mk.inj he
      exact ⟨v', hc'.deref (List.mem_cons_of_mem _ hr'), ha⟩
  · exact ⟨v, hw.frame q v hq hmem, rfl⟩

theorem Walked.unlinked (hw : Walked msg x h H l h' es l')
    (hc : Chain Node.next h (some H) ((H, n) :: l)) : Unlinked msg x h H l h' es l' := by
  obtain ⟨m, n', hm, hn', hc'⟩ := hw.chain
  constructor
  case chain => exact ⟨n', hc'⟩
  case acyclic => exact hc'.nodup
  case kept => exact hw.kept
  case freed => exact hw.freed
  case once =>
    rw [hw.freed]
    have hnodup := hc.nodup
    rw [List.map_cons, List.nodup_cons] at hnodup
    exact hnodup.2.sublist (List.filter_sublist.map _)
  case gone =>
    intro q hq
    have hnone := hw.gone q hq
    refine ⟨hnone, fun hmem => ?_⟩
    have hmem' : q ∈ ((H, n') :: l').map Prod.fst := hmem
    obtain ⟨⟨r, w⟩, hr, rfl⟩ := List.mem_map.1 hmem'
    rw [hc'.deref hr] at hnone
    cases hnone
  case untouched => exact hw.untouched
  case addr => exact fun q v hq hf => hw.addr hc hq hf
  case sent => exact hw.sent
  case spared =>
    intro m hm he
    rw [hw.sent, List.mem_map] at hm
    obtain ⟨e, hel, rfl⟩ := hm
    have hk : entry e ∈ (others x l).map entry := hw.kept ▸ List.mem_map_of_mem hel
    obtain ⟨e', he', heq⟩ := List.mem_map.1 hk
    have hx := of_decide_eq_true (List.mem_filter.1 he').2
    exact hx (he.symm.trans (Prod.mk.inj heq).2.symm)

/-- A quit ends and leaves the list without the nodes of the address; each of these has been freed
once and not been looked at since, and the message has gone once to each of the others. -/
theorem process_quit_unlinks (msg : Msg) (x : SockaddrIn)
    (hc : Chain Node.next h (some H) ((H, n) :: l)) :
    ∃ h' es l', (∀ k, l.length < k → processQuit msg x k h H = some (h', es)) ∧
      Unlinked msg x h H l h' es l' := by
  obtain ⟨h', es, l', hk, hw⟩ := processQuit_walked hc
  exact ⟨h', es, l', hk, hw.unlinked hc⟩

def anna : SockaddrIn := ⟨2, 1, 1, 0⟩
def ben : SockaddrIn := ⟨2, 2, 1, 0⟩

def sentinel : Node := ⟨⟨0, 0, 0, 0⟩, some ⟨8, 1⟩⟩
def nodes : List (Ptr × Node) := [(⟨8, 1⟩, ⟨anna, some ⟨16, 2⟩⟩), (⟨16, 2⟩, ⟨anna, some ⟨24, 3⟩⟩),
  (⟨24, 3⟩, ⟨ben, none⟩)]

/-- The list of three nodes, of which the first two hold one address. -/
def memory : Heap Node :=
  (((Heap.malloc (fun _ => none) 0 0 sentinel).malloc 8 1 ⟨anna, some ⟨16, 2⟩⟩).malloc 16 2
    ⟨anna, some ⟨24, 3⟩⟩).malloc 24 3 ⟨ben, none⟩

theorem memory_chain : Chain Node.next memory (some ⟨0, 0⟩) ((⟨0, 0⟩, sentinel) :: nodes) :=
  .cons rfl (.cons rfl (.cons rfl (.cons rfl .nil)))

theorem process_quit_unlinks_twice : ∃ h' es l',
    (∀ k, 3 < k → processQuit (.zero _) anna k memory ⟨0, 0⟩ = some (h', es)) ∧
      frees es = [⟨8, 1⟩, ⟨16, 2⟩] ∧
      Unlinked (.zero _) anna memory ⟨0, 0⟩ nodes h' es l' := by
  obtain ⟨h', es, l', hk, hu⟩ := process_quit_unlinks (.zero _) anna memory_chain
  exact ⟨h', es, l', hk, hu.freed.trans (by decide), hu⟩

end LinuxIpc.UdpChat.Nodes
