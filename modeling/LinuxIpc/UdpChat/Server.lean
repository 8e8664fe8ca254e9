import LinuxIpc.Lib.Buffer

namespace LinuxIpc.UdpChat
set_option autoImplicit true

/-- `struct sockaddr_in`, 16 bytes; `memcmp` finds two of them equal when all fields are. -/
structure SockaddrIn where
  sin_family : UInt16
  sin_port : UInt16
  sin_addr : UInt32
  sin_zero : UInt64
  deriving DecidableEq, Repr

/-- `sizeof(MSG)`: `type`, `name[32]` and `text[N]`, all `char`. -/
def msgSize : Nat := 1 + 32 + 128

abbrev Msg := Buf msgSize

def Msg.type (msg : Msg) : UInt8 := msg.bytes.headD 0

/-- What `recvfrom` finds: the bytes of a datagram and the address it came from. -/
structure Datagram where
  data : List UInt8
  src : SockaddrIn
  deriving DecidableEq, Repr

/-- A `sendto` of `sizeof(msg)` bytes. -/
structure Send where
  msg : Msg
  dst : SockaddrIn

/-- The list behind the sentinel `H`. -/
def insertData (H : List SockaddrIn) (client_addr : SockaddrIn) : List SockaddrIn :=
  client_addr :: H

/-- The walk over the list that `process_login` and `process_broadcast` have in common. -/
def sendOthers (msg : Msg) (client_addr : SockaddrIn) : List SockaddrIn → List Send
  | [] => []
  | addr :: h1 =>
    if client_addr = addr then sendOthers msg client_addr h1
    else ⟨msg, addr⟩ :: sendOthers msg client_addr h1

def processLogin (H : List SockaddrIn) (msg : Msg) (client_addr : SockaddrIn) :
    List SockaddrIn × List Send :=
  (insertData H client_addr, sendOthers msg client_addr (insertData H client_addr))

def processBroadcast (H : List SockaddrIn) (msg : Msg) (client_addr : SockaddrIn) :
    List SockaddrIn × List Send :=
  (H, sendOthers msg client_addr H)

/-- Each node is either unlinked or sent to. -/
def processQuit (msg : Msg) (client_addr : SockaddrIn) :
    List SockaddrIn → List SockaddrIn × List Send
  | [] => ([], [])
  | addr :: p =>
    let (H, sent) := processQuit msg client_addr p
    if client_addr = addr then (H, sent) else (addr :: H, ⟨msg, addr⟩ :: sent)

/-- The local `msg` of `main` outlives the iterations of the receive loop. -/
structure Server where
  H : List SockaddrIn
  msg : Msg

/-- `linklist_create()`; `msg` is not initialised. -/
def start (msg : Msg) : Server := ⟨[], msg⟩

def login : UInt8 := 'L'.toUInt8
def broadcast : UInt8 := 'B'.toUInt8
def quit : UInt8 := 'Q'.toUInt8

/-- `switch(msg.type)`. -/
def dispatch (H : List SockaddrIn) (msg : Msg) (client_addr : SockaddrIn) :
    List SockaddrIn × List Send :=
  if msg.type = login then processLogin H msg client_addr
  else if msg.type = broadcast then processBroadcast H msg client_addr
  else if msg.type = quit then processQuit msg client_addr H
  else (H, [])

/-- One iteration of the receive loop, no `malloc` or `sendto` failing: the list and `msg` it
leaves, and what it sends. A datagram of any length is accepted; `msg` keeps the bytes that it
does not cover. -/
def receive (s : Server) (d : Datagram) : Server × List Send :=
  let msg := s.msg.overwrite d.data
  let (H, sent) := dispatch s.H msg d.src
  (⟨H, msg⟩, sent)

def serve (s : Server) (ds : List Datagram) : Server := ds.foldl (fun s d => (receive s d).1) s

/-- The number of sends to an address. -/
def sendsTo (addr : SockaddrIn) (sent : List Send) : Nat := sent.countP fun m => m.dst = addr

theorem sendsTo_sendOthers (msg : Msg) (x y : SockaddrIn) (H : List SockaddrIn) :
    sendsTo y (sendOthers msg x H) = if x = y then 0 else H.count y := by
  induction H with
  | nil => simp only [sendOthers, sendsTo, List.countP_nil, List.count_nil, ite_self]
  | cons z H ih =>
    simp only [sendsTo] at ih
    by_cases hz : x = z
    · subst hz
      simp only [sendOthers, sendsTo, if_pos, ih]
      by_cases hy : x = y
      · simp only [if_pos hy]
      · simp only [if_neg hy, List.count_cons_of_ne hy]
    · by_cases hy : z = y
      · subst hy
        simp only [sendOthers, sendsTo, if_neg hz, List.countP_cons, ih, List.count_cons_self,
          decide_true, ↓reduceIte]
      · simp only [sendOthers, sendsTo, if_neg hz, List.countP_cons, ih, List.count_cons_of_ne hy,
          hy, decide_false, Bool.false_eq_true, ↓reduceIte, Nat.add_zero]

/-- A quit leaves the other nodes in their order and sends to them as a broadcast would. -/
theorem processQuit_eq (msg : Msg) (x : SockaddrIn) (H : List SockaddrIn) :
    processQuit msg x H = (H.filter (x ≠ ·), sendOthers msg x H) := by
  induction H with
  | nil => rfl
  | cons z H ih =>
    by_cases hz : x = z
    · subst hz
      simp only [processQuit, ih, sendOthers, ↓reduceIte, ne_eq, not_true_eq_false, decide_false,
        Bool.false_eq_true, not_false_eq_true, List.filter_cons_of_neg]
    · have hf := List.filter_cons_of_pos (p := (x ≠ ·)) (l := H) (decide_eq_true hz)
      rw [hf]
      simp only [processQuit, ih, sendOthers, if_neg hz]

theorem count_processQuit (msg : Msg) (x y : SockaddrIn) (H : List SockaddrIn) :
    (processQuit msg x H).1.count y = if x = y then 0 else H.count y := by
  rw [processQuit_eq]
  by_cases hy : x = y
  · subst hy
    rw [if_pos rfl]
    exact List.count_eq_zero.2 fun hm => of_decide_eq_true (List.mem_filter.1 hm).2 rfl
  · rw [if_neg hy]
    exact List.count_filter (decide_eq_true hy)

/-- How an iteration that acts on a type byte changes the number of nodes holding an address. -/
def countAfter (t : UInt8) (x y : SockaddrIn) (n : Nat) : Nat :=
  if x ≠ y then n else if t = login then n + 1 else if t = quit then 0 else n

theorem count_dispatch (H : List SockaddrIn) (msg : Msg) (x y : SockaddrIn) :
    (dispatch H msg x).1.count y = countAfter msg.type x y (H.count y) := by
  unfold dispatch
  by_cases hL : msg.type = login
  · by_cases hy : x = y
    · subst hy
      simp only [hL, ↓reduceIte, processLogin, insertData, List.count_cons_self, countAfter, ne_eq,
        not_true_eq_false]
    · simp only [hL, ↓reduceIte, processLogin, insertData, List.count_cons_of_ne hy, countAfter,
        ne_eq, hy, not_false_eq_true]
  · rw [if_neg hL]
    by_cases hB : msg.type = broadcast
    · have hQ : broadcast ≠ quit := by decide
      rw [hB] at hL ⊢
      simp only [↓reduceIte, processBroadcast, countAfter, hL, hQ, ite_self]
    · rw [if_neg hB]
      by_cases hQ : msg.type = quit
      · rw [if_pos hQ, count_processQuit, countAfter, if_neg hL, if_pos hQ]
        by_cases hy : x = y
        · rw [if_pos hy, if_neg fun hn => hn hy]
        · rw [if_neg hy, if_pos hy]
      · simp only [hQ, hL, ↓reduceIte, countAfter, ite_self]

/-- Whatever the type, an iteration sends once for each node that holds another address. -/
theorem sendsTo_dispatch (H : List SockaddrIn) (msg : Msg) (x y : SockaddrIn)
    (ht : msg.type = login ∨ msg.type = broadcast ∨ msg.type = quit) :
    sendsTo y (dispatch H msg x).2 = if x = y then 0 else H.count y := by
  have hLB : broadcast ≠ login := by decide
  have hLQ : quit ≠ login := by decide
  have hBQ : quit ≠ broadcast := by decide
  unfold dispatch
  rcases ht with ht | ht | ht
  · simp only [ht, ↓reduceIte, processLogin, insertData, sendsTo_sendOthers]
    by_cases hy : x = y
    · simp only [hy, ↓reduceIte]
    · simp only [hy, ↓reduceIte, List.count_cons_of_ne hy]
  · simp only [ht, hLB, ↓reduceIte, processBroadcast, sendsTo_sendOthers]
  · simp only [ht, hLQ, hBQ, ↓reduceIte, processQuit_eq, sendsTo_sendOthers]

theorem mem_sendOthers (he : e ∈ sendOthers msg x H) : e.msg = msg ∧ e.dst ∈ H ∧ e.dst ≠ x := by
  induction H with
  | nil => cases he
  | cons a H ih =>
    unfold sendOthers at he
    split at he
    · obtain ⟨hm, hd, hx⟩ := ih he
      exact ⟨hm, List.mem_cons_of_mem a hd, hx⟩
    · rename_i hne
      rcases List.mem_cons.1 he with rfl | he
      · exact ⟨rfl, List.mem_cons_self, fun hx => hne hx.symm⟩
      · obtain ⟨hm, hd, hx⟩ := ih he
        exact ⟨hm, List.mem_cons_of_mem a hd, hx⟩

/-- The server sends a message on as it is, to members other than its sender. -/
theorem mem_dispatch (he : e ∈ (dispatch H msg x).2) : e.msg = msg ∧ e.dst ∈ H ∧ e.dst ≠ x := by
  unfold dispatch at he
  split at he
  · obtain ⟨hm, hd, hx⟩ := mem_sendOthers he
    exact ⟨hm, (List.mem_cons.1 hd).resolve_left hx, hx⟩
  · split at he
    · exact mem_sendOthers he
    · split at he
      · rw [processQuit_eq] at he
        exact mem_sendOthers he
      · cases he

theorem dispatch_unknown (H : List SockaddrIn) (msg : Msg) (x : SockaddrIn)
    (ht : ¬ (msg.type = login ∨ msg.type = broadcast ∨ msg.type = quit)) :
    dispatch H msg x = (H, []) := by
  simp only [not_or] at ht
  simp only [dispatch, if_neg ht.1, if_neg ht.2.1, if_neg ht.2.2]

end LinuxIpc.UdpChat
