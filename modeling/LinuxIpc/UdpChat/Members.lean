import Mathlib.Data.List.Induction
import LinuxIpc.UdpChat.Server

namespace LinuxIpc.UdpChat
set_option autoImplicit true

/-- A type byte acted on, and the address it was acted on for. -/
abbrev Event := UInt8 × SockaddrIn

/-- The type the server acts on: the first byte of the datagram, or the one left in `msg` where
the datagram is empty. -/
def typeAfter (last : UInt8) (d : Datagram) : UInt8 := d.data.headD last

def actedOn (last : UInt8) : List Datagram → List Event
  | [] => []
  | d :: ds => (typeAfter last d, d.src) :: actedOn (typeAfter last d) ds

/-- The abstract member list: how often `y` has logged in since it last quit. -/
def logins (y : SockaddrIn) (es : List Event) : Nat :=
  (es.reverse.takeWhile (· ≠ (quit, y))).count (login, y)

/-- The latest login or quit of `y` is a login. -/
def LoggedIn (y : SockaddrIn) (es : List Event) : Prop :=
  es.reverse.find? (fun e => e.2 = y ∧ (e.1 = login ∨ e.1 = quit)) = some (login, y)

instance (y : SockaddrIn) (es : List Event) : Decidable (LoggedIn y es) :=
  inferInstanceAs (Decidable (_ = _))

def FullSize (d : Datagram) : Prop := d.data.length = msgSize

def Datagram.event (d : Datagram) : Event := (d.data.headD 0, d.src)

def Known (t : UInt8) : Prop := t = login ∨ t = broadcast ∨ t = quit

theorem receive_type (s : Server) (d : Datagram) :
    (receive s d).1.msg.type = typeAfter s.msg.type d :=
  Buf.overwrite_headD s.msg d.data

theorem serve_type (s : Server) (ds : List Datagram) :
    (serve s ds).msg.type = ds.foldl typeAfter s.msg.type := by
  induction ds generalizing s with
  | nil => rfl
  | cons d ds ih => exact (ih _).trans (by rw [receive_type]; rfl)

theorem serve_append (s : Server) (ds : List Datagram) (d : Datagram) :
    serve s (ds ++ [d]) = (receive (serve s ds) d).1 := by
  simp only [serve, List.foldl_append, List.foldl_cons, List.foldl_nil]

theorem actedOn_append (last : UInt8) (ds : List Datagram) (d : Datagram) :
    actedOn last (ds ++ [d]) =
      actedOn last ds ++ [(typeAfter (ds.foldl typeAfter last) d, d.src)] := by
  induction ds generalizing last with
  | nil => rfl
  | cons d' ds ih => simp only [List.cons_append, actedOn, ih, List.foldl_cons]

theorem actedOn_full (h : ∀ d ∈ ds, FullSize d) (last : UInt8) :
    actedOn last ds = ds.map Datagram.event := by
  induction ds generalizing last with
  | nil => rfl
  | cons d ds ih =>
    have hd : typeAfter last d = d.data.headD 0 := by
      have hlen := h d List.mem_cons_self
      unfold typeAfter
      cases hc : d.data with
      | nil => rw [FullSize, hc] at hlen; cases hlen
      | cons t data => rfl
    simp only [actedOn, hd, List.map_cons, Datagram.event,
      ih fun d hm => h d (List.mem_cons_of_mem _ hm)]

theorem logins_append (y : SockaddrIn) (es : List Event) (t : UInt8) (x : SockaddrIn) :
    logins y (es ++ [(t, x)]) = countAfter t x y (logins y es) := by
  have hLQ : login ≠ quit := by decide
  unfold logins countAfter
  rw [List.reverse_append, List.reverse_singleton, List.singleton_append, List.takeWhile_cons]
  by_cases hx : x = y
  · subst hx
    by_cases hL : t = login
    · subst hL
      simp only [ne_eq, Prod.mk.injEq, hLQ, and_true, not_false_eq_true, decide_true, ↓reduceIte,
        List.count_cons_self, not_true_eq_false]
    · by_cases hQ : t = quit
      · subst hQ
        simp only [ne_eq, not_true_eq_false, decide_false, Bool.false_eq_true, ↓reduceIte,
          List.count_nil, hL]
      · have hne : (t, x) ≠ (login, x) := fun he => hL (Prod.ext_iff.1 he).1
        simp only [ne_eq, Prod.mk.injEq, hQ, and_true, not_false_eq_true, decide_true, ↓reduceIte,
          List.count_cons_of_ne hne, not_true_eq_false, hL]
  · have hne : (t, x) ≠ (login, y) := fun he => hx (Prod.ext_iff.1 he).2
    simp only [ne_eq, Prod.mk.injEq, hx, and_false, not_false_eq_true, decide_true, ↓reduceIte,
      List.count_cons_of_ne hne]

theorem loggedIn_iff (y : SockaddrIn) (es : List Event) : LoggedIn y es ↔ 0 < logins y es := by
  have hLQ : login ≠ quit := by decide
  unfold LoggedIn logins
  induction es.reverse with
  | nil => exact ⟨nofun, nofun⟩
  | cons e es ih =>
    obtain ⟨t, x⟩ := e
    by_cases hL : (t, x) = (login, y)
    · cases hL
      simp only [ne_eq, Prod.mk.injEq, hLQ, and_true, not_false_eq_true, decide_true,
        List.takeWhile_cons_of_pos, List.count_cons_self, Nat.zero_lt_succ, true_or,
        List.find?_cons_of_pos]
    · by_cases hQ : (t, x) = (quit, y)
      · cases hQ
        simp only [or_true, and_self, decide_true, List.find?_cons_of_pos, Option.some.injEq, hL,
          ne_eq, not_true_eq_false, decide_false, Bool.false_eq_true, not_false_eq_true,
          List.takeWhile_cons_of_neg, List.count_nil, Nat.lt_irrefl]
      · have hf : ¬ (x = y ∧ (t = login ∨ t = quit)) := by
          rintro ⟨rfl, rfl | rfl⟩
          · exact hL rfl
          · exact hQ rfl
        have hfind := List.find?_cons_of_neg
          (p := fun e : Event => decide (e.2 = y ∧ (e.1 = login ∨ e.1 = quit))) (a := (t, x))
          (l := es) (by simpa only [decide_eq_true_eq] using hf)
        have htake := List.takeWhile_cons_of_pos (p := (· ≠ (quit, y))) (a := (t, x)) (l := es)
          (decide_eq_true hQ)
        rw [hfind, htake, List.count_cons_of_ne hL]
        exact ih

/-- The concrete list holds each address as often as the abstract one. -/
theorem count_serve (msg : Msg) (ds : List Datagram) (y : SockaddrIn) :
    (serve (start msg) ds).H.count y = logins y (actedOn msg.type ds) := by
  induction ds using List.reverseRecOn with
  | nil => rfl
  | append_singleton ds d ih =>
    rw [serve_append, actedOn_append, logins_append, ← ih]
    have ht := receive_type (serve (start msg) ds) d
    rw [serve_type] at ht
    have hc := count_dispatch (serve (start msg) ds).H ((serve (start msg) ds).msg.overwrite d.data)
      d.src y
    exact hc.trans (congrArg (countAfter · d.src y _) ht)

theorem sendsTo_receive (s : Server) (d : Datagram) (y : SockaddrIn)
    (ht : Known (typeAfter s.msg.type d)) :
    sendsTo y (receive s d).2 = if d.src = y then 0 else s.H.count y :=
  sendsTo_dispatch s.H (s.msg.overwrite d.data) d.src y (by rw [← receive_type] at ht; exact ht)

theorem receive_unknown (s : Server) (d : Datagram) (ht : ¬ Known (typeAfter s.msg.type d)) :
    (receive s d).2 = [] ∧ (receive s d).1.H = s.H := by
  have hd := dispatch_unknown s.H (s.msg.overwrite d.data) d.src
    (by rw [← receive_type] at ht; exact ht)
  simp only [receive, hd, and_self]

/-- Over any run of full-size datagrams the list is the multiset of logins since the last quit,
and every further datagram of a known type goes once to each other entry of it. -/
theorem members_refine (msg : Msg) (hds : ∀ d ∈ ds, FullSize d) (hd : FullSize d) (y : SockaddrIn) :
    (serve (start msg) ds).H.count y = logins y (ds.map Datagram.event) ∧
      (Known d.event.1 → sendsTo y (receive (serve (start msg) ds) d).2 =
        if d.src = y then 0 else logins y (ds.map Datagram.event)) ∧
      (¬ Known d.event.1 → (receive (serve (start msg) ds) d).2 = [] ∧
        (receive (serve (start msg) ds) d).1.H = (serve (start msg) ds).H) := by
  have hcount := count_serve msg ds y
  rw [actedOn_full hds] at hcount
  have htype (last : UInt8) : typeAfter last d = d.event.1 := by
    have hone : ∀ e ∈ [d], FullSize e := by
      intro e he
      rw [List.mem_singleton.1 he]
      exact hd
    exact congrArg Prod.fst (List.head_eq_of_cons_eq (actedOn_full hone last))
  refine ⟨hcount, fun ht => ?_, fun ht => receive_unknown _ _ (by rwa [htype])⟩
  rw [sendsTo_receive _ _ _ (by rwa [htype]), hcount]

/-- A datagram that the bundled client could have sent: the type, then zeros. -/
def plain (t : UInt8) (src : SockaddrIn) : Datagram := ⟨t :: List.replicate 160 0, src⟩

def anna : SockaddrIn := ⟨2, 4000, 1, 0⟩
def ben : SockaddrIn := ⟨2, 4001, 1, 0⟩

theorem members_refine_three :
    sendsTo anna (receive (serve (start (.zero _))
      [plain login anna, plain login ben, plain login anna]) (plain quit ben)).2 = 2 := by
  have hfull t src : FullSize (plain t src) := rfl
  have hds : ∀ d ∈ [plain login anna, plain login ben, plain login anna], FullSize d := by
    intro d hd
    simp only [List.mem_cons, List.not_mem_nil, or_false] at hd
    rcases hd with rfl | rfl | rfl <;> exact hfull ..
  have h := members_refine (.zero _) hds (hfull quit ben) anna
  exact (h.2.1 (.inr (.inr rfl))).trans (by decide)

/-- A login that the network delivers twice has the next broadcast relayed twice. -/
theorem broadcast_not_once : ¬ ∀ (msg : Msg) (ds : List Datagram) (d : Datagram) (y : SockaddrIn),
    d.data.head? = some broadcast → y ≠ d.src → LoggedIn y (actedOn msg.type ds) →
      sendsTo y (receive (serve (start msg) ds) d).2 = 1 := by
  intro h
  have htwo := h (.zero _) [plain login anna, plain login anna] (plain broadcast ben) anna rfl
    (by decide) (by decide)
  revert htwo
  decide

/-- A broadcast goes to each other address once for every login since its last quit: at least once
to those logged in, exactly once to those that logged in once, and to no one else. What goes out
is the datagram, and behind a short one the bytes that were in `msg` before. -/
theorem broadcast_delivery (msg : Msg) (ds : List Datagram) (y : SockaddrIn)
    (hd : d.data.head? = some broadcast) :
    sendsTo y (receive (serve (start msg) ds) d).2 =
        (if d.src = y then 0 else logins y (actedOn msg.type ds)) ∧
      (0 < sendsTo y (receive (serve (start msg) ds) d).2 ↔
        d.src ≠ y ∧ LoggedIn y (actedOn msg.type ds)) ∧
      (d.src ≠ y → (sendsTo y (receive (serve (start msg) ds) d).2 = 1 ↔
        logins y (actedOn msg.type ds) = 1)) ∧
      ∀ e ∈ (receive (serve (start msg) ds) d).2, e.msg.bytes =
        d.data.take msgSize ++ (serve (start msg) ds).msg.bytes.drop d.data.length := by
  have ht (last : UInt8) : typeAfter last d = broadcast := by
    rw [typeAfter, List.headD_eq_head?_getD, hd, Option.getD_some]
  have hs : sendsTo y (receive (serve (start msg) ds) d).2 =
      if d.src = y then 0 else logins y (actedOn msg.type ds) := by
    rw [sendsTo_receive _ _ _ (.inr (.inl (ht _))), count_serve]
  refine ⟨hs, ?_, fun hy => by rw [hs, if_neg hy], fun e he => ?_⟩
  · rw [hs, loggedIn_iff]
    by_cases hy : d.src = y
    · simp only [hy, ↓reduceIte, Nat.lt_irrefl, ne_eq, not_true_eq_false, false_and]
    · simp only [hy, ↓reduceIte, ne_eq, not_false_eq_true, true_and]
  · have hmsg := (mem_dispatch he).1
    exact congrArg Buf.bytes hmsg

/-- Two logins of one client, and "Bhi" from another in a datagram of three bytes. -/
theorem broadcast_delivery_twice :
    sendsTo anna (receive (serve (start (.zero _)) [plain login anna, plain login anna])
        ⟨ascii "Bhi", ben⟩).2 = 2 ∧
      ∀ e ∈ (receive (serve (start (.zero _)) [plain login anna, plain login anna])
        ⟨ascii "Bhi", ben⟩).2, e.msg.bytes = ascii "Bhi" ++ List.replicate 158 0 := by
  have h := broadcast_delivery (d := ⟨ascii "Bhi", ben⟩) (.zero _)
    [plain login anna, plain login anna] anna rfl
  have hmsg : (serve (start (.zero _)) [plain login anna, plain login anna]).msg.bytes =
      login :: List.replicate 160 0 := Buf.overwrite_full _ List.length_cons
  refine ⟨h.1.trans (by decide), fun e he => (h.2.2.2 e he).trans ?_⟩
  rw [hmsg]
  congr 1

end LinuxIpc.UdpChat
