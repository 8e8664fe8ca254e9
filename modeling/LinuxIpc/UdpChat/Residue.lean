import LinuxIpc.UdpChat.Members

namespace LinuxIpc.UdpChat
set_option autoImplicit true

instance (t : UInt8) : Decidable (Known t) := inferInstanceAs (Decidable (_ ∨ _))

/-- The case of the `switch` that is taken, if any. -/
def branch (t : UInt8) : Option UInt8 := if Known t then some t else none

/-- Two iterations of the loop do the same: they take the same case, leave the same list and send
the same bytes to the same addresses. -/
def Alike (s₁ s₂ : Server) (d : Datagram) : Prop :=
  branch (receive s₁ d).1.msg.type = branch (receive s₂ d).1.msg.type ∧
  (receive s₁ d).1.H = (receive s₂ d).1.H ∧ (receive s₁ d).2 = (receive s₂ d).2

/-- What the datagram does not cover is the same in both, or is not sent to anyone. -/
def Covered (s₁ s₂ : Server) (d : Datagram) : Prop :=
  (d.data = [] → branch s₁.msg.type = branch s₂.msg.type) ∧
  (s₁.msg.bytes.drop d.data.length = s₂.msg.bytes.drop d.data.length ∨
    ¬ Known (typeAfter s₁.msg.type d) ∨ ∀ addr ∈ s₁.H, addr = d.src)

theorem branch_known (h : Known t) : branch t = some t := if_pos h

theorem branch_unknown (h : ¬ Known t) : branch t = none := if_neg h

theorem branch_eq_iff : branch t = branch u ↔ t = u ∨ ¬ Known t ∧ ¬ Known u := by
  constructor
  · intro h
    by_cases ht : Known t
    · rw [branch_known ht] at h
      by_cases hu : Known u
      · rw [branch_known hu] at h
        exact .inl (Option.some.inj h)
      · rw [branch_unknown hu] at h
        cases h
    · rw [branch_unknown ht] at h
      by_cases hu : Known u
      · rw [branch_known hu] at h
        cases h
      · exact .inr ⟨ht, hu⟩
  · rintro (rfl | ⟨ht, hu⟩)
    · rfl
    · rw [branch_unknown ht, branch_unknown hu]

theorem branch_typeAfter (d : Datagram) : branch (typeAfter t d) = branch (typeAfter u d) ↔
    (d.data = [] → branch t = branch u) := by
  unfold typeAfter
  cases hd : d.data with
  | nil => exact ⟨fun h _ => h, fun h => h rfl⟩
  | cons b l => exact ⟨fun _ => nofun, fun _ => rfl⟩

theorem sendOthers_eq_iff (m₁ m₂ : Msg) (x : SockaddrIn) (H : List SockaddrIn) :
    sendOthers m₁ x H = sendOthers m₂ x H ↔ m₁ = m₂ ∨ ∀ addr ∈ H, addr = x := by
  induction H with
  | nil => exact ⟨fun _ => .inr nofun, fun _ => rfl⟩
  | cons z H ih =>
    by_cases hz : x = z
    · subst hz
      rw [sendOthers, sendOthers, if_pos rfl, if_pos rfl, ih, List.forall_mem_cons]
      simp only [true_and]
    · rw [sendOthers, sendOthers, if_neg hz, if_neg hz]
      constructor
      · intro h
        obtain ⟨hm, -⟩ := List.cons.inj h
        exact .inl (Send.mk.inj hm).1
      · rintro (rfl | h)
        · rfl
        · exact (hz (h z List.mem_cons_self).symm).elim

/-- Whatever the type, the message goes to the others, if the type is a known one. -/
theorem dispatch_sends (H : List SockaddrIn) (msg : Msg) (x : SockaddrIn) :
    (dispatch H msg x).2 = if Known msg.type then sendOthers msg x H else [] := by
  by_cases hk : Known msg.type
  · rw [if_pos hk]
    unfold dispatch
    split
    · rw [processLogin, insertData, sendOthers, if_pos rfl]
    split
    · rfl
    split
    · rw [processQuit_eq]
    · rcases hk with h | h | h <;> contradiction
  · rw [dispatch_unknown H msg x hk, if_neg hk]

theorem dispatch_unknown_list (h : ¬ Known msg.type) : (dispatch H msg x).1 = H := by
  rw [dispatch_unknown H msg x h]

/-- The list that is left depends on the case taken only. -/
theorem dispatch_list (H : List SockaddrIn) (x : SockaddrIn)
    (h : branch m₁.type = branch m₂.type) : (dispatch H m₁ x).1 = (dispatch H m₂ x).1 := by
  rcases branch_eq_iff.1 h with ht | ⟨h₁, h₂⟩
  · unfold dispatch
    rw [ht]
    simp only [processQuit_eq, processLogin, processBroadcast]
    repeat' split
    all_goals rfl
  · rw [dispatch_unknown_list h₁, dispatch_unknown_list h₂]

/-- The datagram makes two messages the same that agree behind it. -/
theorem overwrite_eq_iff (b c : Buf n) (d : List UInt8) :
    b.overwrite d = c.overwrite d ↔ b.bytes.drop d.length = c.bytes.drop d.length := by
  constructor
  · intro h
    exact List.append_cancel_left (congrArg Buf.bytes h)
  · intro h
    apply Buf.eq_of_bytes
    change d.take n ++ _ = d.take n ++ _
    rw [h]

theorem receive_sends (s : Server) (d : Datagram) : (receive s d).2 =
    if Known (receive s d).1.msg.type then sendOthers (receive s d).1.msg d.src s.H else [] :=
  dispatch_sends s.H (receive s d).1.msg d.src

theorem receive_list (h : branch (receive s₁ d).1.msg.type = branch (receive s₂ d).1.msg.type)
    (hH : s₁.H = s₂.H) : (receive s₁ d).1.H = (receive s₂ d).1.H := by
  have hl : (receive s₁ d).1.H = (dispatch s₁.H (receive s₁ d).1.msg d.src).1 := rfl
  rw [hl, dispatch_list s₁.H d.src h, hH]
  rfl

theorem receive_msg_eq_iff (s₁ s₂ : Server) (d : Datagram) :
    (receive s₁ d).1.msg = (receive s₂ d).1.msg ↔
      s₁.msg.bytes.drop d.data.length = s₂.msg.bytes.drop d.data.length :=
  overwrite_eq_iff s₁.msg s₂.msg d.data

theorem alike_iff (s₁ s₂ : Server) (d : Datagram) (hH : s₁.H = s₂.H) :
    Alike s₁ s₂ d ↔ Covered s₁ s₂ d := by
  have hbranch := branch_typeAfter (t := s₁.msg.type) (u := s₂.msg.type) d
  unfold Alike Covered
  rw [← hbranch, ← receive_type, ← receive_type, ← receive_msg_eq_iff, and_congr_right_iff]
  intro hb
  rw [and_iff_right (receive_list hb hH), receive_sends, receive_sends, ← hH]
  rcases branch_eq_iff.1 hb with he | ⟨h₁, h₂⟩
  · by_cases hk : Known (receive s₁ d).1.msg.type
    · rw [if_pos hk, if_pos (he ▸ hk), sendOthers_eq_iff]
      simp only [hk, not_true_eq_false, false_or]
    · rw [if_neg hk, if_neg (he ▸ hk)]
      exact ⟨fun _ => .inr (.inl hk), fun _ => rfl⟩
  · rw [if_neg h₁, if_neg h₂]
    exact ⟨fun _ => .inr (.inl h₁), fun _ => rfl⟩

/-- After two histories that end with the same list the next datagram is handled alike exactly if
it covers what differs or what differs is not sent. -/
theorem histories_alike_iff (msg₁ msg₂ : Msg) (ds₁ ds₂ : List Datagram) (d : Datagram)
    (hH : (serve (start msg₁) ds₁).H = (serve (start msg₂) ds₂).H) :
    Alike (serve (start msg₁) ds₁) (serve (start msg₂) ds₂) d ↔
      Covered (serve (start msg₁) ds₁) (serve (start msg₂) ds₂) d := alike_iff _ _ d hH

/-- Two members and a broadcast of one byte of text before the next datagram. -/
def spoken (text : UInt8) : List Datagram :=
  [⟨[login], anna⟩, ⟨[login], ben⟩, ⟨[broadcast, text], anna⟩]

/-- A datagram of one byte has the byte behind it relayed again. -/
theorem not_alike : (serve (start (.zero _)) (spoken 120)).H =
      (serve (start (.zero _)) (spoken 121)).H ∧
    ¬ Alike (serve (start (.zero _)) (spoken 120)) (serve (start (.zero _)) (spoken 121))
      ⟨[broadcast], anna⟩ := by
  refine ⟨rfl, ?_⟩
  rintro ⟨-, -, h⟩
  have hbytes := congrArg (List.map fun m : Send => m.msg.bytes.take 2) h
  exact absurd hbytes (by decide)

theorem histories_alike_iff_spoken :
    Alike (serve (start (.zero _)) (spoken 120)) (serve (start (.zero _)) (spoken 121))
        (plain broadcast anna) ↔
      Covered (serve (start (.zero _)) (spoken 120)) (serve (start (.zero _)) (spoken 121))
        (plain broadcast anna) :=
  histories_alike_iff (.zero _) (.zero _) (spoken 120) (spoken 121) (plain broadcast anna) rfl

end LinuxIpc.UdpChat
