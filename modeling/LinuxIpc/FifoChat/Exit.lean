import LinuxIpc.FifoChat.Loop

namespace LinuxIpc.FifoChat
set_option autoImplicit true

open Function (update update_self update_of_ne)

theorem Exits.length (h : Exits l) : 4 ≤ l.length := by
  have hlen : min 4 l.length = 4 := by rw [← List.length_take, h]; rfl
  omega

/-- What starts with `exit` is no empty string. -/
theorem Exits.cstr_cons (h : Exits l) : ∃ d, cstr l = 101 :: d := by
  have hl := List.take_append_drop 4 l
  rw [h] at hl
  rw [← hl]
  exact ⟨_, rfl⟩

/-- A NUL ends what the comparison sees. -/
theorem exits_append_zero : Exits (l ++ 0 :: r) ↔ Exits l := by
  by_cases hl : 4 ≤ l.length
  · rw [Exits, Exits, List.take_append_of_le_length hl]
  · refine iff_of_false ?_ fun h => hl h.length
    intro h
    obtain ⟨k, hk⟩ : ∃ k, 4 - l.length = k + 1 := ⟨3 - l.length, by omega⟩
    have hz : 0 ∈ ascii "exit" := by
      rw [← h, List.take_append, hk, List.take_succ_cons]
      exact List.mem_append_right _ List.mem_cons_self
    exact absurd hz (by decide)

theorem exits_typed (b : Buf 32) (hl : l.length ≤ 31) :
    Exits (b.overwrite (l ++ [0])).bytes ↔ Exits l := by
  have hle : (l ++ [0]).length ≤ 32 := by
    rw [List.length_append]
    exact Nat.succ_le_succ hl
  simp only [Buf.overwrite, List.take_of_length_le hle]
  rw [List.append_assoc, List.singleton_append, exits_append_zero]

theorem exits_read (hd : d.length ≤ 32) : Exits ((Buf.zero 32).overwrite d).bytes ↔ Exits d := by
  simp only [Buf.overwrite, List.take_of_length_le hd, Buf.zero, List.drop_replicate]
  cases h : 32 - d.length with
  | zero => rw [List.replicate_zero, List.append_nil]
  | succ k => rw [List.replicate_succ, exits_append_zero]

theorem not_exits_zero : ¬ Exits (Buf.zero 32).bytes := by decide

/-- What `str` holds has been read in this iteration, if anything. -/
def Pc.gotten : Pc → Bool
  | .fgets | .test false => true
  | _ => false

/-- The iteration is still to come to the comparison. -/
def Pc.within : Pc → Bool
  | .fgets | .test _ => true
  | _ => false

/-- One direction, from the typing side `a` to the reading side `b`: what the reader knows of an
`exit` has been typed, and what has been typed is on its way. -/
structure Link (b a : Side) (f : List Byte) : Prop where
  start : ∀ x ∈ f, x.start = true → a.exited = true
  got : b.pc.gotten → Exits b.str.bytes → a.exited = true
  cause : b.pc = .left false → a.exited = true
  blank : ∀ stdin, b.pc = .read stdin → b.str = .zero 32
  pending : a.exited = true → a.pc = .killed ∨ b.pc.gone ∨ (∃ x ∈ f, x.start = true) ∨
    (b.pc.within ∧ Exits b.str.bytes)

/-- The typing side moves without typing. -/
theorem Link.idle (h : Link b a f) (he : a'.exited = a.exited) (hk : a.pc ≠ .killed) :
    Link b a' f where
  start := by rw [he]; exact h.start
  got := by rw [he]; exact h.got
  cause := by rw [he]; exact h.cause
  blank := h.blank
  pending hx := .inr ((h.pending (he ▸ hx)).resolve_left hk)

theorem Link.select (h : Link b a f) (hpc : b.pc = .select) (fifo stdin : Bool) :
    Link (b.select fifo stdin) a f where
  start := h.start
  got _ hx := (not_exits_zero hx).elim
  cause hc := by cases fifo <;> cases hc
  blank _ _ := rfl
  pending hx := by
    rcases h.pending hx with hp | hp | hp | ⟨hp, -⟩
    · exact .inl hp
    · rw [hpc] at hp
      cases hp
    · exact .inr (.inr (.inl hp))
    · rw [hpc] at hp
      cases hp

/-- A read that is framed takes the `exit` that is in it to the comparison. -/
theorem Link.read (h : Link b a f) (hpc : b.pc = .read stdin) (hk : k ≤ 32)
    (hx : Exits ((f.take k).map Byte.val) ↔ ∃ x ∈ (f.take k).head?, x.start = true)
    (ht : ∀ x ∈ (f.take k).tail, x.start = false) :
    Link (b.read stdin ((f.take k).map Byte.val)) a (f.drop k) := by
  have hlen : ((f.take k).map Byte.val).length ≤ 32 := by
    rw [List.length_map, List.length_take]
    omega
  have hstr : Exits (b.read stdin ((f.take k).map Byte.val)).str.bytes ↔
      ∃ x ∈ (f.take k).head?, x.start = true := by
    change Exits (b.str.overwrite _).bytes ↔ _
    rw [h.blank stdin hpc, exits_read hlen, hx]
  constructor
  case start => exact fun x hm => h.start x (List.mem_of_mem_drop hm)
  case got =>
    intro _ he
    obtain ⟨x, hm, hs⟩ := hstr.1 he
    exact h.start x (List.mem_of_mem_take (List.mem_of_mem_head? hm)) hs
  case cause =>
    intro hc
    cases stdin <;> cases hc
  case blank =>
    intro _ hc
    cases stdin <;> cases hc
  case pending =>
    intro he
    rcases h.pending he with hp | hp | ⟨x, hm, hs⟩ | ⟨hp, -⟩
    · exact .inl hp
    · rw [hpc] at hp
      cases hp
    · rw [← List.take_append_drop k f] at hm
      rcases List.mem_append.1 hm with hm | hm
      · -- only the first byte that is read can be the start of an `exit`
        have hwithin : (b.read stdin ((f.take k).map Byte.val)).pc.within = true := by
          cases stdin <;> rfl
        refine .inr (.inr (.inr ⟨hwithin, hstr.2 ⟨x, ?_, hs⟩⟩))
        cases hf : f.take k with
        | nil =>
          rw [hf] at hm
          cases hm
        | cons y r =>
          rw [hf] at hm ht
          rcases List.mem_cons.1 hm with rfl | hm
          · rfl
          · rw [ht x hm] at hs
            cases hs
      · exact .inr (.inr (.inl ⟨x, hm, hs⟩))
    · rw [hpc] at hp
      cases hp

/-- The reading side types. -/
theorem Link.type (h : Link b a f) (hpc : b.pc = .fgets) (hl : l.length ≤ 31)
    (hx : Exits b.str.bytes → Exits l) (read : Bool) : Link (b.type l read) a f where
  start := h.start
  got hg := by cases read <;> cases hg
  cause hc := by cases read <;> cases hc
  blank _ hc := by cases read <;> cases hc
  pending he := by
    rcases h.pending he with hp | hp | hp | ⟨-, hs⟩
    · exact .inl hp
    · rw [hpc] at hp
      cases hp
    · exact .inr (.inr (.inl hp))
    · cases read with
      | false => exact .inr (.inl rfl)
      | true => exact .inr (.inr (.inr ⟨rfl, (exits_typed b.str hl).2 (hx hs)⟩))

theorem Link.test (h : Link b a f) (hpc : b.pc = .test typed) : Link (b.test typed) a f := by
  have hpc' : (b.test typed).pc = if Exits b.str.bytes then .left typed else .select := rfl
  constructor
  case start => exact h.start
  case got =>
    intro hg
    rw [hpc'] at hg
    split at hg <;> cases hg
  case cause =>
    intro hc
    rw [hpc'] at hc
    split at hc
    · cases hc
      exact h.got (by rw [hpc]; rfl) ‹_›
    · cases hc
  case blank =>
    intro _ hc
    rw [hpc'] at hc
    split at hc <;> cases hc
  case pending =>
    intro he
    rcases h.pending he with hp | hp | hp | ⟨-, hs⟩
    · exact .inl hp
    · rw [hpc] at hp
      cases hp
    · exact .inr (.inr (.inl hp))
    · right
      left
      rw [hpc', if_pos hs]
      rfl

/-- The typing side types to a reader that is gone. -/
theorem Link.lost (h : Link b a f) (l : List UInt8) : Link b (a.type l false) f where
  start x hm hs := by rw [Side.type, h.start x hm hs, Bool.true_or]
  got hg hx := by rw [Side.type, h.got hg hx, Bool.true_or]
  cause hc := by rw [Side.type, h.cause hc, Bool.true_or]
  blank := h.blank
  pending _ := .inl rfl

theorem mem_mark (h : x ∈ mark start d) (hs : x.start = true) : start = true := by
  cases d with
  | nil => cases h
  | cons b d =>
    rcases List.mem_cons.1 h with rfl | h
    · exact hs
    · obtain ⟨c, -, rfl⟩ := List.mem_map.1 h
      cases hs

/-- What is typed to a reader that is there goes into the FIFO. -/
theorem Link.send (h : Link b a f) (hpc : a.pc = .fgets) (hl : l.length ≤ 31) :
    Link b (a.type l true)
      (f ++ mark (a.exitLine l) (cstr (a.type l true).str.bytes)) where
  start x hm hs := by
    rcases List.mem_append.1 hm with hm | hm
    · rw [Side.type, h.start x hm hs, Bool.true_or]
    · rw [Side.type, mem_mark hm hs, Bool.or_true]
  got hg hx := by rw [Side.type, h.got hg hx, Bool.true_or]
  cause hc := by rw [Side.type, h.cause hc, Bool.true_or]
  blank := h.blank
  pending he := by
    have he : (a.exited || a.exitLine l) = true := he
    rw [Bool.or_eq_true] at he
    rcases he with he | he
    · rcases h.pending he with hp | hp | ⟨x, hm, hs⟩ | hp
      · rw [hpc] at hp
        cases hp
      · exact .inr (.inl hp)
      · exact .inr (.inr (.inl ⟨x, List.mem_append_left _ hm, hs⟩))
      · exact .inr (.inr (.inr hp))
    · -- the line that has just been typed
      have hx : Exits l := by
        rw [Side.exitLine, Bool.and_eq_true, decide_eq_true_eq] at he
        exact he.2
      have hsent : cstr (a.type l true).str.bytes = cstr l :=
        Buf.cstr_overwrite _ (Nat.lt_succ_of_le hl)
      obtain ⟨d, hd⟩ := hx.cstr_cons
      rw [hsent, hd, he]
      exact .inr (.inr (.inl ⟨_, List.mem_append_right _ List.mem_cons_self, rfl⟩))

/-- In every state the two directions are linked. -/
def Inv (s : St) : Prop := ∀ p, Link (s.side p) (s.side p.peer) (s.fifo p)

theorem Inv.init (h : Init s) : Inv s := by
  intro p
  have hn : (s.side p.peer).exited ≠ true := by
    rw [h.exited]
    nofun
  constructor
  case start =>
    rw [h.fifo]
    nofun
  case got =>
    rw [h.pc]
    nofun
  case cause =>
    rw [h.pc]
    nofun
  case blank =>
    rw [h.pc]
    nofun
  case pending => exact fun he => (hn he).elim

/-- A move of `p` is one of the reader of its own FIFO and of the writer of the other one. -/
theorem Inv.of_links (p : Prog) (hr : Link (s.side p) (s.side p.peer) (s.fifo p))
    (hw : Link (s.side p.peer) (s.side p) (s.fifo p.peer)) : Inv s := by
  refine p.forall_iff.2 ⟨hr, ?_⟩
  rw [p.peer_peer]
  exact hw

theorem Inv.step (h : Inv s) (hg : Framed s a) (ht : FifoChat.step s a = some t) : Inv t := by
  cases a with
  | select p fifo stdin =>
    obtain ⟨⟨hpc, -, -⟩, rfl⟩ := of_guard ht
    have hr := h p
    have hw := h p.peer
    rw [p.peer_peer] at hw
    apply Inv.of_links p
    · simp only [update_self, update_of_ne p.peer_ne]
      exact hr.select hpc fifo stdin
    · simp only [update_self, update_of_ne p.peer_ne]
      exact hw.idle rfl (by rw [hpc]; nofun)
  | read p k =>
    simp only [FifoChat.step] at ht
    split at ht
    · rename_i stdin hpc
      simp only [Option.ite_none_right_eq_some, Option.some.injEq] at ht
      obtain ⟨⟨hk, -, -⟩, rfl⟩ := ht
      have hr := h p
      have hw := h p.peer
      rw [p.peer_peer] at hw
      apply Inv.of_links p
      · simp only [update_self, update_of_ne p.peer_ne]
        exact hr.read hpc hk hg.1 hg.2
      · simp only [update_self, update_of_ne p.peer_ne]
        exact hw.idle rfl (by rw [hpc]; nofun)
    · cases ht
  | type p l =>
    simp only [FifoChat.step, Option.ite_none_right_eq_some] at ht
    obtain ⟨⟨hpc, -, hl, -⟩, ht⟩ := ht
    have hr := h p
    have hw := h p.peer
    rw [p.peer_peer] at hw
    split at ht
    · obtain rfl := Option.some.inj ht
      apply Inv.of_links p
      · simp only [update_self, update_of_ne p.peer_ne]
        exact hr.type hpc hl hg false
      · simp only [update_self, update_of_ne p.peer_ne]
        exact hw.lost l
    · obtain rfl := Option.some.inj ht
      apply Inv.of_links p
      · simp only [update_self, update_of_ne p.peer_ne, update_of_ne p.peer_ne.symm]
        exact hr.type hpc hl hg true
      · simp only [update_self, update_of_ne p.peer_ne]
        exact hw.send hpc hl
  | test p =>
    simp only [FifoChat.step] at ht
    split at ht
    · rename_i typed hpc
      obtain rfl := Option.some.inj ht
      have hr := h p
      have hw := h p.peer
      rw [p.peer_peer] at hw
      apply Inv.of_links p
      · simp only [update_self, update_of_ne p.peer_ne]
        exact hr.test hpc
      · simp only [update_self, update_of_ne p.peer_ne]
        exact hw.idle rfl (by rw [hpc]; nofun)
    · cases ht

/-- Where every read is framed and nothing is typed over an `exit`, both leave together, and only
after an `exit`. -/
theorem exit_agreed (h : sys.ReachableIf Framed s) : Agreed s := by
  have hi : Inv s := by
    apply h.invariant
    · intro s hs
      exact .init hs
    · intro s a t hs hg ht
      exact hs.step hg ht
  constructor
  · intro p typed he hleft hempty hpc
    rcases (hi p).pending he with hp | hp | ⟨x, hm, -⟩ | ⟨hp, -⟩
    · rw [hleft] at hp
      cases hp
    · rw [hpc] at hp
      cases hp
    · rw [hempty] at hm
      cases hm
    · rw [hpc] at hp
      cases hp
  · intro p hc
    exact (hi p).cause hc

def start : St := ⟨fun _ => ⟨.select, .zero 32, true, false⟩, fun _ => []⟩

theorem start_init : Init start := ⟨fun _ => rfl, fun _ => rfl, fun _ => rfl, fun _ => rfl⟩

/-- `hi` and `exit` are typed one after the other and read together. -/
def together : List Act :=
  [.select .pzs false true, .type .pzs (ascii "hi\n"), .test .pzs,
    .select .pzs false true, .type .pzs (ascii "exit\n"), .test .pzs,
    .select .pls true false, .read .pls 8, .test .pls]

theorem not_agreed : ∃ s, sys.run together start = some s ∧ ¬ Agreed s := by
  have hr : ((sys.run together start).map fun s => ((s.side .pzs).exited, (s.side .pzs).pc,
      s.fifo .pls, (s.side .pls).pc)) = some (true, .left true, [], .select) := by decide
  obtain ⟨s, hs, he⟩ := Option.map_eq_some_iff.1 hr
  simp only [Prod.mk.injEq] at he
  obtain ⟨hexit, hleft, hempty, hpc⟩ := he
  exact ⟨s, hs, fun h => h.follows .pls true hexit hleft hempty hpc⟩

/-- The same lines, each read on its own. -/
def apart : List Act :=
  [.select .pzs false true, .type .pzs (ascii "hi\n"), .test .pzs,
    .select .pls true false, .read .pls 3, .test .pls,
    .select .pzs false true, .type .pzs (ascii "exit\n"), .test .pzs,
    .select .pls true false, .read .pls 5, .test .pls]

theorem exit_agreed_apart : ∃ s, sys.runIf Framed apart start = some s ∧
    (s.side .pls).pc = .left false ∧ Agreed s := by
  have hr : ((sys.runIf Framed apart start).map fun s => (s.side .pls).pc) =
      some (.left false) := by decide
  obtain ⟨s, hs, hp⟩ := Option.map_eq_some_iff.1 hr
  exact ⟨s, hs, hp, exit_agreed (.runIf (.init start_init) hs)⟩

end LinuxIpc.FifoChat
