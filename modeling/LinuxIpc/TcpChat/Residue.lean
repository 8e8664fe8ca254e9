import LinuxIpc.TcpChat.Roster

namespace LinuxIpc.TcpChat.Roster
set_option autoImplicit true

open Function (update)

/-- The string that stands behind the first `n` bytes of the name in the slot to be filled next. -/
def St.residue (s : St) (n : Nat) (behind : List UInt8) : List UInt8 :=
  cstr ((s.table.client s.table.cnt).name.bytes.drop n ++ behind)

/-- Names arrive with at most 39 bytes. -/
def Short (_ : St) : Event → Prop
  | .accept _ d _ => d.length ≤ 39
  | _ => True

instance (s : St) : ∀ e, Decidable (Short s e)
  | .accept _ d _ => inferInstanceAs (Decidable (d.length ≤ 39))
  | .line .. | .leave .. => .isTrue trivial

/-- Then each name field ends in a NUL, and the string in it ends there at the latest. -/
theorem terminated (h : sys.ReachableIf Short s) (i : Nat) :
    (s.table.client i).name.bytes.drop 39 = [0] := by
  have hall : ∀ i, (s.table.client i).name.bytes.drop 39 = [0] := by
    apply h.invariant
    · rintro _ rfl i
      rfl
    · intro s e t hs hg ht
      change step s e = some t at ht
      cases e with
      | accept cfd d behind =>
        obtain ⟨-, rfl⟩ := of_guard ht
        change ∀ i, ((s.table.fill cfd d).client i).name.bytes.drop 39 = [0]
        rw [Table.fill_client]
        apply (Function.forall_update_iff s.table.client
          fun _ c => c.name.bytes.drop 39 = [0]).2
        refine ⟨?_, fun i _ => hs i⟩
        rw [Table.entry, Buf.drop_overwrite _ hg (by decide)]
        exact hs _
      | line cl d b =>
        obtain ⟨-, rfl⟩ := of_guard ht
        exact hs
      | leave cl behind =>
        obtain ⟨-, rfl⟩ := of_guard ht
        change ∀ i, ((s.table.leave cl).client i).name.bytes.drop 39 = [0]
        unfold Table.leave
        split
        · exact (Function.forall_update_iff s.table.client
            fun _ c => c.name.bytes.drop 39 = [0]).2 ⟨hs _, fun i _ => hs i⟩
        · exact hs
  exact hall i

theorem zero_mem_drop {l : List UInt8} (h : l.drop 39 = [0]) (hn : n ≤ 39) : 0 ∈ l.drop n := by
  have hm : (0 : UInt8) ∈ l.drop 39 := h ▸ List.mem_singleton_self 0
  rw [← Nat.sub_add_cancel hn, Nat.add_comm, ← List.drop_drop] at hm
  exact List.mem_of_mem_drop hm

/-- So what stands behind the fields does not matter. -/
theorem residue_eq (h : sys.ReachableIf Short s) (hn : n ≤ 39) (behind : List UInt8) :
    s.residue n behind = cstr ((s.table.client s.table.cnt).name.bytes.drop n) :=
  cstr_append_of_mem (zero_mem_drop (terminated h _) hn)

theorem entry_nick (h : sys.ReachableIf Short s) (hd : d.length ≤ 39) (behind : List UInt8) :
    (s.table.entry cfd d).nick behind = cstr (s.table.entry cfd d).name.bytes := by
  have h0 : 0 ∈ (s.table.entry cfd d).name.bytes.drop 39 := by
    rw [Table.entry, Buf.drop_overwrite _ hd (by decide)]
    exact zero_mem_drop (terminated h _) (Nat.le_refl 39)
  exact Client.nick_eq (List.mem_of_mem_drop h0) behind

/-- The entry that an accept adds, and that its handler copies. -/
theorem accept_entry (h : sys.Reachable s) (ht : step s (.accept cfd d b) = some t) :
    t.table.entries = s.table.entries ++ [s.table.entry cfd d] ∧
    t.live = s.table.entry cfd d :: s.live := by
  have hs := inv_of_reachable h
  obtain ⟨-, rfl⟩ := of_guard ht
  exact ⟨s.table.entries_login d hs.cnt_lt, rfl⟩

/-- After two histories the same bytes show the same name, wherever it is read, exactly if they
hold the NUL or the slots hold the same string behind them. -/
theorem nick_eq_iff (h₁ : sys.ReachableIf Short s₁) (h₂ : sys.ReachableIf Short s₂)
    (hd : d.length ≤ 39) (ht₁ : step s₁ (.accept f₁ d m₁) = some t₁)
    (ht₂ : step s₂ (.accept f₂ d m₂) = some t₂) :
    ∃ c₁ c₂, t₁.table.entries = s₁.table.entries ++ [c₁] ∧ t₁.live = c₁ :: s₁.live ∧
      t₂.table.entries = s₂.table.entries ++ [c₂] ∧ t₂.live = c₂ :: s₂.live ∧
      ∀ b₁ b₂ b, (c₁.nick b₁ = c₂.nick b₂ ↔
        0 ∈ d ∨ s₁.residue d.length b = s₂.residue d.length b) := by
  obtain ⟨he₁, hl₁⟩ := accept_entry h₁.reachable ht₁
  obtain ⟨he₂, hl₂⟩ := accept_entry h₂.reachable ht₂
  refine ⟨_, _, he₁, hl₁, he₂, hl₂, fun b₁ b₂ b => ?_⟩
  rw [entry_nick h₁ hd, entry_nick h₂ hd, residue_eq h₁ hd, residue_eq h₂ hd]
  exact Buf.cstr_overwrite_iff _ _ (Nat.le_succ_of_le hd)

/-- Someone who has left under the name `ab` makes an `xb` of the next one whose first segment ends
behind its `x`. -/
theorem residue_shown : ∃ s t₁ t₂,
    sys.run [.accept 4 [97, 98, 0] [], .leave (Table.empty.entry 4 [97, 98, 0]) []] ⟨.empty, []⟩ =
      some s ∧ s.table.cnt = 0 ∧
    step ⟨.empty, []⟩ (.accept 4 [120] []) = some t₁ ∧ step s (.accept 4 [120] []) = some t₂ ∧
    ∀ b, (t₁.table.client 0).nick b = [120] ∧ (t₂.table.client 0).nick b = [120, 98] :=
  ⟨_, _, _, rfl, rfl, rfl, rfl, fun _ => ⟨rfl, rfl⟩⟩

/-- With its NUL the name is the same after either history. -/
theorem nick_eq_iff_vacated : ∃ s t₁ t₂ c₁ c₂,
    sys.run [.accept 4 [97, 98, 0] [], .leave (Table.empty.entry 4 [97, 98, 0]) []] ⟨.empty, []⟩ =
      some s ∧
    step ⟨.empty, []⟩ (.accept 4 [120, 0] []) = some t₁ ∧
    step s (.accept 4 [120, 0] []) = some t₂ ∧
    t₁.table.entries = [c₁] ∧ t₂.table.entries = [c₂] ∧ ∀ b₁ b₂, c₁.nick b₁ = c₂.nick b₂ := by
  have hr : ∃ s t₁ t₂, sys.runIf Short [.accept 4 [97, 98, 0] [],
        .leave (Table.empty.entry 4 [97, 98, 0]) []] ⟨.empty, []⟩ = some s ∧
      sys.run [.accept 4 [97, 98, 0] [], .leave (Table.empty.entry 4 [97, 98, 0]) []]
        ⟨.empty, []⟩ = some s ∧
      s.table.entries = [] ∧
      step ⟨.empty, []⟩ (.accept 4 [120, 0] []) = some t₁ ∧
      step s (.accept 4 [120, 0] []) = some t₂ := ⟨_, _, _, rfl, rfl, rfl, rfl, rfl⟩
  obtain ⟨s, t₁, t₂, hs, hrun, hnil, ht₁, ht₂⟩ := hr
  obtain ⟨c₁, c₂, he₁, -, he₂, -, hiff⟩ := nick_eq_iff (d := [120, 0])
    (.init rfl) (.runIf (.init rfl) hs) (by decide) ht₁ ht₂
  rw [hnil] at he₂
  refine ⟨s, t₁, t₂, c₁, c₂, hrun, ht₁, ht₂, he₁, he₂, fun b₁ b₂ => ?_⟩
  exact (hiff b₁ b₂ []).2 (.inl (by decide))

end LinuxIpc.TcpChat.Roster
