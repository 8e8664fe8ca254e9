import LinuxIpc.Procon.Owing

namespace LinuxIpc.Procon
set_option autoImplicit true

/-- `pthread_join` waits for a consumer that waits for a node. -/
def JoinBlocked (s : St) : Prop := ∃ k th b, s.main = .join k ∧ s.thread = some th ∧
  th.pc = .loop b ∧ b.waiting = true ∧ s.head = []

/-- `admin1` waits for a reply on an empty `fifo2` and, with nothing in `fifo1` either, `procon1`
for a command or for a consumer without a node. -/
def MutualWait (n : Net) : Prop :=
  n.admin = .read ∧ n.fifo1 = [] ∧ n.fifo2 = [] ∧
    (n.procon.main = .read ∨ JoinBlocked n.procon)

/-- A listing has an id to write; a creation finds room in the arrays. -/
def Command.Answers (count : Kind → Nat) : Command → Prop
  | .list k => 0 < count k
  | .create k => count k < tids
  | .delete | .exit | .unknown => True

instance (count : Kind → Nat) : ∀ c : Command, Decidable (c.Answers count)
  | .list k => inferInstanceAs (Decidable (0 < count k))
  | .create k => inferInstanceAs (Decidable (count k < tids))
  | .delete | .exit | .unknown => .isTrue trivial

/-- `admin1` writes no empty string, and each command is answered. -/
def Answering (n : Net) : Net.Act → Prop
  | .write => cstr n.s.bytes ≠ []
  | .read k => ∀ d ∈ (n.fifo1.read 1024 k).map Prod.fst, (command d).Answers n.procon.count
  | _ => True

instance (n : Net) : ∀ a, Decidable (Answering n a)
  | .write => inferInstanceAs (Decidable (cstr n.s.bytes ≠ []))
  | .read k => inferInstanceAs (Decidable (∀ d ∈ (n.fifo1.read 1024 k).map Prod.fst,
      (command d).Answers n.procon.count))
  | .type _ | .receive _ | .eof | .test | .procon _ => .isTrue trivial

/-- While `admin1` waits for a reply, a command or a reply is under way. -/
structure UnderWay (n : Net) : Prop where
  account : ∃ c, Account c n.procon
  reply : n.admin = .read →
    n.fifo1 ≠ [] ∨ n.fifo2 ≠ [] ∨ n.procon.Owes ∨ n.procon.main = .exit

theorem UnderWay.start : UnderWay Net.start := ⟨⟨_, Account.start⟩, nofun⟩

theorem UnderWay.no_wait (h : UnderWay n) : ¬ MutualWait n := by
  rintro ⟨hm, h1, h2, hw⟩
  rcases h.reply hm with h' | h' | h' | h'
  · exact h' h1
  · exact h' h2
  · rw [St.Owes] at h'
    rcases hw with hw | ⟨k, th, b, hw, -⟩ <;> (rw [hw] at h'; exact h')
  · rcases hw with hw | ⟨k, th, b, hw, -⟩ <;> (rw [h'] at hw; cases hw)

/-- An answered command is owed a reply from the `read` on, or is the last one. -/
theorem owes_read (h : Procon.step s (.read d) = some (t, o)) (hc : (command d).Answers s.count) :
    t.Owes ∨ t.main = .exit := by
  obtain ⟨-, hm, hcount⟩ := read_step h
  unfold St.Owes
  rw [hm]
  cases hd : command d with
  | exit => exact .inr rfl
  | list k =>
    rw [hd] at hc
    left
    change 0 < t.count k
    rw [hcount]
    exact hc
  | _ => exact .inl trivial

theorem UnderWay.step (h : UnderWay n) (hg : Answering n a) (ht : n.step a = some m) :
    UnderWay m := by
  refine ⟨Net.account_step h.account ht, ?_⟩
  cases a with
  | type piece =>
    obtain ⟨-, rfl⟩ := of_guard ht
    intro hm
    cases hm
  | write =>
    obtain ⟨-, rfl⟩ := of_guard ht
    intro _
    left
    exact n.fifo1.write_ne_nil (.inr hg)
  | receive k =>
    simp only [Net.step, Option.ite_none_right_eq_some, Option.map_eq_some_iff] at ht
    obtain ⟨-, -, -, rfl⟩ := ht
    intro hm
    cases hm
  | eof =>
    obtain ⟨-, rfl⟩ := of_guard ht
    intro hm
    cases hm
  | test =>
    obtain ⟨-, rfl⟩ := of_guard ht
    intro hm
    have hm' : (if exits n.s then Admin.done else Admin.fgets) = .read := hm
    split at hm' <;> cases hm'
  | read k =>
    obtain ⟨d, f, p, o, hd, hp, rfl⟩ := Net.read_step ht
    intro _
    have hc : (command d).Answers n.procon.count := by
      apply hg
      rw [hd]
      rfl
    exact .inr (.inr (owes_read hp hc))
  | procon a =>
    obtain ⟨hr, p, o, hp, rfl⟩ := Net.procon_step ht
    obtain ⟨c, ha⟩ := h.account
    intro hm
    rcases h.reply hm with h1 | h2 | hs | he
    · exact .inl h1
    · exact .inr (.inl (n.fifo2.write_ne_nil (.inl h2)))
    · rcases owes_step hp ha hr with ⟨-, hiff⟩ | ⟨htext, -⟩
      · exact .inr (.inr (.inl (hiff.2 hs)))
      · exact .inr (.inl (n.fifo2.write_ne_nil (.inr htext.1)))
    · exact .inr (.inr (.inr ((exit_step hp ha hr).2 he)))

/-- A listing before any creation is not answered. -/
theorem mutual_wait : ∃ l n, net.run l Net.start = some n ∧ MutualWait n ∧
    ∀ t ∈ n.typed, t.take 4 ≠ ascii "exit" := by
  refine ⟨[.type (ascii "list producer\n"), .write, .read 1, .procon .list], _, rfl, ?_, ?_⟩
  · refine ⟨rfl, rfl, rfl, .inl ?_⟩
    decide
  · decide

theorem no_mutual_wait (h : net.ReachableIf Answering n) : ¬ MutualWait n := by
  have hu : UnderWay n := by
    apply h.invariant
    · rintro n rfl
      exact .start
    · intro n a m hn hg hm
      exact hn.step hg hm
  exact hu.no_wait

/-- A consumer that is created first keeps `procon1` in `pthread_join`, but its id is written. -/
theorem no_mutual_wait_consumer : ∃ n, net.runIf Answering [.type (ascii "create consumer\n"),
    .write, .read 1, .procon (.spawn 7), .procon (.thread 0), .procon (.thread 0),
    .procon (.reply 0)] Net.start = some n ∧ n.procon.main = .join .consumer ∧
    ¬ MutualWait n := by
  have hr : ((net.runIf Answering [.type (ascii "create consumer\n"), .write, .read 1,
      .procon (.spawn 7), .procon (.thread 0), .procon (.thread 0), .procon (.reply 0)]
      Net.start).map fun n => n.procon.main) = some (.join .consumer) := by decide
  obtain ⟨n, hn, hm⟩ := Option.map_eq_some_iff.1 hr
  exact ⟨n, hn, hm, no_mutual_wait (.runIf (.init rfl) hn)⟩

end LinuxIpc.Procon
