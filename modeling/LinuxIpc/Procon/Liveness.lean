import LinuxIpc.Procon.Feed

namespace LinuxIpc.Procon
set_option autoImplicit true

open ProdCons (rounds)

/-- Sections that a thread has still before it, when it need not wait. -/
def Thread.Pc.rank : Thread.Pc → Nat
  | .enter => 12
  | .loop b => b.rank + 1
  | .ended => 0

/-- Steps of `main` to its next `read`, those of a thread counted at its creation. -/
def Main.rank (count : Kind → Nat) : Main → Nat
  | .read | .exit => 0
  | .spawn _ => 30
  | .reply _ => 2
  | .join _ | .delete | .unknown => 1
  | .list k i => count k - i + 1

def St.rank (s : St) : Nat := s.main.rank s.count + s.thread.elim 0 fun th => th.pc.rank

/-- The thread does not wait for a node. -/
def Awake (s : St) : Prop := ∀ th b, s.thread = some th → th.pc = .loop b → b.waiting = false

theorem Awake.read (h : Awake s) (hs : Procon.step s (.read d) = some (t, o)) : Awake t := by
  cases move_of_step hs with
  | read => exact h

/-- A consumer that runs finds nodes for all its rounds. -/
def Stocked (s : St) : Prop := ∀ th b, s.thread = some th → th.pc = .loop b →
  b.kind = .consumer → rounds ≤ s.head.length + b.pops

theorem Kind.body_rank (k : Kind) : k.body.rank = 10 ∧ k.body.waiting = false := by
  cases k <;> exact ⟨rfl, rfl⟩

theorem stepThread_rank (h : s.stepThread th r = some t) (hok : ThreadOk n s th)
    (hth : s.thread = some th) (hs : Stocked s) :
    ∃ pc, t.thread = some { th with pc := pc } ∧ t.main = s.main ∧ pc.rank < th.pc.rank ∧
      ∀ b, pc = .loop b → b.waiting = false := by
  rcases stepThread_cases h with ⟨hpc, h⟩ | ⟨b, hpc, -, rfl⟩ | ⟨b, b', head, hpc, hb, rfl⟩
  · obtain ⟨-, rfl⟩ := of_guard h
    refine ⟨_, rfl, rfl, ?_, ?_⟩
    · rw [hpc, Thread.Pc.rank, Thread.Pc.rank, th.kind.body_rank.1]
      exact Nat.lt_succ_self _
    · rintro b ⟨⟩
      exact th.kind.body_rank.2
  · rw [hpc]
    exact ⟨_, rfl, rfl, Nat.succ_pos _, nofun⟩
  · rw [ThreadOk, hpc] at hok
    obtain ⟨hlt, hw⟩ := Body.step_rank hb hok.2.1 (hs th b hth hpc)
    rw [hpc]
    refine ⟨_, rfl, rfl, Nat.succ_lt_succ hlt, ?_⟩
    rintro b ⟨⟩
    exact hw

/-- A step that is not a `read` brings the loop nearer to its next `read`. -/
theorem step_rank (h : Procon.step s a = some (t, o)) (ha : Account n s)
    (hr : ∀ d, a ≠ .read d) (hw : Awake s) (hs : Stocked s) : t.rank < s.rank ∧ Awake t := by
  have hacc := ha
  unfold Account at ha
  cases move_of_step h with
  | read => exact (hr _ rfl).elim
  | spawn hm =>
    rw [hm] at ha
    constructor
    · simp only [St.rank, hm, ha.1, Main.rank, Option.elim, Thread.Pc.rank]
      omega
    · rintro th b ⟨⟩ hpc
      cases hpc
  | reply hm =>
    refine ⟨?_, hw⟩
    simp only [St.rank, hm, Main.rank]
    omega
  | join hm ht =>
    refine ⟨?_, nofun⟩
    simp only [St.rank, hm, ht, Main.rank, Option.elim]
    omega
  | delete hm =>
    refine ⟨?_, hw⟩
    simp only [St.rank, hm, Main.rank]
    omega
  | list hm hi =>
    refine ⟨?_, hw⟩
    simp only [St.rank, hm, Main.rank]
    omega
  | listed hm =>
    refine ⟨?_, hw⟩
    simp only [St.rank, hm, Main.rank]
    omega
  | unknown hm =>
    refine ⟨?_, hw⟩
    simp only [St.rank, hm, Main.rank]
    omega
  | thread ht hu =>
    obtain ⟨hm, hok⟩ := hacc.thread ht
    obtain ⟨pc, hpc, hmain, hlt, hwait⟩ := stepThread_rank hu hok ht hs
    constructor
    · rw [St.rank, St.rank, hmain, hpc, ht]
      rcases hm with hm | hm <;> (rw [hm]; exact Nat.add_lt_add_left hlt _)
    · intro th' b ht' hb
      obtain rfl := Option.some.inj (hpc.symm.trans ht')
      exact hwait b hb
  | spurious ht hpc hb =>
    have hwait := (Body.spurious_stock hb).1
    rw [hw _ _ ht hpc] at hwait
    cases hwait

/-- Between two reads some step is enabled, as long as the arrays have room. -/
theorem exists_step (ha : Account n s) (hw : Awake s) (hm : s.main ≠ .read)
    (he : s.main ≠ .exit) (hb : ∀ k, s.main.serves = [.create k] → n k < tids) :
    ∃ a, (∀ d, a ≠ .read d) ∧ (Procon.step s a).isSome := by
  have hacc := ha
  unfold Account at ha
  have hthread : ∀ th, s.thread = some th → th.pc ≠ .ended → n th.kind < tids →
      ∃ a, (∀ d, a ≠ .read d) ∧ (Procon.step s a).isSome := by
    intro th hth hend hroom
    obtain ⟨-, hok⟩ := hacc.thread hth
    unfold ThreadOk at hok
    have hstep : (s.stepThread th 0).isSome := by
      unfold St.stepThread
      cases hpc : th.pc with
      | enter =>
        rw [hpc] at hok
        rw [← hok.count] at hroom
        simp only [St.enter, if_pos hroom, Option.isSome_some]
      | loop b =>
        cases hended : b.ended with
        | true => simp only [hended, if_true, Option.isSome_some]
        | false =>
          obtain ⟨b', head, hbs⟩ := Body.exists_step 0 s.head hended (hw th b hth hpc)
          simp only [hended, hbs, Bool.false_eq_true, if_false, Option.map_some,
            Option.isSome_some]
      | ended => exact (hend hpc).elim
    refine ⟨.thread 0, by rintro d ⟨⟩, ?_⟩
    simp only [Procon.step, hth, Option.bind_some, Option.isSome_map, hstep]
  cases hmain : s.main with
  | read => exact (hm hmain).elim
  | exit => exact (he hmain).elim
  | spawn k =>
    refine ⟨.spawn 0, by rintro d ⟨⟩, ?_⟩
    simp only [Procon.step, hmain, Option.isSome_some]
  | reply k =>
    refine ⟨.reply 0, by rintro d ⟨⟩, ?_⟩
    simp only [Procon.step, hmain, Option.isSome_some]
  | join k =>
    rw [hmain] at ha
    obtain ⟨⟨kind, self, pc⟩, hth, rfl, -⟩ := ha
    by_cases hpc : pc = .ended
    · subst hpc
      exact ⟨.join, by rintro d ⟨⟩, by simp only [Procon.step, hmain, hth, Option.isSome_some]⟩
    · exact hthread _ hth hpc (hb _ (by rw [hmain]; rfl))
  | delete =>
    refine ⟨.delete true, by rintro d ⟨⟩, ?_⟩
    simp only [Procon.step, hmain, Option.isSome_some]
  | list k i =>
    by_cases hi : i < s.count k
    · refine ⟨.list, by rintro d ⟨⟩, ?_⟩
      simp only [Procon.step, hmain, if_pos hi, Option.isSome_some]
    · refine ⟨.list, by rintro d ⟨⟩, ?_⟩
      simp only [Procon.step, hmain, if_neg hi, Option.isSome_some]
  | unknown =>
    refine ⟨.unknown, by rintro d ⟨⟩, ?_⟩
    simp only [Procon.step, hmain, Option.isSome_some]

theorem Inv.room (h : Inv lines done cur s) (hb : ∀ k, creates lines k ≤ tids)
    (hc : s.main.serves = [.create k]) : creates done k < tids := by
  obtain ⟨l, hl, -, hsplit⟩ := h.current hc
  have hle : creates (done ++ [l]) k ≤ creates lines k := by
    rw [hsplit]
    exact creates_append_le
  rw [creates_snoc, hl, Command.add, bump, Function.update_self] at hle
  exact Nat.lt_of_lt_of_le (Nat.lt_succ_self _) (hle.trans (hb k))

theorem Inv.no_exit (h : Inv lines done cur s) (hl : ∀ l ∈ lines, command l ≠ .exit) :
    s.main ≠ .exit := by
  intro hm
  obtain ⟨l, hc, -, hsplit⟩ := h.current (c := .exit) (by rw [hm]; rfl)
  apply hl l ?_ hc
  rw [hsplit]
  simp

theorem Fed.exists_step {s : Fed} (h : Inv lines done cur s) (hw : Awake s.toSt)
    (hl : ∀ l ∈ lines, l ≠ [] ∧ command l ≠ .exit) (hb : ∀ k, creates lines k ≤ tids)
    (hg : ¬ Back s) : ∃ a t, s.step a = some t := by
  by_cases hm : s.main = .read
  · cases hi : s.input with
    | nil => exact (hg ⟨hm, hi⟩).elim
    | cons l ls =>
      have hne : l ≠ [] := by
        apply (hl l _).1
        rw [h.split, hi]
        simp
      refine ⟨.read l, ⟨{ s.toSt with main := (command l).main }, ls⟩, ?_⟩
      simp only [Fed.step, supply, hi, if_true, Option.bind_some, Procon.step, hm, if_neg hne,
        Option.map_some]
  · obtain ⟨a, ha, hs⟩ := Procon.exists_step h.account hw hm
      (h.no_exit fun l hm => (hl l hm).2) fun k => h.room hb
    obtain ⟨⟨t, o⟩, ht⟩ := Option.isSome_iff_exists.1 hs
    have hsup : supply a s.input = some s.input := by
      cases a with
      | read d => exact (ha d rfl).elim
      | _ => rfl
    exact ⟨a, ⟨t, s.input⟩, by simp only [Fed.step, hsup, Option.bind_some, ht, Option.map_some]⟩

/-- A command that creates no thread leaves counters, arrays and stack alone. -/
theorem Account.frame (h : Account n s) (hc : ∀ k, s.main.serves ≠ [.create k])
    (hs : Procon.step s a = some (t, o)) :
    t.count = s.count ∧ t.tid = s.tid ∧ t.head = s.head ∧ t.created = s.created := by
  have hnone : s.thread = none := by
    cases ht : s.thread with
    | none => rfl
    | some th =>
      obtain ⟨hm, -⟩ := h.thread ht
      rcases hm with hm | hm <;> exact (hc th.kind (by rw [hm]; rfl)).elim
  cases move_of_step hs with
  | spawn hm => exact (hc _ (by rw [hm]; rfl)).elim
  | thread ht => rw [hnone] at ht; cases ht
  | spurious ht => rw [hnone] at ht; cases ht
  | _ => exact ⟨rfl, rfl, rfl, rfl⟩

/-- Of the lines taken the last is the one at hand. -/
theorem Inv.frame (h : Inv lines done cur s)
    (hc : s.main = .read ∨ ∃ front l, lines = front ++ [l] ++ s.input ∧
      ∀ k : Kind, cstr l ≠ k.line) :
    ∀ k, s.main.serves ≠ [.create k] := by
  intro k hk
  rcases hc with hm | ⟨front, l, hl, hne⟩
  · rw [hm] at hk
    cases hk
  · obtain ⟨l', hcmd, -, hsplit⟩ := h.current hk
    have htaken := List.append_cancel_right (hl.symm.trans hsplit)
    obtain ⟨-, rfl⟩ := List.append_inj' htaken rfl |>.imp_right List.singleton_inj.1
    exact hne k (command_create.1 hcmd)

end LinuxIpc.Procon
