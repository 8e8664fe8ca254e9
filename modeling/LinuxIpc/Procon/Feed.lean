import LinuxIpc.Procon.Stock

namespace LinuxIpc.Procon
set_option autoImplicit true

open Function (update)
open ProdCons (rounds)

/-- The command loop with the lines that its reads are still to deliver, one a read; what it
writes is drained. -/
structure Fed extends St where
  input : List (List UInt8)

/-- The lines left after an action. -/
def supply : Act → List (List UInt8) → Option (List (List UInt8))
  | .read d, l :: ls => if d = l then some ls else none
  | .read _, [] => none
  | _, ls => some ls

def Fed.step (s : Fed) (a : Act) : Option Fed :=
  (supply a s.input).bind fun ls => (Procon.step s.toSt a).map fun (t, _) => ⟨t, ls⟩

def feed (lines : List (List UInt8)) : Fed := ⟨start, lines⟩

def sys (lines : List (List UInt8)) : Sys Fed Act := ⟨(· = feed lines), Fed.step⟩

/-- The line that asks for a thread of kind `k`. -/
def Kind.line : Kind → List UInt8
  | .producer => ascii "create producer\n"
  | .consumer => ascii "create consumer\n"

/-- How many of the lines are that one, up to a NUL. -/
def creates (lines : List (List UInt8)) (k : Kind) : Nat := lines.countP fun l => cstr l = k.line

/-- In every prefix there are at most as many `create consumer` as `create producer`. -/
def Balanced (lines : List (List UInt8)) : Prop := ∀ n ≤ lines.length,
  creates (lines.take n) .consumer ≤ creates (lines.take n) .producer

instance (lines : List (List UInt8)) : Decidable (Balanced lines) := Nat.decidableBallLE _ _

/-- The loop is back at its `read` and all lines have been taken. -/
def Back (s : Fed) : Prop := s.main = .read ∧ s.input = []

/-- The command that `main` is at. -/
def Main.serves : Main → List Command
  | .read => []
  | .spawn k | .reply k | .join k => [.create k]
  | .delete => [.delete]
  | .list k _ => [.list k]
  | .unknown => [.unknown]
  | .exit => [.exit]

/-- The threads through after a command, where `n` were through before it. -/
def Command.add (n : Kind → Nat) : Command → Kind → Nat
  | .create k => bump n k
  | _ => n

/-- A string that `str` has room for is received just where it was written. -/
theorem received_eq_iff (hs : s.length < 1024) : received d = s ↔ cstr d = s := by
  have hd : cstr d = cstr (d.take 1024 ++ d.drop 1024) := by rw [List.take_append_drop]
  have hr : received d = cstr (d.take 1024 ++ (Buf.zero 1024).bytes.drop d.length) := rfl
  rw [hd, hr]
  by_cases h : 0 ∈ d.take 1024
  · rw [cstr_append_of_mem h, cstr_append_of_mem h]
  · rw [cstr_append_of_notMem h, cstr_append_of_notMem h]
    by_cases hlen : d.length ≤ 1024
    · have hz : cstr ((Buf.zero 1024).bytes.drop d.length) = [] := by
        rw [Buf.zero, List.drop_replicate]
        cases 1024 - d.length <;> rfl
      rw [hz, List.drop_eq_nil_of_le hlen]
      rfl
    · -- both are too long for `s`
      have htake : (d.take 1024).length = 1024 :=
        List.length_take_of_le (Nat.le_of_not_le hlen)
      constructor <;>
      · rintro rfl
        rw [List.length_append, htake] at hs
        omega

theorem interpret_create : interpret str = .create k ↔ str = k.line := by
  constructor
  · intro h
    unfold interpret at h
    split at h
    · cases h
      assumption
    · split at h
      · cases h
        assumption
      · repeat' split at h
        all_goals cases h
  · rintro rfl
    cases k <;> rfl

theorem command_create : command l = .create k ↔ cstr l = k.line := by
  have hlen : k.line.length < 1024 := by cases k <;> decide
  rw [command, interpret_create, received_eq_iff hlen]

theorem creates_nil : creates [] k = 0 := List.countP_nil

theorem creates_snoc : creates (lines ++ [l]) = (command l).add (creates lines) := by
  funext k
  rw [creates, List.countP_append, List.countP_singleton]
  simp only [← command_create, decide_eq_true_eq]
  cases hc : command l with
  | create j =>
    rw [Command.add, bump]
    by_cases hk : k = j
    · subst hk
      simp [creates, command_create]
    · simp [creates, command_create, Function.update_of_ne hk, Ne.symm hk]
  | _ => simp [creates, command_create, Command.add]

theorem creates_append_le : creates l k ≤ creates (l ++ l') k := by
  rw [creates, creates, List.countP_append]
  exact Nat.le_add_right _ _

theorem exists_line (h : lines.map command = [c]) : ∃ l, lines = [l] := by
  have hlen := congrArg List.length h
  rw [List.length_map] at hlen
  exact List.length_eq_one_iff.1 hlen

theorem Command.serves_main (c : Command) : c.main.serves = [c] := by
  cases c <;> rfl

/-- A step takes the next line, or completes the command at hand, or goes on with it. -/
theorem serves_step (h : Procon.step s a = some (t, o)) (ha : Account n s) :
    (∃ d, a = .read d ∧ s.main = .read ∧ t.main = (command d).main) ∨
    (∀ d, a ≠ .read d) ∧
      ((∃ c, s.main.serves = [c] ∧ t.main = .read ∧ through n s a = c.add n) ∨
      t.main.serves = s.main.serves ∧ s.main ≠ .read ∧ through n s a = n) := by
  cases move_of_step h with
  | read hm => exact .inl ⟨_, rfl, hm, rfl⟩
  | spawn hm => exact .inr ⟨by rintro d ⟨⟩, .inr ⟨by rw [hm]; rfl, by rw [hm]; rintro ⟨⟩, rfl⟩⟩
  | reply hm => exact .inr ⟨by rintro d ⟨⟩, .inr ⟨by rw [hm]; rfl, by rw [hm]; rintro ⟨⟩, rfl⟩⟩
  | join hm => exact .inr ⟨by rintro d ⟨⟩, .inl ⟨_, by rw [hm]; rfl, rfl, by rw [through, hm]; rfl⟩⟩
  | delete hm => exact .inr ⟨by rintro d ⟨⟩, .inl ⟨_, by rw [hm]; rfl, rfl, rfl⟩⟩
  | list hm => exact .inr ⟨by rintro d ⟨⟩, .inr ⟨by rw [hm]; rfl, by rw [hm]; rintro ⟨⟩, rfl⟩⟩
  | listed hm => exact .inr ⟨by rintro d ⟨⟩, .inl ⟨_, by rw [hm]; rfl, rfl, rfl⟩⟩
  | unknown hm => exact .inr ⟨by rintro d ⟨⟩, .inl ⟨_, by rw [hm]; rfl, rfl, rfl⟩⟩
  | thread ht hu =>
    obtain ⟨hm, hok⟩ := ha.thread ht
    have hne : s.main ≠ .read := by rcases hm with hm | hm <;> (rw [hm]; rintro ⟨⟩)
    exact .inr ⟨by rintro d ⟨⟩, .inr ⟨by rw [(hok.step hu).1], hne, rfl⟩⟩
  | spurious ht =>
    obtain ⟨hm, hok⟩ := ha.thread ht
    have hne : s.main ≠ .read := by rcases hm with hm | hm <;> (rw [hm]; rintro ⟨⟩)
    exact .inr ⟨by rintro d ⟨⟩, .inr ⟨rfl, hne, rfl⟩⟩

/-- The commands in `done` are through, that in `cur` is at hand. -/
structure Inv (lines done cur : List (List UInt8)) (s : Fed) : Prop where
  split : lines = done ++ cur ++ s.input
  serves : cur.map command = s.main.serves
  account : Account (creates done) s.toSt
  balanced : ∀ n ≤ done.length,
    creates (lines.take n) .consumer ≤ creates (lines.take n) .producer

theorem Inv.start : Inv lines [] [] (feed lines) where
  split := rfl
  serves := rfl
  account := by
    have hz : creates [] = fun _ => 0 := funext fun _ => creates_nil
    rw [hz]
    exact Account.start
  balanced n hn := by
    obtain rfl := Nat.le_zero.1 hn
    rw [List.take_zero, creates_nil, creates_nil]

theorem Fed.step_eq {s : Fed} (h : s.step a = some t) :
    supply a s.input = some t.input ∧ ∃ o, Procon.step s.toSt a = some (t.toSt, o) := by
  obtain ⟨ls, hls, h⟩ := Option.bind_eq_some_iff.1 h
  obtain ⟨⟨u, o⟩, hu, rfl⟩ := Option.map_eq_some_iff.1 h
  exact ⟨hls, o, hu⟩

theorem supply_read (h : supply (.read d) ls = some ls') : ls = d :: ls' := by
  cases ls with
  | nil => cases h
  | cons l ls =>
    simp only [supply, Option.ite_none_right_eq_some, Option.some.injEq] at h
    rw [h.1, h.2]

theorem supply_other (h : supply a ls = some ls') (ha : ∀ d, a ≠ .read d) : ls' = ls := by
  cases a with
  | read d => exact (ha d rfl).elim
  | _ => exact (Option.some.inj h).symm

theorem Settled.le (h : Settled n s) : n .consumer ≤ n .producer := by
  have hs := h.stock
  omega

theorem Inv.step (h : Inv lines done cur s) (ht : s.step a = some t) :
    ∃ done' cur', Inv lines done' cur' t := by
  obtain ⟨hsup, o, hstep⟩ := Fed.step_eq ht
  have hacc := h.account.step hstep
  rcases serves_step hstep h.account with
    ⟨d, rfl, hm, hm'⟩ | ⟨ha, ⟨c, hc, hm', hn⟩ | ⟨hm', hm, hn⟩⟩
  · have hcur : cur = [] := by
      have hs := h.serves
      rw [hm] at hs
      exact List.map_eq_nil_iff.1 hs
    refine ⟨done, [d], ?_, ?_, hacc, h.balanced⟩
    · rw [h.split, hcur, supply_read hsup, List.append_nil, List.append_assoc]
      rfl
    · rw [hm', Command.serves_main]
      rfl
  · have hs := h.serves
    rw [hc] at hs
    obtain ⟨l, rfl⟩ := exists_line hs
    have hcl : command l = c := List.cons.inj hs |>.1
    have hsplit : lines = (done ++ [l]) ++ [] ++ t.input := by
      rw [supply_other hsup ha, List.append_nil]
      exact h.split
    rw [hn, ← hcl, ← creates_snoc] at hacc
    refine ⟨done ++ [l], [], hsplit, by rw [hm']; rfl, hacc, ?_⟩
    intro n hle
    rcases Nat.lt_or_eq_of_le hle with hlt | rfl
    · apply h.balanced n
      rw [List.length_append] at hlt
      exact Nat.le_of_lt_succ hlt
    · have hset : Settled (creates (done ++ [l])) t.toSt := by
        unfold Account at hacc
        rw [hm'] at hacc
        exact hacc.2
      have htake : lines.take (done ++ [l]).length = done ++ [l] := by
        rw [hsplit, List.append_nil, List.take_left]
      rw [htake]
      exact hset.le
  · rw [hn] at hacc
    refine ⟨done, cur, ?_, ?_, hacc, h.balanced⟩
    · rw [supply_other hsup ha]
      exact h.split
    · rw [hm']
      exact h.serves

/-- At the `read` the state is settled after the commands so far. -/
theorem Inv.settled (h : Inv lines done cur s) (hm : s.main = .read) :
    cur = [] ∧ Settled (creates done) s.toSt := by
  have hs := h.serves
  have ha := h.account
  unfold Account at ha
  rw [hm] at hs ha
  exact ⟨List.map_eq_nil_iff.1 hs, ha.2⟩

theorem Inv.back (h : Inv lines done cur s) (hb : Back s) : Balanced lines := by
  obtain ⟨rfl, -⟩ := h.settled hb.1
  have hd : lines = done := by
    rw [h.split, hb.2, List.append_nil, List.append_nil]
  intro n hn
  exact h.balanced n (hd ▸ hn)

/-- The command at hand is the line behind those that are through. -/
theorem Inv.current (h : Inv lines done cur s) (hc : s.main.serves = [c]) :
    ∃ l, command l = c ∧ lines.take (done.length + 1) = done ++ [l] ∧
      lines = (done ++ [l]) ++ s.input := by
  have hs := h.serves
  rw [hc] at hs
  obtain ⟨l, rfl⟩ := exists_line hs
  refine ⟨l, (List.cons.inj hs).1, ?_, h.split⟩
  rw [h.split]
  exact List.take_left' List.length_append

end LinuxIpc.Procon
