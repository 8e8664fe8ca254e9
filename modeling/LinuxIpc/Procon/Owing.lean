import LinuxIpc.Procon.Admin
import LinuxIpc.Procon.Stock

namespace LinuxIpc.Procon
set_option autoImplicit true

/-- `main` is to write at least once more for the command at hand. -/
def St.Owes (s : St) : Prop :=
  match s.main with
  | .spawn _ | .reply _ | .delete | .unknown => True
  | .list k i => i < s.count k
  | .read | .join _ | .exit => False

/-- Text that arrives as it was written. -/
def Text (o : List UInt8) : Prop := o ≠ [] ∧ o.length ≤ 20 ∧ 0 ∉ o

instance (o : List UInt8) : Decidable (Text o) := inferInstanceAs (Decidable (_ ∧ _))

theorem Text.lu (n : UInt64) : Text (lu n) :=
  ⟨lu_ne_nil n, lu_length_le n, fun h => lu_ne_zero h rfl⟩

theorem Text.shown (h : Text o) : shown o = o := by
  apply Buf.cstr_overwrite_zero
  · intro b hb h0
    exact h.2.2 (h0 ▸ hb)
  · exact Nat.lt_of_le_of_lt h.2.1 (by decide)

/-- A step other than a `read` writes nothing, or the text that is owed. Only in the listing of a
kind is more owed after a write. -/
theorem owes_step (h : Procon.step s a = some (t, o)) (ha : Account n s)
    (hr : ∀ d, a ≠ .read d) :
    o = [] ∧ (t.Owes ↔ s.Owes) ∨
    Text o ∧ s.Owes ∧ (t.Owes → ∃ k i, s.main = .list k i ∧ i + 1 < s.count k) := by
  have hsame : ∀ {u : St} {th : Thread}, u.main = s.main → s.thread = some th →
      (u.Owes ↔ s.Owes) := by
    intro u th hu ht
    unfold St.Owes
    rcases (ha.thread ht).1 with hm | hm <;> rw [hu, hm]
  cases move_of_step h with
  | read => exact (hr _ rfl).elim
  | spawn hm =>
    left
    rw [St.Owes, St.Owes, hm]
    exact ⟨rfl, Iff.rfl⟩
  | reply hm =>
    right
    rw [St.Owes, St.Owes, hm]
    exact ⟨.lu _, trivial, nofun⟩
  | join hm =>
    left
    rw [St.Owes, St.Owes, hm]
    exact ⟨rfl, Iff.rfl⟩
  | delete hm =>
    right
    rename_i ok
    rw [St.Owes, St.Owes, hm]
    refine ⟨?_, trivial, nofun⟩
    cases ok <;> decide
  | list hm hi =>
    right
    rw [St.Owes, St.Owes, hm]
    exact ⟨.lu _, hi, fun ht => ⟨_, _, rfl, ht⟩⟩
  | listed hm hi =>
    left
    rw [St.Owes, St.Owes, hm]
    exact ⟨rfl, nofun, fun hs => (Nat.not_lt_of_le hi hs).elim⟩
  | unknown hm =>
    right
    rw [St.Owes, St.Owes, hm]
    refine ⟨?_, trivial, nofun⟩
    decide
  | thread ht hu =>
    left
    obtain ⟨-, hok⟩ := ha.thread ht
    exact ⟨rfl, hsame (hok.step hu).1 ht⟩
  | spurious ht => exact .inl ⟨rfl, hsame rfl ht⟩

/-- While nothing is owed, nothing is written and nothing comes to be owed. -/
theorem quiet_step (h : Procon.step s a = some (t, o)) (ha : Account n s)
    (hr : ∀ d, a ≠ .read d) (hq : ¬ s.Owes) : o = [] ∧ ¬ t.Owes := by
  rcases owes_step h ha hr with ⟨ho, hiff⟩ | ⟨-, hs, -⟩
  · exact ⟨ho, mt hiff.1 hq⟩
  · exact (hq hs).elim

/-- `main` gets to `exit(0)` by a `read` only, and stays there. -/
theorem exit_step (h : Procon.step s a = some (t, o)) (ha : Account n s)
    (hr : ∀ d, a ≠ .read d) : t.main = .exit ↔ s.main = .exit := by
  cases move_of_step h with
  | read => exact (hr _ rfl).elim
  | spawn hm => rw [hm]; exact ⟨nofun, nofun⟩
  | reply hm => rw [hm]; exact ⟨nofun, nofun⟩
  | join hm => rw [hm]; exact ⟨nofun, nofun⟩
  | delete hm => rw [hm]; exact ⟨nofun, nofun⟩
  | list hm => rw [hm]; exact ⟨nofun, nofun⟩
  | listed hm => rw [hm]; exact ⟨nofun, nofun⟩
  | unknown hm => rw [hm]; exact ⟨nofun, nofun⟩
  | thread ht hu =>
    obtain ⟨-, hok⟩ := ha.thread ht
    rw [(hok.step hu).1]
  | spurious => exact Iff.rfl

/-- A listing goes on with the same kind and the same number of threads. -/
theorem list_step (h : Procon.step s a = some (t, o)) (ha : Account n s)
    (hr : ∀ d, a ≠ .read d) (hm : t.main = .list k i) :
    ∃ j, s.main = .list k j ∧ t.count = s.count := by
  cases move_of_step h with
  | read => exact (hr _ rfl).elim
  | list hs => cases hm; exact ⟨_, hs, rfl⟩
  | thread ht hu =>
    obtain ⟨hmain, hok⟩ := ha.thread ht
    rw [← (hok.step hu).1, hm] at hmain
    rcases hmain with hmain | hmain <;> cases hmain
  | spurious ht =>
    obtain ⟨hmain, -⟩ := ha.thread ht
    have hm' : s.main = .list k i := hm
    rw [hm'] at hmain
    rcases hmain with hmain | hmain <;> cases hmain
  | _ => cases hm

/-- What is at hand after a `read`. -/
theorem read_step (h : Procon.step s (.read d) = some (t, o)) :
    s.main = .read ∧ t.main = (command d).main ∧ t.count = s.count := by
  cases move_of_step h with
  | read hm => exact ⟨hm, rfl, rfl⟩

theorem Command.main_exit {c : Command} (h : c.main = .exit) : c = .exit := by
  cases c with
  | exit => rfl
  | _ => cases h

theorem interpret_exit (h : interpret l = .exit) : l = ascii "exit\n" := by
  unfold interpret at h
  split at h
  · cases h
  split at h
  · cases h
  split at h
  · cases h
  split at h
  · cases h
  split at h
  · cases h
  split at h
  · assumption
  · cases h

/-- A step of the two programs as one of `procon1`. -/
theorem Net.procon_step {n m : Net} (h : n.step (.procon a) = some m) :
    (∀ d, a ≠ .read d) ∧ ∃ p o, Procon.step n.procon a = some (p, o) ∧
      m = { n with procon := p, fifo2 := n.fifo2.write o, replies := answer o n.replies } := by
  cases a with
  | read d => cases h
  | _ =>
    refine ⟨nofun, ?_⟩
    obtain ⟨⟨p, o⟩, hp, rfl⟩ := Option.map_eq_some_iff.1 h
    exact ⟨p, o, hp, rfl⟩

theorem Net.read_step {n m : Net} (h : n.step (.read k) = some m) :
    ∃ d f p o, n.fifo1.read 1024 k = some (d, f) ∧ Procon.step n.procon (.read d) = some (p, o) ∧
      m = { n with
        fifo1 := f
        procon := p
        heard := n.heard ++ [received d]
        replies := n.replies ++ [[]] } := by
  obtain ⟨⟨d, f⟩, hd, h⟩ := Option.bind_eq_some_iff.1 h
  obtain ⟨⟨p, o⟩, hp, rfl⟩ := Option.map_eq_some_iff.1 h
  exact ⟨d, f, p, o, hd, hp, rfl⟩

theorem Net.account_step {n m : Net} (ha : ∃ c, Account c n.procon) (h : n.step a = some m) :
    ∃ c, Account c m.procon := by
  obtain ⟨c, ha⟩ := ha
  cases a with
  | procon a =>
    obtain ⟨-, p, o, hp, rfl⟩ := Net.procon_step h
    exact ⟨_, ha.step hp⟩
  | read k =>
    obtain ⟨d, f, p, o, -, hp, rfl⟩ := Net.read_step h
    exact ⟨_, ha.step hp⟩
  | receive k =>
    simp only [Net.step, Option.ite_none_right_eq_some, Option.map_eq_some_iff] at h
    obtain ⟨-, -, -, rfl⟩ := h
    exact ⟨c, ha⟩
  | _ =>
    obtain ⟨-, rfl⟩ := of_guard h
    exact ⟨c, ha⟩

end LinuxIpc.Procon
