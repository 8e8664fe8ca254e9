import LinuxIpc.Procon.Owing

namespace LinuxIpc.Procon
set_option autoImplicit true

/-- `procon1` has interpreted what was typed one by one, and what `admin1` has printed for each is
the reply to it. -/
def Agree (n : Net) : Prop := n.heard <+: n.typed.map cstr ∧ n.printed <+: n.replies

/-- A listing has at most one id to write; a creation finds room in the arrays. -/
def Command.Lone (count : Kind → Nat) : Command → Prop
  | .list k => count k ≤ 1
  | .create k => count k < tids
  | .delete | .exit | .unknown => True

instance (count : Kind → Nat) (c : Command) : Decidable (c.Lone count) := by
  cases c <;> unfold Command.Lone <;> infer_instance

def Lone (n : Net) : Net.Act → Prop
  | .read k => ∀ d ∈ (n.fifo1.read 1024 k).map Prod.fst, (command d).Lone n.procon.count
  | _ => True

instance (n : Net) (a : Net.Act) : Decidable (Lone n a) := by
  cases a <;> unfold Lone <;> infer_instance

/-- Nothing is in a FIFO, and nothing is owed. -/
structure Calm (n : Net) : Prop where
  fifo1 : n.fifo1 = []
  fifo2 : n.fifo2 = []
  owes : ¬ n.procon.Owes

/-- All the lines have been interpreted, and all the replies printed. -/
structure Level (n : Net) : Prop extends Calm n where
  heard : n.heard = n.typed.map cstr
  printed : n.replies = n.printed

/-- The last line is still to be interpreted. -/
structure Ahead (n : Net) : Prop where
  fifo2 : n.fifo2 = []
  owes : ¬ n.procon.Owes
  live : n.procon.main ≠ .exit
  heard : n.heard ++ [cstr n.s.bytes] = n.typed.map cstr
  printed : n.replies = n.printed

/-- The last line has been interpreted, and its reply is still to be written. -/
structure Taken (n : Net) : Prop where
  fifo1 : n.fifo1 = []
  fifo2 : n.fifo2 = []
  exits : n.procon.main = .exit → exits n.s = true
  heard : n.heard = n.typed.map cstr
  printed : n.replies = n.printed ++ [[]]

/-- The reply is still to be read. -/
structure Answered (n : Net) (o : List UInt8) : Prop where
  fifo1 : n.fifo1 = []
  fifo2 : n.fifo2 = [o]
  text : Text o
  owes : ¬ n.procon.Owes
  live : n.procon.main ≠ .exit
  heard : n.heard = n.typed.map cstr
  printed : n.replies = n.printed ++ [o]

/-- The two programs take turns. -/
def Phase (n : Net) : Prop :=
  match n.admin with
  | .fgets => Level n ∧ n.procon.main ≠ .exit
  | .write => Ahead n ∧ n.fifo1 = []
  | .read => (Ahead n ∧ n.fifo1 = Fifo.write [] (cstr n.s.bytes)) ∨ Taken n ∨ ∃ o, Answered n o
  | .test => Level n ∧ (n.procon.main = .exit → exits n.s = true)
  | .done => Level n

/-- The listing at hand is of one thread at most. -/
def Brief (s : St) : Prop := ∀ k i, s.main = .list k i → s.count k ≤ 1

structure Turns (n : Net) : Prop where
  account : ∃ c, Account c n.procon
  brief : Brief n.procon
  phase : Phase n

theorem Turns.start : Turns Net.start where
  account := ⟨_, Account.start⟩
  brief := nofun
  phase := ⟨⟨⟨rfl, rfl, id⟩, rfl, rfl⟩, nofun⟩

theorem Phase.inStep (h : Phase n) : Agree n := by
  have hahead : Ahead n → Agree n := fun h =>
    ⟨h.heard ▸ List.prefix_append .., h.printed ▸ List.prefix_refl _⟩
  have hlevel : Level n → Agree n := fun h =>
    ⟨h.heard ▸ List.prefix_refl _, h.printed ▸ List.prefix_refl _⟩
  unfold Phase at h
  cases hm : n.admin with
  | fgets => rw [hm] at h; exact hlevel h.1
  | write => rw [hm] at h; exact hahead h.1
  | read =>
    rw [hm] at h
    rcases h with ⟨h, -⟩ | h | ⟨o, h⟩
    · exact hahead h
    · exact ⟨h.heard ▸ List.prefix_refl _, h.printed ▸ List.prefix_append ..⟩
    · exact ⟨h.heard ▸ List.prefix_refl _, h.printed ▸ List.prefix_append ..⟩
  | test => rw [hm] at h; exact hlevel h.1
  | done => rw [hm] at h; exact hlevel h

theorem cstr_fgets (h : Stdin.Piece 31 piece) : cstr (fgets s piece).bytes = cstr piece :=
  Buf.cstr_overwrite s (Nat.lt_succ_of_le h.2.1)

theorem received_cstr (s : Buf 32) : received (cstr s.bytes) = cstr s.bytes := by
  apply Buf.cstr_overwrite_zero
  · intro b hb
    exact ne_zero_of_mem_cstr hb
  · have hle := (List.takeWhile_prefix (l := s.bytes) (p := (· ≠ 0))).length_le
    rw [s.length_bytes] at hle
    exact Nat.lt_of_le_of_lt hle (by decide)

theorem Turns.type (h : Turns n) (ht : n.step (.type piece) = some m) : Turns m := by
  obtain ⟨⟨hm, hpiece⟩, rfl⟩ := of_guard ht
  have hp := h.phase
  unfold Phase at hp
  rw [hm] at hp
  obtain ⟨hl, hlive⟩ := hp
  refine ⟨h.account, h.brief, ⟨hl.fifo2, hl.owes, hlive, ?_, hl.printed⟩, hl.fifo1⟩
  change n.heard ++ [cstr (fgets n.s piece).bytes] = (n.typed ++ [piece]).map cstr
  rw [cstr_fgets hpiece, hl.heard, List.map_append]
  rfl

theorem Turns.write (h : Turns n) (ht : n.step .write = some m) : Turns m := by
  obtain ⟨hm, rfl⟩ := of_guard ht
  have hp := h.phase
  unfold Phase at hp
  rw [hm] at hp
  obtain ⟨ha, hf⟩ := hp
  refine ⟨h.account, h.brief, .inl ⟨⟨ha.fifo2, ha.owes, ha.live, ha.heard, ha.printed⟩, ?_⟩⟩
  change n.fifo1.write (cstr n.s.bytes) = _
  rw [hf]

theorem Turns.receive (h : Turns n) (ht : n.step (.receive k) = some m) : Turns m := by
  simp only [Net.step, Option.ite_none_right_eq_some, Option.map_eq_some_iff, Prod.exists] at ht
  obtain ⟨hm, d, f, hd, rfl⟩ := ht
  have hp := h.phase
  unfold Phase at hp
  rw [hm] at hp
  rcases hp with ⟨ha, -⟩ | ha | ⟨o, ha⟩
  · rw [ha.fifo2, Fifo.read_nil] at hd
    cases hd
  · rw [ha.fifo2, Fifo.read_nil] at hd
    cases hd
  · rw [ha.fifo2] at hd
    obtain ⟨rfl, rfl⟩ := Fifo.read_singleton hd (ha.text.2.1.trans (by decide))
    refine ⟨h.account, h.brief, ⟨⟨ha.fifo1, rfl, ha.owes⟩, ha.heard, ?_⟩, ?_⟩
    · change n.replies = n.printed ++ [shown d]
      rw [ha.text.shown, ha.printed]
    · intro he
      exact (ha.live he).elim

theorem Turns.eof (h : Turns n) (ht : n.step .eof = some m) : Turns m := by
  obtain ⟨⟨hm, hf, he⟩, rfl⟩ := of_guard ht
  have hp := h.phase
  unfold Phase at hp
  rw [hm] at hp
  rcases hp with ⟨ha, -⟩ | ha | ⟨o, ha⟩
  · exact (ha.live he).elim
  · have howes : ¬ n.procon.Owes := by
      rw [St.Owes, he]
      exact id
    exact ⟨h.account, h.brief, ⟨⟨ha.fifo1, hf, howes⟩, ha.heard, ha.printed⟩, ha.exits⟩
  · exact (ha.live he).elim

theorem Turns.test (h : Turns n) (ht : n.step .test = some m) : Turns m := by
  obtain ⟨hm, rfl⟩ := of_guard ht
  have hp := h.phase
  unfold Phase at hp
  rw [hm] at hp
  obtain ⟨hl, hx⟩ := hp
  have hl' : ∀ a, Level { n with admin := a } := fun a =>
    ⟨⟨hl.fifo1, hl.fifo2, hl.owes⟩, hl.heard, hl.printed⟩
  refine ⟨h.account, h.brief, ?_⟩
  cases he : exits n.s with
  | true => exact hl' .done
  | false =>
    refine ⟨hl' .fgets, ?_⟩
    intro hexit
    rw [hx hexit] at he
    cases he

/-- `procon1` takes the line that `admin1` has written. -/
theorem Turns.read (h : Turns n) (hg : Lone n (.read k)) (ht : n.step (.read k) = some m) :
    Turns m := by
  have hacc := Net.account_step h.account ht
  obtain ⟨d, f, p, o, hd, hp, rfl⟩ := Net.read_step ht
  obtain ⟨-, hmain, hcount⟩ := read_step hp
  have hlone : (command d).Lone n.procon.count := by
    apply hg
    rw [hd]
    rfl
  have hbrief : Brief p := by
    intro j i hi
    rw [hmain] at hi
    rw [hcount]
    cases hc : command d with
    | list j' =>
      rw [hc] at hi hlone
      cases hi
      exact hlone
    | _ => rw [hc] at hi; cases hi
  have hempty : n.fifo1 ≠ [] := by
    intro he
    rw [he, Fifo.read_nil] at hd
    cases hd
  refine ⟨hacc, hbrief, ?_⟩
  have hph := h.phase
  unfold Phase at hph ⊢
  cases hm : n.admin with
  | read =>
    rw [hm] at hph
    rcases hph with ⟨ha, hf⟩ | ha | ⟨o, ha⟩
    · have hne : cstr n.s.bytes ≠ [] := by
        intro he
        rw [he] at hf
        exact hempty hf
      rw [hf, Fifo.write_of_ne _ hne] at hd
      have hlen : (cstr n.s.bytes).length ≤ 1024 := by
        have hle := (List.takeWhile_prefix (l := n.s.bytes) (p := (· ≠ 0))).length_le
        rw [n.s.length_bytes] at hle
        exact hle.trans (by decide)
      obtain ⟨rfl, rfl⟩ := Fifo.read_singleton hd hlen
      refine .inr (.inl ⟨rfl, ha.fifo2, ?_, ?_, ?_⟩)
      · intro hx
        have hline := interpret_exit (Command.main_exit (hmain.symm.trans hx))
        rw [received_cstr] at hline
        change exits n.s = true
        rw [exits, hline]
        decide
      · change n.heard ++ [received (cstr n.s.bytes)] = n.typed.map cstr
        rw [received_cstr]
        exact ha.heard
      · change n.replies ++ [[]] = n.printed ++ [[]]
        rw [ha.printed]
    · exact (hempty ha.fifo1).elim
    · exact (hempty ha.fifo1).elim
  | fgets => rw [hm] at hph; exact (hempty hph.1.fifo1).elim
  | write => rw [hm] at hph; exact (hempty hph.2).elim
  | test => rw [hm] at hph; exact (hempty hph.1.fifo1).elim
  | done => rw [hm] at hph; exact (hempty hph.fifo1).elim

theorem answer_nil (l : List (List UInt8)) : answer [] l = l := if_pos rfl

theorem answer_snoc (h : o ≠ []) : answer o (l ++ [[]]) = l ++ [o] := by
  rw [answer, if_neg h, List.dropLast_concat, List.getLastD_concat]
  rfl

theorem Level.procon (h : Level n) (ho : o = []) (hp : ¬ p.Owes) : Level { n with
    procon := p, fifo2 := n.fifo2.write o, replies := answer o n.replies } := by
  rw [ho, Fifo.write_nil, answer_nil]
  exact ⟨⟨h.fifo1, h.fifo2, hp⟩, h.heard, h.printed⟩

theorem Ahead.procon (h : Ahead n) (ho : o = []) (hp : ¬ p.Owes) (hx : p.main ≠ .exit) :
    Ahead { n with
      procon := p, fifo2 := n.fifo2.write o, replies := answer o n.replies } := by
  rw [ho, Fifo.write_nil, answer_nil]
  exact ⟨h.fifo2, hp, hx, h.heard, h.printed⟩

theorem Answered.procon (h : Answered n o') (ho : o = []) (hp : ¬ p.Owes)
    (hx : p.main ≠ .exit) : Answered { n with
      procon := p, fifo2 := n.fifo2.write o, replies := answer o n.replies } o' := by
  rw [ho, Fifo.write_nil, answer_nil]
  exact ⟨h.fifo1, h.fifo2, h.text, hp, hx, h.heard, h.printed⟩

/-- The reply to a listing of one thread at most is complete with its first write. -/
theorem Taken.procon (h : Taken n) (hb : Brief n.procon) (ha : Account c n.procon)
    (hr : ∀ d, a ≠ .read d) (hp : Procon.step n.procon a = some (p, o)) :
    Taken { n with procon := p, fifo2 := n.fifo2.write o, replies := answer o n.replies } ∨
    Answered { n with procon := p, fifo2 := n.fifo2.write o, replies := answer o n.replies } o := by
  have hexit := exit_step hp ha hr
  rcases owes_step hp ha hr with ⟨rfl, -⟩ | ⟨htext, hs, hmore⟩
  · left
    rw [Fifo.write_nil, answer_nil]
    exact ⟨h.fifo1, h.fifo2, fun he => h.exits (hexit.1 he), h.heard, h.printed⟩
  · right
    have hdone : ¬ p.Owes := by
      intro howe
      obtain ⟨k, i, hk, hlt⟩ := hmore howe
      have hle := hb k i hk
      omega
    have hlive : p.main ≠ .exit := by
      intro he
      rw [St.Owes, hexit.1 he] at hs
      exact hs
    rw [h.fifo2, Fifo.write_of_ne _ htext.1, h.printed, answer_snoc htext.1]
    exact ⟨h.fifo1, rfl, htext, hdone, hlive, h.heard, rfl⟩

theorem Turns.procon (h : Turns n) (ht : n.step (.procon a) = some m) : Turns m := by
  have hacc := Net.account_step h.account ht
  obtain ⟨hr, p, o, hp, rfl⟩ := Net.procon_step ht
  obtain ⟨c, ha⟩ := h.account
  have hexit := exit_step hp ha hr
  have hlive : n.procon.main ≠ .exit → p.main ≠ .exit := mt hexit.1
  have hquiet : ¬ n.procon.Owes → o = [] ∧ ¬ p.Owes := quiet_step hp ha hr
  have hbrief : Brief p := by
    intro k i hi
    obtain ⟨j, hj, hcount⟩ := list_step hp ha hr hi
    rw [hcount]
    exact h.brief k j hj
  refine ⟨hacc, hbrief, ?_⟩
  have hph := h.phase
  obtain ⟨admin⟩ := n
  cases admin with
  | fgets =>
    obtain ⟨ho, hn⟩ := hquiet hph.1.owes
    exact ⟨hph.1.procon ho hn, hlive hph.2⟩
  | write =>
    obtain ⟨ho, hn⟩ := hquiet hph.1.owes
    exact ⟨hph.1.procon ho hn (hlive hph.1.live), hph.2⟩
  | test =>
    obtain ⟨ho, hn⟩ := hquiet hph.1.owes
    exact ⟨hph.1.procon ho hn, fun he => hph.2 (hexit.1 he)⟩
  | done =>
    obtain ⟨ho, hn⟩ := hquiet hph.owes
    exact hph.procon ho hn
  | read =>
    rcases hph with ⟨hl, hf⟩ | hl | ⟨o', hl⟩
    · obtain ⟨ho, hn⟩ := hquiet hl.owes
      exact .inl ⟨hl.procon ho hn (hlive hl.live), hf⟩
    · rcases hl.procon h.brief ha hr hp with hl | hl
      · exact .inr (.inl hl)
      · exact .inr (.inr ⟨o, hl⟩)
    · obtain ⟨ho, hn⟩ := hquiet hl.owes
      exact .inr (.inr ⟨o', hl.procon ho hn (hlive hl.live)⟩)

theorem Turns.step (h : Turns n) (hg : Lone n a) (ht : n.step a = some m) : Turns m := by
  cases a with
  | type piece => exact h.type ht
  | write => exact h.write ht
  | receive k => exact h.receive ht
  | eof => exact h.eof ht
  | test => exact h.test ht
  | read k => exact h.read hg ht
  | procon a => exact h.procon ht

/-- One creation of a producer, in which `main` writes the reply after the thread has put its id
into `tid_p` and before it is through. -/
def create (self : UInt64) : List Net.Act :=
  [.type (ascii "create producer\n"), .write, .read 1, .procon (.spawn self),
    .procon (.thread 0), .procon (.reply 0), .receive 1, .test] ++
  List.replicate 11 (.procon (.thread 0)) ++ [.procon .join]

/-- The second of two ids is written after `admin1` has read the first one. -/
theorem not_agree : ∃ l n, net.run l Net.start = some n ∧ ¬ Agree n ∧
    ∀ t ∈ n.typed, t.length ≤ 31 ∧ t.getLast? = some 10 := by
  have hr : ((net.run (create 7 ++ create 8 ++ [.type (ascii "list producer\n"), .write, .read 1,
      .procon .list, .receive 1, .procon .list]) Net.start).map fun n =>
      (n.printed, n.replies, n.typed)) = some ([[55], [56], [55]], [[55], [56], [55, 56]],
      [ascii "create producer\n", ascii "create producer\n", ascii "list producer\n"]) := by decide
  obtain ⟨n, hn, he⟩ := Option.map_eq_some_iff.1 hr
  obtain ⟨hp, he⟩ := Prod.mk.inj he
  obtain ⟨hreplies, htyped⟩ := Prod.mk.inj he
  refine ⟨_, n, hn, ?_, ?_⟩
  · intro h
    have hpre := h.2
    rw [hp, hreplies] at hpre
    revert hpre
    decide
  · rw [htyped]
    decide

/-- Where each listing is of one thread at most, every reply answers its own command. -/
theorem replies_agree (h : net.ReachableIf Lone n) : Agree n := by
  have ht : Turns n := by
    apply h.invariant
    · rintro n rfl
      exact .start
    · intro n a m hn hg hm
      exact hn.step hg hm
  exact ht.phase.inStep

theorem replies_agree_list : ∃ n, net.runIf Lone (create 7 ++ [.type (ascii "list producer\n"),
    .write, .read 1, .procon .list, .procon .list, .receive 1]) Net.start = some n ∧
    n.printed = [[55], [55]] ∧ Agree n := by
  have hr : ((net.runIf Lone (create 7 ++ [.type (ascii "list producer\n"), .write, .read 1,
      .procon .list, .procon .list, .receive 1]) Net.start).map Net.printed) =
      some [[55], [55]] := by decide
  obtain ⟨n, hn, hp⟩ := Option.map_eq_some_iff.1 hr
  exact ⟨n, hn, hp, replies_agree (.runIf (.init rfl) hn)⟩

end LinuxIpc.Procon
