import LinuxIpc.TcpChat.Arrival

namespace LinuxIpc.TcpChat
set_option autoImplicit true

open Function (update)
open Slots (From Distinct)

/-- An alive handler walks on without leaving the table or counting it down. -/
theorem InvAt.setPc (h : InvAt s top) (hpc : (s.handler k).pc = q) (ha : q.alive)
    (hu : q.uncounting = false) (hu' : pc.uncounting = false)
    (hl : ∀ conn, (Handler.mk conn pc).leaving = (Handler.mk conn q).leaving)
    (hok : HandlerOk s.tbl.fd top ⟨(s.handler k).conn, pc⟩) :
    InvAt { s with handler := update s.handler k ⟨(s.handler k).conn, pc⟩ } top := by
  subst hpc
  have hunc := update_same (fun x => x.pc.uncounting) (x := ⟨(s.handler k).conn, pc⟩)
    (f := s.handler) (k := k) (hu'.trans hu.symm)
  have hleav := update_same Handler.leaving (x := ⟨(s.handler k).conn, pc⟩) (f := s.handler)
    (k := k) (hl _)
  exact { h with
    uncounting := fun j hj => h.uncounting j (hunc j ▸ hj)
    settled := fun hc hj => h.settled hc fun j => hunc j ▸ hj j
    excl := fun hf j => (hunc j).trans (h.excl hf j)
    single := fun i j hi hj => h.single i j (hunc i ▸ hi) (hunc j ▸ hj)
    live := by
      intro f
      simpa only [hleav] using h.live f
    pending_conn := h.pending_conn_update ha rfl
    leaving_out := fun f j hj => h.leaving_out f j (hleav j ▸ hj)
    conn_inj := h.keyed.replace ha rfl
    handler := (Function.forall_update_iff _ fun _ => HandlerOk s.tbl.fd top).2
      ⟨hok, fun j _ => h.handler j⟩
    absent := h.absent_update ha }

/-- The move of the last entry to slot `i`, as a handler sees it that works for another
connection and does not miss it. -/
theorem HandlerOk.moveLast {x : Handler} (hok : HandlerOk fd n x) (hd : Distinct fd n)
    (hi : i < n) (hne : x.pc.alive → x.conn ≠ fd i) (hm : ¬ x.pc.Misses (fd (n - 1)) i) :
    HandlerOk (Slots.moveLast fd n i) (n - 1) x := by
  unfold HandlerOk at hok ⊢
  unfold Handler.Pc.Misses at hm
  cases hpc : x.pc with
  | absent => trivial
  | done => trivial
  | start slot =>
    rw [hpc] at hok hne
    have hsi : slot ≠ i := fun he => hne rfl (he ▸ hok.1.symm)
    exact ⟨(Slots.moveLast_of_ne hsi).trans hok.1, (hd.from_moveLast hi).2 ⟨hok.2, hne rfl⟩⟩
  | recv cl => rw [hpc] at hok hne; exact ⟨hok.1, (hd.from_moveLast hi).2 ⟨hok.2, hne rfl⟩⟩
  | relay cl b => rw [hpc] at hok hne; exact ⟨hok.1, (hd.from_moveLast hi).2 ⟨hok.2, hne rfl⟩⟩
  | test cl j =>
    rw [hpc] at hok hne hm
    apply And.intro hok.1
    apply hok.2.moveLast (hne rfl) hi
    intro he
    exact Nat.le_of_not_lt fun hlt => hm ⟨hok.1.trans he, hlt⟩
  | cmp cl j =>
    rw [hpc] at hok hne hm
    apply And.intro hok.1
    apply hok.2.moveLast (hne rfl) hi
    intro he
    exact Nat.le_of_not_lt fun hlt => hm ⟨hok.1.trans he, hlt⟩
  | move cl j =>
    rw [hpc] at hok hne hm
    obtain ⟨hcl, hj, hfd⟩ := hok
    have hji : j ≠ i := fun he => hne rfl (he ▸ hfd.symm)
    have hjn : j ≠ n - 1 := fun he => hm (hcl.trans (he ▸ hfd.symm))
    exact ⟨hcl, by omega, (Slots.moveLast_of_ne hji).trans hfd⟩
  | uncount cl => rw [hpc] at hok; exact hok
  | bye cl b => rw [hpc] at hok; exact hok
  | close cl => rw [hpc] at hok; exact hok

/-- No other departure is under way where a move that none of them would miss is made, and all
entries that are in are counted. -/
theorem InvAt.settled_move (h : InvAt s top) (hpc : (s.handler k).pc = .move cl i)
    (hf : s.main.filled = none) (hm : ∀ j, j ≠ k → ¬ (s.handler j).pc.Misses last i) :
    (∀ j, (s.handler j).pc.uncounting = false) ∧ top = s.tbl.cnt := by
  have hunc : ∀ j, (s.handler j).pc.uncounting = false := by
    intro j
    by_cases hj : j = k
    · rw [hj, hpc]; rfl
    · have hmj := hm j hj
      cases hpj : (s.handler j).pc <;> simp_all [Handler.Pc.Misses, Handler.Pc.uncounting]
  exact ⟨hunc, h.settled (Main.counting_of_filled hf) hunc⟩

/-- The connection of a handler that starts to leave is one more that leaves. -/
theorem leaving_put {f : Nat → Handler} (hk : (f k).leaving = none) (hx : x.leaving = some c) :
    (∃ j, (update f k x j).leaving = some d) ↔ d = c ∨ ∃ j, (f j).leaving = some d := by
  rw [Function.exists_update_iff f fun _ x => x.leaving = some d, hx, Option.some.injEq,
    eq_comm (a := c)]
  apply or_congr Iff.rfl
  constructor
  · rintro ⟨j, -, hj⟩
    exact ⟨j, hj⟩
  · rintro ⟨j, hj⟩
    refine ⟨j, ?_, hj⟩
    rintro rfl
    rw [hk] at hj
    cases hj

theorem InvAt.move (h : InvAt s top) (hpc : (s.handler k).pc = .move cl i)
    (hf : s.main.filled = none)
    (hm : ∀ j, j ≠ k → ¬ (s.handler j).pc.Misses (s.tbl.client (pred64 s.tbl.cnt)).cfd i) :
    InvAt { s with
      tbl := s.tbl.moveLast i
      handler := update s.handler k ⟨(s.handler k).conn, .uncount cl⟩ } (top - 1) := by
  have hok := h.handler k
  rw [HandlerOk, hpc] at hok
  obtain ⟨hcl, hi, hfd⟩ := hok
  obtain ⟨hunc, htop⟩ := h.settled_move hpc hf hm
  have hpos : 0 < s.tbl.cnt := by omega
  have hlt : s.tbl.cnt ≤ 2 ^ 64 := by have := h.top_lt; omega
  have hlast : (s.tbl.client (pred64 s.tbl.cnt)).cfd = s.tbl.fd (top - 1) := by
    rw [htop, pred64_eq hpos hlt]
    rfl
  have hfdm : (s.tbl.moveLast i).fd = Slots.moveLast s.tbl.fd top i :=
    htop ▸ s.tbl.fd_moveLast hpos hlt
  have ha : (s.handler k).pc.alive := by rw [hpc]; rfl
  have hne : ∀ j, j ≠ k → (s.handler j).pc.alive → (s.handler j).conn ≠ s.tbl.fd i := by
    intro j hj haj he
    exact hj (h.conn_inj j k haj ha (he.trans hfd))
  have hfrom : ∀ f, From (s.tbl.moveLast i).fd (top - 1) f 0 ↔
      From s.tbl.fd top f 0 ∧ f ≠ (s.handler k).conn := by
    intro f
    rw [hfdm, ← hfd]
    exact h.inj.from_moveLast hi
  have honly : ∀ j, (update s.handler k ⟨(s.handler k).conn, .uncount cl⟩ j).pc.uncounting →
      j = k := by
    intro j hj
    by_cases hjk : j = k
    · exact hjk
    · rw [Function.update_of_ne hjk, hunc j] at hj
      cases hj
  have hstay : (s.handler k).leaving = none := by rw [Handler.leaving, hpc]
  have hleav : ∀ f, (∃ j, (update s.handler k ⟨(s.handler k).conn, .uncount cl⟩ j).leaving =
      some f) ↔ f = (s.handler k).conn ∨ ∃ j, (s.handler j).leaving = some f := by
    intro f
    exact leaving_put hstay rfl
  have hin : From s.tbl.fd top (s.handler k).conn 0 := hfd ▸ .of_lt hi
  exact { h with
    counting := by
      intro hs
      rw [Main.counting_of_filled hf] at hs
      cases hs
    uncounting := by
      intro _ _
      change top - 1 + 1 = s.tbl.cnt
      omega
    settled := by
      intro _ hj
      have hk := hj k
      simp only [Function.update_self] at hk
      cases hk
    excl := by
      intro hs
      rw [hf] at hs
      cases hs
    single := by
      intro a b hxa hxb
      rw [honly a hxa, honly b hxb]
    filled := by
      intro f hs
      rw [hf] at hs
      cases hs
    inj := by
      rw [hfdm]
      exact h.inj.moveLast hi
    live := by
      intro f
      rw [hleav, hfrom, h.live]
      by_cases he : f = (s.handler k).conn
      · subst he
        simp only [hin, true_or, or_true, ne_eq]
      · simp only [he, ne_eq, not_false_eq_true, and_true, false_or]
    pending_out := by
      intro f hp hx
      exact h.pending_out f hp ((hfrom f).1 hx).1
    pending_conn := h.pending_conn_update ha rfl
    leaving_out := by
      intro f j hj hx
      obtain ⟨hx, hne⟩ := (hfrom f).1 hx
      rcases (hleav f).1 ⟨j, hj⟩ with he | ⟨a, hxa⟩
      · exact hne he
      · exact h.leaving_out f a hxa hx
    conn_inj := h.keyed.replace ha rfl
    handler := by
      rw [hfdm]
      apply (Function.forall_update_iff _ fun _ => HandlerOk (Slots.moveLast s.tbl.fd top i) _).2
      apply And.intro hcl
      intro j hj
      exact (h.handler j).moveLast h.inj hi (hne j hj) (hlast ▸ hm j hj)
    absent := h.absent_update ha }

theorem InvAt.uncount (h : InvAt s top) (hpc : (s.handler k).pc = .uncount cl) :
    InvAt { s with
      tbl := { s.tbl with cnt := pred64 s.tbl.cnt }
      handler := update s.handler k ⟨(s.handler k).conn, .bye cl b⟩ } top := by
  have hok := h.handler k
  rw [HandlerOk, hpc] at hok
  have hu : (s.handler k).pc.uncounting := by rw [hpc]; rfl
  have ha : (s.handler k).pc.alive := by rw [hpc]; rfl
  have hcnt : pred64 s.tbl.cnt = top := by
    rw [← h.uncounting k hu]
    exact pred64_eq (Nat.succ_pos _) (Nat.le_of_lt h.top_lt)
  have hf : s.main.filled = none := h.filled_none hu
  have hc : s.main.counting = none := Main.counting_of_filled hf
  have hunc : ∀ j, (update s.handler k ⟨(s.handler k).conn, .bye cl b⟩ j).pc.uncounting =
      false := by
    intro j
    by_cases hj : j = k
    · rw [hj, Function.update_self]
      rfl
    · rw [Function.update_of_ne hj]
      exact Bool.eq_false_iff.2 fun hju => hj (h.single j k hju hu)
  have hleav := update_same Handler.leaving (x := ⟨(s.handler k).conn, .bye cl b⟩)
    (f := s.handler) (k := k) (by simp only [Handler.leaving, hpc])
  rw [hcnt]
  exact { h with
    counting := by
      intro hs
      rw [hc] at hs
      cases hs
    uncounting := by
      intro j hj
      rw [hunc j] at hj
      cases hj
    settled := fun _ _ => rfl
    excl := by
      intro hs
      rw [hf] at hs
      cases hs
    single := by
      intro i j hi
      rw [hunc i] at hi
      cases hi
    filled := by
      intro f hs
      rw [hf] at hs
      cases hs
    live := by
      intro f
      simp only [hleav]
      exact h.live f
    pending_conn := h.pending_conn_update ha rfl
    leaving_out := fun f j hj => h.leaving_out f j (hleav j ▸ hj)
    conn_inj := h.keyed.replace ha rfl
    handler := (Function.forall_update_iff _ fun _ => HandlerOk s.tbl.fd top).2
      ⟨hok, fun j _ => h.handler j⟩
    absent := h.absent_update ha }

theorem InvAt.close (h : InvAt s top) (hpc : (s.handler k).pc = .close cl) :
    InvAt { s with
      handler := update s.handler k ⟨(s.handler k).conn, .done⟩
      live := s.live.filter (· ≠ cl.cfd) } top := by
  have ha : (s.handler k).pc.alive := by rw [hpc]; rfl
  have hcl : cl.cfd = (s.handler k).conn := by
    have hok := h.handler k
    rwa [HandlerOk, hpc] at hok
  have hunc := update_same (fun x => x.pc.uncounting) (x := ⟨(s.handler k).conn, .done⟩)
    (f := s.handler) (k := k) (by rw [hpc]; rfl)
  have hother : ∀ j, (update s.handler k ⟨(s.handler k).conn, .done⟩ j).pc.alive → j ≠ k := by
    rintro j hj rfl
    rw [Function.update_self] at hj
    cases hj
  have hleav : ∀ f, (∃ j, (update s.handler k ⟨(s.handler k).conn, .done⟩ j).leaving = some f) ↔
      f ≠ cl.cfd ∧ ∃ j, (s.handler j).leaving = some f := by
    intro f
    constructor
    · rintro ⟨j, hj⟩
      have hjk := hother j (Handler.alive_of_leaving hj).1
      rw [Function.update_of_ne hjk] at hj
      obtain ⟨haj, hconn⟩ := Handler.alive_of_leaving hj
      refine ⟨?_, j, hj⟩
      intro hf
      exact hjk (h.conn_inj j k haj ha (hconn.trans (hf.trans hcl)))
    · rintro ⟨hne, j, hj⟩
      refine ⟨j, ?_⟩
      have hjk : j ≠ k := by
        rintro rfl
        exact hne ((Handler.alive_of_leaving hj).2.symm.trans hcl.symm)
      rw [Function.update_of_ne hjk]
      exact hj
  have hgone : (s.handler k).leaving = some cl.cfd := by rw [Handler.leaving, hpc, hcl]
  exact { h with
    uncounting := fun j hj => h.uncounting j (hunc j ▸ hj)
    settled := fun hc hj => h.settled hc fun j => hunc j ▸ hj j
    excl := fun hf j => (hunc j).trans (h.excl hf j)
    single := fun i j hi hj => h.single i j (hunc i ▸ hi) (hunc j ▸ hj)
    live := by
      intro f
      simp only [List.mem_filter, h.live f, hleav, decide_eq_true_eq]
      constructor
      · rintro ⟨hin | hp | hl, hne⟩
        · exact .inl hin
        · exact .inr (.inl hp)
        · exact .inr (.inr ⟨hne, hl⟩)
      · rintro (hin | hp | ⟨hne, hl⟩)
        · refine ⟨.inl hin, ?_⟩
          rintro rfl
          exact h.leaving_out _ k hgone hin
        · refine ⟨.inr (.inl hp), ?_⟩
          rintro rfl
          exact h.pending_conn _ k hp ha hcl.symm
        · exact ⟨.inr (.inr hl), hne⟩
    pending_conn := by
      intro f j hp hj
      simp only [Function.update_of_ne (hother j hj)] at hj ⊢
      exact h.pending_conn f j hp hj
    leaving_out := by
      intro f j hj
      simp only [Function.update_of_ne (hother j (Handler.alive_of_leaving hj).1)] at hj
      exact h.leaving_out f j hj
    conn_inj := h.keyed.drop rfl
    handler := (Function.forall_update_iff _ fun _ => HandlerOk s.tbl.fd top).2
      ⟨trivial, fun j _ => h.handler j⟩
    absent := h.absent_update ha
    nodup := h.nodup.filter _
    bound := (List.length_filter_le ..).trans h.bound }

end LinuxIpc.TcpChat
