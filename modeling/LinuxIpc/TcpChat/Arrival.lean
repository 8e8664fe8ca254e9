import LinuxIpc.TcpChat.Orderly

namespace LinuxIpc.TcpChat
set_option autoImplicit true

open Function (update)
open Slots (From Distinct)

/-- `main` walks on without a change of what is pending and to be counted; a slot it reports as
filled is. -/
theorem InvAt.setMain (h : InvAt s top) (hp : m.pending = s.main.pending)
    (hc : m.counting = s.main.counting)
    (hf : ∀ f, m.filled = some f →
      s.tbl.fd s.tbl.cnt = f ∧ ∀ k, (s.handler k).pc.uncounting = false) :
    InvAt { s with main := m } top :=
  { h with
    counting := fun hs => h.counting (hc ▸ hs)
    settled := fun hs => h.settled (hc ▸ hs)
    excl := by
      intro hs
      obtain ⟨f, hs⟩ := Option.isSome_iff_exists.1 hs
      exact (hf f hs).2
    filled := fun f hs => (hf f hs).1
    live := fun f => by simpa only [hp] using h.live f
    pending_out := fun f hs => h.pending_out f (hp ▸ hs)
    pending_conn := fun f k hs => h.pending_conn f k (hp ▸ hs) }

theorem InvAt.setMain' (h : InvAt s top) (hp : m.pending = s.main.pending)
    (hc : m.counting = s.main.counting) (hf : m.filled = s.main.filled) :
    InvAt { s with main := m } top := by
  apply h.setMain hp hc
  intro f hm
  rw [hf] at hm
  exact ⟨h.filled f hm, h.excl (by rw [hm]; rfl)⟩

theorem InvAt.accept (h : InvAt s top) (hm : s.main = .accept) (hn : cfd ∉ s.live)
    (hb : s.live.length < MAX) :
    InvAt { s with main := .recvName cfd, live := cfd :: s.live } top :=
  { h with
    counting := nofun
    settled := fun _ => h.settled (by rw [hm]; rfl)
    excl := nofun
    filled := nofun
    live := by
      intro f
      have hl := h.live f
      simp only [hm, Main.pending, reduceCtorEq, false_or] at hl
      simp only [List.mem_cons, hl, Main.pending, Option.some.injEq, eq_comm (a := f)]
      exact or_left_comm
    pending_out := by
      rintro f ⟨⟩ hf
      exact hn ((h.live _).2 (.inl hf))
    pending_conn := by
      rintro f k ⟨⟩ ha he
      exact hn (he ▸ h.conn_live ha)
    nodup := List.nodup_cons.2 ⟨hn, h.nodup⟩
    bound := hb }

theorem HandlerOk.congr {h : Handler} (hok : HandlerOk fd top h) (he : ∀ p < top, fd p = fd' p)
    (hs : ∀ slot, h.pc = .start slot → fd slot = fd' slot) : HandlerOk fd' top h := by
  unfold HandlerOk at hok ⊢
  cases hpc : h.pc with
  | absent => trivial
  | done => trivial
  | start slot =>
    rw [hpc] at hok
    exact ⟨(hs slot hpc).symm.trans hok.1, (Slots.from_congr he).1 hok.2⟩
  | recv cl => rw [hpc] at hok; exact ⟨hok.1, (Slots.from_congr he).1 hok.2⟩
  | relay cl b => rw [hpc] at hok; exact ⟨hok.1, (Slots.from_congr he).1 hok.2⟩
  | test cl i => rw [hpc] at hok; exact ⟨hok.1, (Slots.from_congr he).1 hok.2⟩
  | cmp cl i => rw [hpc] at hok; exact ⟨hok.1, (Slots.from_congr he).1 hok.2⟩
  | move cl i => rw [hpc] at hok; exact ⟨hok.1, hok.2.1, (he i hok.2.1).symm.trans hok.2.2⟩
  | uncount cl => rw [hpc] at hok; exact hok
  | bye cl b => rw [hpc] at hok; exact hok
  | close cl => rw [hpc] at hok; exact hok

/-- A write behind the entries that are in, and under no handler that has still to read it. -/
theorem InvAt.setTbl (h : InvAt s top) (hc : t.cnt = s.tbl.cnt) (hf : s.main.filled = none)
    (he : ∀ p < top, s.tbl.fd p = t.fd p)
    (hs : ∀ k slot, (s.handler k).pc = .start slot → s.tbl.fd slot = t.fd slot) :
    InvAt { s with tbl := t } top :=
  { h with
    counting := fun hm => hc ▸ h.counting hm
    uncounting := fun k hk => hc ▸ h.uncounting k hk
    settled := fun hm hk => hc ▸ h.settled hm hk
    filled := by
      intro f hm
      have hm' : s.main.filled = some f := hm
      rw [hf] at hm'
      cases hm'
    inj := h.inj.congr he
    live := by
      intro f
      rw [h.live, Slots.from_congr he]
    pending_out := fun f hm => mt (Slots.from_congr he).2 (h.pending_out f hm)
    leaving_out := fun f k hk => mt (Slots.from_congr he).2 (h.leaving_out f k hk)
    handler := fun k => (h.handler k).congr he (hs k) }

theorem InvAt.recvName (h : InvAt s top) (hm : s.main = .recvName cfd) :
    InvAt { s with main := .setCfd cfd, tbl := s.tbl.recvName d } top := by
  have ht : InvAt { s with tbl := s.tbl.recvName d } top := by
    apply h.setTbl (t := s.tbl.recvName d) rfl (by rw [hm]; rfl)
    · intro p _
      rw [Table.fd_recvName]
    · intro k slot _
      rw [Table.fd_recvName]
  apply ht.setMain <;> simp [hm, Main.pending, Main.counting, Main.filled]

theorem InvAt.setCfd (h : InvAt s top) (hm : s.main = .setCfd cfd)
    (hu : ∀ k, (s.handler k).pc.uncounting = false)
    (hs : ∀ k, (s.handler k).pc.unread ≠ some s.tbl.cnt) :
    InvAt { s with main := .notice cfd, tbl := s.tbl.setCfd cfd } top := by
  have htop : top = s.tbl.cnt := h.settled (by rw [hm]; rfl) hu
  have ht : InvAt { s with tbl := s.tbl.setCfd cfd } top := by
    apply h.setTbl (t := s.tbl.setCfd cfd) rfl (by rw [hm]; rfl)
    · intro p hp
      rw [Table.fd_setCfd, Function.update_of_ne (by omega)]
    · intro k slot hk
      have hne : slot ≠ s.tbl.cnt := by
        rintro rfl
        exact hs k (by rw [hk]; rfl)
      rw [Table.fd_setCfd, Function.update_of_ne hne]
  apply ht.setMain
  · rw [hm]; rfl
  · rw [hm]; rfl
  · rintro f ⟨⟩
    constructor
    · change (s.tbl.setCfd cfd).fd s.tbl.cnt = cfd
      rw [Table.fd_setCfd, Function.update_self]
    · exact hu

theorem HandlerOk.grow {h : Handler} (hok : HandlerOk fd top h) : HandlerOk fd (top + 1) h := by
  unfold HandlerOk at hok ⊢
  have hle : top ≤ top + 1 := Nat.le_succ top
  cases hpc : h.pc with
  | absent => trivial
  | done => trivial
  | start slot => rw [hpc] at hok; exact ⟨hok.1, hok.2.mono (Nat.le_refl _) hle⟩
  | recv cl => rw [hpc] at hok; exact ⟨hok.1, hok.2.mono (Nat.le_refl _) hle⟩
  | relay cl b => rw [hpc] at hok; exact ⟨hok.1, hok.2.mono (Nat.le_refl _) hle⟩
  | test cl i => rw [hpc] at hok; exact ⟨hok.1, hok.2.mono (Nat.le_refl _) hle⟩
  | cmp cl i => rw [hpc] at hok; exact ⟨hok.1, hok.2.mono (Nat.le_refl _) hle⟩
  | move cl i => rw [hpc] at hok; exact ⟨hok.1, Nat.lt_succ_of_lt hok.2.1, hok.2.2⟩
  | uncount cl => rw [hpc] at hok; exact hok
  | bye cl b => rw [hpc] at hok; exact hok
  | close cl => rw [hpc] at hok; exact hok

/-- The new connection comes in, its slot being the one behind the entries so far. -/
theorem InvAt.enter (h : InvAt s top) (hm : s.main = .create cfd) :
    top = s.tbl.cnt ∧ InvAt { s with main := .count cfd } (top + 1) := by
  have htop : top = s.tbl.cnt := h.top_eq (by rw [hm]; rfl) (by rw [hm]; rfl)
  have hfd : s.tbl.fd top = cfd := htop ▸ h.filled cfd (by rw [hm]; rfl)
  have hout := h.pending_out cfd (by rw [hm]; rfl)
  have hunc := h.excl (by rw [hm]; rfl)
  refine ⟨htop, ?_⟩
  exact { h with
    counting := by
      intro _
      rw [htop]
    uncounting := by
      intro k hk
      rw [hunc k] at hk
      cases hk
    settled := nofun
    excl := fun _ => hunc
    filled := by
      rintro f ⟨⟩
      exact htop ▸ hfd
    inj := h.inj.succ (hfd ▸ hout)
    live := by
      intro f
      have hl := h.live f
      simp only [hm, Main.pending, Option.some.injEq] at hl
      simp only [hl, Slots.from_succ, hfd, Main.pending, reduceCtorEq, false_or, or_assoc]
    pending_out := nofun
    pending_conn := nofun
    leaving_out := by
      intro f k hk hf
      obtain ⟨ha, hconn⟩ := Handler.alive_of_leaving hk
      rcases Slots.from_succ.1 hf with hf | hf
      · exact h.leaving_out f k hk hf
      · exact h.pending_conn cfd k (by rw [hm]; rfl) ha (hconn.trans (hf.symm.trans hfd))
    handler := fun k => (h.handler k).grow }

/-- A handler is created for a connection that is in and has none. -/
theorem InvAt.spawn (h : InvAt s top) (hp : s.main.pending = none)
    (hne : ∀ k, (s.handler k).pc.alive → (s.handler k).conn ≠ cfd)
    (hs : s.tbl.fd slot = cfd) (hin : From s.tbl.fd top cfd 0) :
    InvAt { s with
      handler := update s.handler s.created ⟨cfd, .start slot⟩
      created := s.created + 1 } top := by
  have hnew := h.absent s.created (Nat.le_refl _)
  have hunc := update_same (fun x => x.pc.uncounting) (x := ⟨cfd, .start slot⟩)
    (f := s.handler) (k := s.created) (by rw [hnew]; rfl)
  have hleav := update_same Handler.leaving (x := ⟨cfd, .start slot⟩)
    (f := s.handler) (k := s.created) (by simp only [Handler.leaving, hnew])
  exact { h with
    uncounting := fun j hj => h.uncounting j (hunc j ▸ hj)
    settled := fun hc hj => h.settled hc fun j => hunc j ▸ hj j
    excl := fun hf j => (hunc j).trans (h.excl hf j)
    single := fun i j hi hj => h.single i j (hunc i ▸ hi) (hunc j ▸ hj)
    live := by
      intro f
      simpa only [hleav] using h.live f
    pending_conn := by
      intro f j hf
      rw [hp] at hf
      cases hf
    leaving_out := fun f j hj => h.leaving_out f j (hleav j ▸ hj)
    conn_inj := h.keyed.put fun _ j _ => hne j
    handler := (Function.forall_update_iff _ fun _ => HandlerOk s.tbl.fd top).2
      ⟨⟨hs, hin⟩, fun j _ => h.handler j⟩
    absent := by
      intro j hj
      have hlt : s.created < j := hj
      simp only [Function.update_of_ne (Nat.ne_of_gt hlt)]
      exact h.absent j (Nat.le_of_lt hlt) }

theorem InvAt.create (h : InvAt s top) (hm : s.main = .create cfd) :
    InvAt { s with
      main := .count cfd
      handler := update s.handler s.created ⟨cfd, .start s.tbl.cnt⟩
      created := s.created + 1 } (top + 1) := by
  obtain ⟨htop, he⟩ := h.enter hm
  have hfd : s.tbl.fd s.tbl.cnt = cfd := h.filled cfd (by rw [hm]; rfl)
  apply he.spawn rfl
  · intro k ha
    exact h.pending_conn cfd k (by rw [hm]; rfl) ha
  · exact hfd
  · exact ⟨s.tbl.cnt, Nat.zero_le _, by omega, hfd⟩

theorem InvAt.count (h : InvAt s top) (hm : s.main = .count cfd) :
    InvAt { s with main := .accept, tbl := { s.tbl with cnt := succ64 s.tbl.cnt } } top := by
  have htop : top = s.tbl.cnt + 1 := h.counting (by rw [hm]; rfl)
  have hcnt : succ64 s.tbl.cnt = s.tbl.cnt + 1 := succ64_eq (by have := h.top_lt; omega)
  have hunc := h.excl (by rw [hm]; rfl)
  have hp : s.main.pending = none := by rw [hm]; rfl
  exact { h with
    counting := nofun
    uncounting := by
      intro k hk
      rw [hunc k] at hk
      cases hk
    settled := fun _ _ => htop.trans hcnt.symm
    excl := nofun
    filled := nofun
    live := by
      intro f
      have hl := h.live f
      rw [hp] at hl
      exact hl
    pending_out := nofun
    pending_conn := nofun }

end LinuxIpc.TcpChat
