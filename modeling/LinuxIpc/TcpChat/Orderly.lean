import LinuxIpc.Lib.Family
import LinuxIpc.Lib.Slots
import LinuxIpc.TcpChat.Interleaving

namespace LinuxIpc.TcpChat
set_option autoImplicit true

open Function (update)
open Slots (From Distinct)

/-- The accepted connection that has no entry yet. -/
def Main.pending : Main → Option Int
  | .recvName f | .setCfd f | .notice f | .call f _ | .bcast f _ | .create f => some f
  | .accept | .count _ => none

/-- The connection whose slot is filled and not counted yet. -/
def Main.filled : Main → Option Int
  | .notice f | .call f _ | .bcast f _ | .create f | .count f => some f
  | .accept | .recvName _ | .setCfd _ => none

def Main.counting : Main → Option Int
  | .count f => some f
  | _ => none

def Handler.Pc.uncounting : Handler.Pc → Bool
  | .uncount _ => true
  | _ => false

/-- The slot a handler has still to read. -/
def Handler.Pc.unread : Handler.Pc → Option Nat
  | .start slot => some slot
  | _ => none

def Handler.Pc.alive : Handler.Pc → Bool
  | .absent | .done => false
  | _ => true

/-- The connection a departing handler has taken out of the table and not closed yet. -/
def Handler.leaving (h : Handler) : Option Int :=
  match h.pc with
  | .uncount _ | .bye .. | .close _ => some h.conn
  | _ => none

/-- A departure that is under way and would go wrong if the last entry, that of `last`, were
moved to slot `i` now: it has still to count its own entry down, or its own entry is the one
moved and its scan is past slot `i` already. -/
def Handler.Pc.Misses (last : Int) (i : Nat) : Handler.Pc → Prop
  | .uncount _ => True
  | .test cl j | .cmp cl j => cl.cfd = last ∧ i < j
  | .move cl _ => cl.cfd = last
  | _ => False

instance (last : Int) (i : Nat) (pc : Handler.Pc) : Decidable (pc.Misses last i) := by
  cases pc <;> unfold Handler.Pc.Misses <;> infer_instance

/-- No slot is filled between the two halves of a removal, or under a handler that has still to
read it. -/
def Main.Orderly (s : Core) : Main → Prop
  | .setCfd _ => ∀ h < s.created,
      (s.handler h).pc.uncounting = false ∧ (s.handler h).pc.unread ≠ some s.tbl.cnt
  | _ => True

/-- No removal starts between the filling of a slot and `cnt++` or at the cost of another
departure, and no scan runs off the end before the `cnt++` for its own connection. -/
def Handler.Pc.Orderly (s : Core) (h : Nat) : Handler.Pc → Prop
  | .test cl i => i < s.tbl.cnt ∨ s.main.counting ≠ some cl.cfd
  | .move _ i => s.main.filled = none ∧ ∀ k < s.created, k ≠ h →
      ¬ (s.handler k).pc.Misses (s.tbl.client (pred64 s.tbl.cnt)).cfd i
  | _ => True

def Orderly (s : St) : Act → Prop
  | .main _ => s.main.Orderly s.toCore
  | .handler h _ => (s.handler h).pc.Orderly s.toCore h
  | _ => True

instance (s : Core) (m : Main) : Decidable (m.Orderly s) := by
  cases m <;> unfold Main.Orderly <;> infer_instance

instance (s : Core) (h : Nat) (pc : Handler.Pc) : Decidable (pc.Orderly s h) := by
  cases pc <;> unfold Handler.Pc.Orderly <;> infer_instance

instance (s : St) (a : Act) : Decidable (Orderly s a) := by
  cases a <;> unfold Orderly <;> infer_instance

/-- A handler works for its own connection, whose entry its scan has not passed. -/
def HandlerOk (fd : Nat → Int) (top : Nat) (h : Handler) : Prop :=
  match h.pc with
  | .absent | .done => True
  | .start slot => fd slot = h.conn ∧ From fd top h.conn 0
  | .recv cl | .relay cl _ => cl.cfd = h.conn ∧ From fd top h.conn 0
  | .test cl i | .cmp cl i => cl.cfd = h.conn ∧ From fd top h.conn i
  | .move cl i => cl.cfd = h.conn ∧ i < top ∧ fd i = h.conn
  | .uncount cl | .bye cl _ | .close cl => cl.cfd = h.conn

/-- The first `top` entries are those of the connections that are in: a connection comes in when
its handler is created and goes out when the last entry is moved over its own, while `cnt` follows
one statement later. -/
structure InvAt (s : Core) (top : Nat) : Prop where
  counting : s.main.counting.isSome → top = s.tbl.cnt + 1
  uncounting : ∀ h, (s.handler h).pc.uncounting → top + 1 = s.tbl.cnt
  settled : s.main.counting = none → (∀ h, (s.handler h).pc.uncounting = false) → top = s.tbl.cnt
  excl : s.main.filled.isSome → ∀ h, (s.handler h).pc.uncounting = false
  single : ∀ h k, (s.handler h).pc.uncounting → (s.handler k).pc.uncounting → h = k
  filled : ∀ f, s.main.filled = some f → s.tbl.fd s.tbl.cnt = f
  inj : Distinct s.tbl.fd top
  live : ∀ f, f ∈ s.live ↔ From s.tbl.fd top f 0 ∨ s.main.pending = some f ∨
    ∃ h, (s.handler h).leaving = some f
  pending_out : ∀ f, s.main.pending = some f → ¬ From s.tbl.fd top f 0
  pending_conn : ∀ f h, s.main.pending = some f → (s.handler h).pc.alive → (s.handler h).conn ≠ f
  leaving_out : ∀ f h, (s.handler h).leaving = some f → ¬ From s.tbl.fd top f 0
  conn_inj : ∀ h k, (s.handler h).pc.alive → (s.handler k).pc.alive →
    (s.handler h).conn = (s.handler k).conn → h = k
  handler : ∀ h, HandlerOk s.tbl.fd top (s.handler h)
  absent : ∀ h, s.created ≤ h → (s.handler h).pc = .absent
  nodup : s.live.Nodup
  bound : s.live.length ≤ MAX

def Inv (s : Core) : Prop := ∃ top, InvAt s top

theorem Handler.alive_of_leaving {h : Handler} (hl : h.leaving = some f) :
    h.pc.alive ∧ h.conn = f := by
  obtain ⟨conn, pc⟩ := h
  cases pc <;> simp_all [Handler.leaving, Handler.Pc.alive]

theorem Main.filled_of_counting {m : Main} (h : m.counting = some f) : m.filled = some f := by
  cases m with
  | count g => exact h
  | _ => cases h

theorem Main.counting_of_filled {m : Main} (h : m.filled = none) : m.counting = none := by
  cases m with
  | count f => cases h
  | _ => rfl

theorem InvAt.start : InvAt start.toCore 0 := by
  constructor
  case inj =>
    intro p q hp
    exact (Nat.not_lt_zero p hp).elim
  case live =>
    intro f
    constructor
    · nofun
    · rintro (⟨p, _, hp, _⟩ | hp | ⟨h, hl⟩)
      · exact (Nat.not_lt_zero p hp).elim
      · cases hp
      · cases hl
  all_goals first | exact List.nodup_nil | exact Nat.zero_le _ | skip
  all_goals intros
  all_goals first | rfl | trivial

theorem InvAt.top_lt (h : InvAt s top) : top + 1 < 2 ^ 64 := by
  have hle : top ≤ s.live.length := by
    apply h.inj.le_length
    intro p hp
    exact (h.live _).2 (.inl (.of_lt hp))
  have hmax := hle.trans h.bound
  unfold MAX at hmax
  omega

/-- Between a slot's filling and `cnt++` the entries that are in are the counted ones. -/
theorem InvAt.top_eq (h : InvAt s top) (hc : s.main.counting = none)
    (hf : s.main.filled.isSome) : top = s.tbl.cnt := h.settled hc (h.excl hf)

/-- An alive handler's connection is still accepted and not departed. -/
theorem InvAt.conn_live (h : InvAt s top) (ha : (s.handler k).pc.alive) :
    (s.handler k).conn ∈ s.live := by
  rw [h.live]
  have hok := h.handler k
  unfold HandlerOk at hok
  cases hpc : (s.handler k).pc with
  | absent => rw [hpc] at ha; cases ha
  | done => rw [hpc] at ha; cases ha
  | start slot => rw [hpc] at hok; exact .inl hok.2
  | recv cl => rw [hpc] at hok; exact .inl hok.2
  | relay cl b => rw [hpc] at hok; exact .inl hok.2
  | test cl i => rw [hpc] at hok; exact .inl (hok.2.mono (Nat.zero_le _) (Nat.le_refl _))
  | cmp cl i => rw [hpc] at hok; exact .inl (hok.2.mono (Nat.zero_le _) (Nat.le_refl _))
  | move cl i => rw [hpc] at hok; exact .inl ⟨i, Nat.zero_le _, hok.2⟩
  | uncount cl => exact .inr (.inr ⟨k, by rw [Handler.leaving, hpc]⟩)
  | bye cl b => exact .inr (.inr ⟨k, by rw [Handler.leaving, hpc]⟩)
  | close cl => exact .inr (.inr ⟨k, by rw [Handler.leaving, hpc]⟩)

theorem InvAt.keyed (h : InvAt s top) : Keyed (fun x => x.pc.alive) Handler.conn s.handler :=
  h.conn_inj

/-- A handler in the place of an alive one is no handler beyond those created. -/
theorem InvAt.absent_update (h : InvAt s top) (ha : (s.handler k).pc.alive) (j : Nat)
    (hj : s.created ≤ j) : (update s.handler k x j).pc = .absent := by
  have hjk : j ≠ k := by
    rintro rfl
    rw [h.absent j hj] at ha
    cases ha
  rw [Function.update_of_ne hjk]
  exact h.absent j hj

theorem InvAt.pending_conn_update (h : InvAt s top) (ha : (s.handler k).pc.alive)
    (hx : x.conn = (s.handler k).conn) (f : Int) (j : Nat) (hp : s.main.pending = some f) :
    (update s.handler k x j).pc.alive → (update s.handler k x j).conn ≠ f := by
  by_cases hj : j = k
  · intro _
    rw [hj, Function.update_self, hx]
    exact h.pending_conn f k hp ha
  · rw [Function.update_of_ne hj]
    exact h.pending_conn f j hp

/-- While a departure stands between its move and its `--cnt`, no slot is filled. -/
theorem InvAt.filled_none (h : InvAt s top) (hu : (s.handler k).pc.uncounting) :
    s.main.filled = none := by
  cases hf : s.main.filled with
  | none => rfl
  | some f =>
    rw [h.excl (by rw [hf]; rfl) k] at hu
    cases hu

/-- Where no step is half done the invariant is the exactness of the table. -/
theorem Inv.exact (h : Inv s) (hq : Quiet s) : Exact s := by
  obtain ⟨top, h⟩ := h
  have hidle : ∀ k, (s.handler k).pc.idle = true := by
    intro k
    by_cases hk : k < s.created
    · exact hq.2 k hk
    · rw [h.absent k (Nat.le_of_not_lt hk)]
      rfl
  have hunc : ∀ k, (s.handler k).pc.uncounting = false := by
    intro k
    have hk := hidle k
    cases hpc : (s.handler k).pc <;> simp_all [Handler.Pc.idle, Handler.Pc.uncounting]
  have hleav : ∀ k, (s.handler k).leaving = none := by
    intro k
    have hk := hidle k
    cases hpc : (s.handler k).pc <;> simp_all [Handler.Pc.idle, Handler.leaving]
  have hm : s.main = .accept := by
    have hi := hq.1
    cases hm : s.main with
    | accept => rfl
    | _ => rw [hm] at hi; cases hi
  have htop : top = s.tbl.cnt := h.settled (by rw [hm]; rfl) hunc
  subst htop
  constructor
  · exact h.inj.nodup
  · intro f
    rw [h.live]
    simp only [hm, Main.pending, hleav, reduceCtorEq, exists_false, or_false]
    exact Slots.mem_map_range

end LinuxIpc.TcpChat
