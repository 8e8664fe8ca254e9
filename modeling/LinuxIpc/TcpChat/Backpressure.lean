import LinuxIpc.Lib.Relay
import LinuxIpc.TcpChat.Session
import Mathlib.Data.List.FinRange

namespace LinuxIpc.TcpChat
set_option autoImplicit true

open Relay (textsFor saidBy)

/-- The clients in the table while nobody comes or goes, each with a name that ends in its field,
and what the buffers of a connection take in either direction. -/
structure Crowd where
  n : Nat
  cl : Fin n → Client
  ends : ∀ i, 0 ∈ (cl i).name.bytes
  distinct : ∀ i j, (cl i).cfd = (cl j).cfd → i = j
  up : Nat
  up_pos : 0 < up
  down : Nat
  down_pos : 0 < down

/-- A name that ends in its field leaves `recv` room in `buf`. -/
theorem linePrefix_le (h : 0 ∈ cl.name.bytes) (behind : List UInt8) :
    (linePrefix cl behind).length ≤ 42 := by
  have hle := (List.takeWhile_sublist (· ≠ 0) (l := cl.name.bytes)).length_le
  rw [cl.name.length_bytes] at hle
  rw [linePrefix, Client.nick_eq h, List.length_append]
  exact Nat.add_le_add_right hle 2

/-- Every line begins with the name. -/
theorem linePrefix_prefix (h : 0 ∈ cl.name.bytes) (d : List UInt8) (b : Behind) :
    linePrefix cl b.name <+: chatLine cl d b := by
  have hp : (linePrefix cl b.name).length ≤ 1024 :=
    Nat.le_trans (linePrefix_le h b.name) (by decide)
  unfold chatLine
  change _ <+: cstr ((linePrefix cl b.name ++ d).take 1024 ++ _ ++ b.buf)
  rw [List.take_append, List.take_of_length_le hp, List.append_assoc, List.append_assoc,
    cstr_append_of_notMem (zero_notMem_linePrefix _ _)]
  exact List.prefix_append ..

theorem chatLine_ne_nil (h : 0 ∈ cl.name.bytes) (d : List UInt8) (b : Behind) :
    chatLine cl d b ≠ [] := by
  intro hnil
  have hpre := linePrefix_prefix h d b
  rw [hnil, List.prefix_nil] at hpre
  exact List.append_ne_nil_of_right_ne_nil _ (by decide) hpre

/-- `pthread_run` for each client, `broadcast`, and the process of a client that receives. -/
def Crowd.group (c : Crowd) : Relay.Group (Fin c.n) UInt8 (List UInt8) where
  members := List.finRange c.n
  nodup := List.nodup_finRange c.n
  mem := List.mem_finRange
  same i j := (c.cl i).cfd = (c.cl j).cfd
  same_iff i j := decide_eq_true_iff.trans ⟨c.distinct i j, congrArg fun i => (c.cl i).cfd⟩
  text i d beyond := chatLine (c.cl i) d ⟨[], beyond⟩
  text_ne i d beyond := chatLine_ne_nil (c.ends i) d ⟨[], beyond⟩
  reads i := 1024 - (linePrefix (c.cl i) []).length
  reads_pos i := Nat.sub_pos_of_lt (Nat.lt_of_le_of_lt (linePrefix_le (c.ends i) []) (by decide))
  hears := 1024
  hears_pos := by decide
  up := c.up
  up_pos := c.up_pos
  down := c.down
  down_pos := c.down_pos

/-- Two clients whose buffers take a byte each. -/
def pair : Crowd where
  n := 2
  cl i := ⟨4 + i.val, (Buf.zero 40).overwrite [97 + i.val.toUInt8]⟩
  ends := by decide
  distinct := by decide
  up := 1
  up_pos := Nat.one_pos
  down := 1
  down_pos := Nat.one_pos

end LinuxIpc.TcpChat
