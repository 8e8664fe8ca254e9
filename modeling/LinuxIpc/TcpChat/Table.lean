import LinuxIpc.Lib.Buffer
import LinuxIpc.Lib.Slots
import Mathlib.Algebra.Group.Nat.Defs

namespace LinuxIpc.TcpChat
set_option autoImplicit true

open Function (update)

/-- `#define MAX 100`, the length of `client`. -/
def MAX : Nat := 100

structure Client where
  cfd : Int
  name : Buf 40

/-- The globals `client` and `cnt`; `client` is followed past its end only where a program runs
out of it. -/
structure Table where
  client : Nat → Client
  cnt : Nat

/-- `Client client[MAX] = {}; size_t cnt = 0;` -/
def Table.empty : Table := ⟨fun _ => ⟨0, .zero 40⟩, 0⟩

/-- `cnt-1` and `cnt+1` in `size_t`. -/
def pred64 (n : Nat) : Nat := (n + (2 ^ 64 - 1)) % 2 ^ 64
def succ64 (n : Nat) : Nat := (n + 1) % 2 ^ 64

theorem pred64_eq (h : 0 < n) (hb : n ≤ 2 ^ 64) : pred64 n = n - 1 := by
  unfold pred64
  omega

theorem succ64_eq (h : n + 1 < 2 ^ 64) : succ64 n = n + 1 := Nat.mod_eq_of_lt h

namespace Table

def write (t : Table) (i : Nat) (c : Client) : Table := { t with client := update t.client i c }

/-- `recv(cfd,&client[cnt].name,40,0);` where `d` arrives. -/
def recvName (t : Table) (d : List UInt8) : Table :=
  t.write t.cnt ⟨(t.client t.cnt).cfd, (t.client t.cnt).name.overwrite d⟩

/-- `client[cnt].cfd = cfd;` -/
def setCfd (t : Table) (cfd : Int) : Table := t.write t.cnt ⟨cfd, (t.client t.cnt).name⟩

/-- `client[i] = client[cnt-1];` -/
def moveLast (t : Table) (i : Nat) : Table := t.write i (t.client (pred64 t.cnt))

/-- The descriptor in each slot, and those in `client[0..cnt)`. -/
def fd (t : Table) (i : Nat) : Int := (t.client i).cfd
def fds (t : Table) : List Int := (List.range t.cnt).map t.fd

theorem write_self (t : Table) (i : Nat) (c : Client) : (t.write i c).client i = c :=
  Function.update_self ..

theorem write_of_ne (t : Table) (c : Client) (h : j ≠ i) : (t.write i c).client j = t.client j :=
  Function.update_of_ne h ..

theorem fd_setCnt (t : Table) (n : Nat) : ({ t with cnt := n } : Table).fd = t.fd := rfl

theorem fd_write (t : Table) (i : Nat) (c : Client) : (t.write i c).fd = update t.fd i c.cfd := by
  funext j
  by_cases h : j = i
  · rw [h, fd, write_self, Function.update_self]
  · rw [fd, write_of_ne _ _ h, Function.update_of_ne h, fd]

/-- A name that arrives leaves the descriptors alone. -/
theorem fd_recvName (t : Table) (d : List UInt8) : (t.recvName d).fd = t.fd := by
  rw [recvName, fd_write]
  exact Function.update_eq_self ..

theorem fd_setCfd (t : Table) (cfd : Int) : (t.setCfd cfd).fd = update t.fd t.cnt cfd :=
  fd_write ..

theorem fd_moveLast (t : Table) (h : 0 < t.cnt) (hb : t.cnt ≤ 2 ^ 64) :
    (t.moveLast i).fd = Slots.moveLast t.fd t.cnt i := by
  rw [moveLast, fd_write, pred64_eq h hb]
  rfl

end Table

/-- What the memory holds behind a name field and behind `buf`, where a string that has no NUL in
its array goes on. -/
structure Behind where
  name : List UInt8
  buf : List UInt8
  deriving DecidableEq, Repr

/-- The C string at a name field. -/
def Client.nick (c : Client) (behind : List UInt8) : List UInt8 := cstr (c.name.bytes ++ behind)

-- 您的好友
def yourFriend : List UInt8 :=
  [0xE6, 0x82, 0xA8, 0xE7, 0x9A, 0x84, 0xE5, 0xA5, 0xBD, 0xE5, 0x8F, 0x8B]

-- 上线啦
def isOnline : List UInt8 := [0xE4, 0xB8, 0x8A, 0xE7, 0xBA, 0xBF, 0xE5, 0x95, 0xA6]

-- 退出了
def hasLeft : List UInt8 := [0xE9, 0x80, 0x80, 0xE5, 0x87, 0xBA, 0xE4, 0xBA, 0x86]

/-- What `buf` holds as a C string in `main` before the broadcast of a login. -/
def loginNotice (c : Client) (behind : List UInt8) : List UInt8 :=
  yourFriend ++ c.nick behind ++ isOnline

/-- `strcpy(buf,cl.name); strcat(buf," :");` -/
def linePrefix (cl : Client) (behind : List UInt8) : List UInt8 := cl.nick behind ++ ascii " :"

/-- The C string at `buf` once `recv` has put `d` behind the prefix. -/
def chatLine (cl : Client) (d : List UInt8) (b : Behind) : List UInt8 :=
  cstr (((Buf.zero 1024).overwrite (linePrefix cl b.name ++ d)).bytes ++ b.buf)

def leaveNotice (cl : Client) (behind : List UInt8) : List UInt8 :=
  yourFriend ++ cl.nick behind ++ hasLeft

/-- A name that ends in its field is the same whatever stands behind it. -/
theorem Client.nick_eq {c : Client} (h : 0 ∈ c.name.bytes) (behind : List UInt8) :
    c.nick behind = cstr c.name.bytes := cstr_append_of_mem h

theorem zero_notMem_linePrefix (cl : Client) (behind : List UInt8) : 0 ∉ linePrefix cl behind := by
  intro h
  rcases List.mem_append.1 h with h | h
  · exact ne_zero_of_mem_cstr h rfl
  · revert h
    decide

/-- Behind the prefix stands what was received, and zeros where it does not fill `buf`. -/
theorem chatLine_eq (hp : (linePrefix cl b.name).length ≤ 1024)
    (hd : d.length ≤ 1024 - (linePrefix cl b.name).length) :
    chatLine cl d b = linePrefix cl b.name ++
      cstr (d ++ List.replicate (1024 - (linePrefix cl b.name).length - d.length) 0 ++ b.buf) := by
  have hlen : (linePrefix cl b.name ++ d).length ≤ 1024 := by
    rw [List.length_append]
    omega
  have hb : ((Buf.zero 1024).overwrite (linePrefix cl b.name ++ d)).bytes =
      linePrefix cl b.name ++
        (d ++ List.replicate (1024 - (linePrefix cl b.name).length - d.length) 0) := by
    simp only [Buf.overwrite, List.take_of_length_le hlen, Buf.zero, List.drop_replicate,
      List.length_append, List.append_assoc, Nat.sub_sub]
  rw [chatLine, hb, List.append_assoc, cstr_append_of_notMem (zero_notMem_linePrefix _ _)]

end LinuxIpc.TcpChat
