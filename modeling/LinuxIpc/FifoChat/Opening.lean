import LinuxIpc.Lib.Rendezvous

namespace LinuxIpc.FifoChat
set_option autoImplicit true

open Rendezvous (Mode Pair facing)

/-- `"fifo1"` and `"fifo2"`. -/
inductive Name
  | fifo1
  | fifo2
  deriving DecidableEq

/-- The programs that talk over these FIFOs. -/
inductive Talker
  | pls
  | pzs
  | procon
  | admin
  | procon1
  | admin1
  | fifoReceiver
  | fifoSend
  deriving DecidableEq

/-- The `open`s at the start of `main`. -/
def Talker.opens : Talker → List (Name × Mode)
  | .pls | .procon | .procon1 => [(.fifo1, .read), (.fifo2, .write)]
  | .pzs | .admin | .admin1 => [(.fifo1, .write), (.fifo2, .read)]
  | .fifoReceiver => [(.fifo1, .read)]
  | .fifoSend => [(.fifo1, .write)]

def Talker.peer : Talker → Talker
  | .pls => .pzs
  | .pzs => .pls
  | .procon => .admin
  | .admin => .procon
  | .procon1 => .admin1
  | .admin1 => .procon1
  | .fifoReceiver => .fifoSend
  | .fifoSend => .fifoReceiver

/-- A program with the one it talks to. -/
def Talker.pair (a : Talker) : Pair Name where
  opens := a.opens
  nodup := by cases a <;> decide

/-- Each program and its peer get all of their `open`s through in every schedule, whichever of
them is started first. -/
theorem inevitable_opened (a : Talker) :
    a.pair.script true = a.opens ∧ a.pair.script false = a.peer.opens ∧
      (Rendezvous.sys a.pair).Inevitable
        (fun s => ∀ b, (s.pc b).Connected a.opens.length) Rendezvous.start := by
  refine ⟨rfl, ?_, Rendezvous.inevitable_connected a.pair⟩
  cases a <;> rfl

end LinuxIpc.FifoChat
