import EthernetMac.Interrupt.Mask

/-! The pending word: interrupt causes acknowledged at the hardware and not yet served. -/

namespace EthernetMac

/-- The link cause in a pending word; the other bits are laid out as in the channel status, which
never uses this one. -/
def linkCause : Word := 0x80000000

structure Causes where
  receive : Bool
  transmit : Bool
  abnormal : Bool
  fatal : Bool
  link : Bool
  deriving DecidableEq, Repr

namespace Causes

def ofWord (pending : Word) : Causes :=
  let channel := pending &&& ~~~linkCause
  { receive := ChannelStatus.receive.test channel
    transmit := ChannelStatus.transmit.test channel
    abnormal := ChannelStatus.abnormalSummary.test channel
    fatal := ChannelStatus.fatalBusError.test channel
    link := pending &&& linkCause != 0 }

def hasError (c : Causes) : Bool := c.abnormal || c.fatal

def has (c : Causes) : Direction → Bool
  | .receive => c.receive
  | .transmit => c.transmit

def queues (c : Causes) : InterruptMask := ⟨false, c.receive, c.transmit⟩

end Causes

structure Pending where
  word : Word
  deriving DecidableEq

namespace Pending

def empty : Pending := ⟨0⟩

def merge (p : Pending) (causes : Word) : Pending := ⟨p.word ||| causes⟩

def take (p : Pending) : Word × Pending := (p.word, empty)

end Pending

end EthernetMac
