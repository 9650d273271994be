import EthernetMac.Register.Layout

namespace EthernetMac

inductive Direction where
  | receive
  | transmit
  deriving DecidableEq, Repr

instance {p : Direction → Prop} [DecidablePred p] : Decidable (∀ direction, p direction) :=
  decidable_of_iff (p .receive ∧ p .transmit)
    ⟨fun both direction => direction.casesOn both.1 both.2, fun all => ⟨all _, all _⟩⟩

structure InterruptMask where
  state : Bool
  receive : Bool
  transmit : Bool
  deriving DecidableEq, Repr

namespace InterruptMask

def none : InterruptMask := ⟨false, false, false⟩
def stateOnly : InterruptMask := ⟨true, false, false⟩
def receiveOnly : InterruptMask := ⟨false, true, false⟩
def transmitOnly : InterruptMask := ⟨false, false, true⟩
def all : InterruptMask := ⟨true, true, true⟩

instance : Inhabited InterruptMask := ⟨none⟩

def only : Direction → InterruptMask
  | .receive => receiveOnly
  | .transmit => transmitOnly

def union (a b : InterruptMask) : InterruptMask :=
  ⟨a.state || b.state, a.receive || b.receive, a.transmit || b.transmit⟩

instance : OrOp InterruptMask := ⟨union⟩

def difference (a b : InterruptMask) : InterruptMask :=
  ⟨a.state && !b.state, a.receive && !b.receive, a.transmit && !b.transmit⟩

def complement (a : InterruptMask) : InterruptMask := all.difference a

def contains (a b : InterruptMask) : Bool := b.difference a == none

def isEmpty (a : InterruptMask) : Bool := a == none

def bits (a : InterruptMask) : Nat := a.state.toNat + 2 * a.receive.toNat + 4 * a.transmit.toNat

def ofBits (n : Nat) : InterruptMask := ⟨n.testBit 0, n.testBit 1, n.testBit 2⟩

def macEnable (a : InterruptMask) : Word := MacInterruptEnable.linkStatus.assign a.state 0

/-- The normal summary is always on: the queue causes reach the processor only through it. -/
def channelEnable (a : InterruptMask) : Word :=
  (0 : Word)
    |> ChannelInterruptEnable.receive.assign a.receive
    |> ChannelInterruptEnable.transmit.assign a.transmit
    |> ChannelInterruptEnable.normalSummary.assign true
    |> ChannelInterruptEnable.fatalBusError.assign a.state
    |> ChannelInterruptEnable.abnormalSummary.assign a.state

end InterruptMask

end EthernetMac
