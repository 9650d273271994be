import EthernetMac.Capabilities
import EthernetMac.Interrupt.Counters
import EthernetMac.Interrupt.Mask
import EthernetMac.Link.State

/-! The single actions an operation is made of: register accesses, calls on the host, and steps on
the state the operations share. Nothing else happens in the middle of one. -/

namespace EthernetMac

structure QueueHandle where
  name : String
  deriving DecidableEq, Repr

inductive Fault where
  | lockHeld
  | queueRegistered (direction : Direction)
  | fifoTooLarge
  /-- An access outside the register window, or between two registers. -/
  | badOffset
  /-- A slot of the address table whose offset is beyond 64 bits. -/
  | slotTooFar
  deriving DecidableEq, Repr

namespace Fault

def message? : Fault → Option String
  | queueRegistered .receive => some "rx queue still registered at d0 exit"
  | queueRegistered .transmit => some "tx queue still registered at d0 exit"
  | _ => none

end Fault

inductive Effect where
  | load (offset : Nat)
  | store (offset : Nat) (value : Word)
  | delay (microseconds : Nat)
  | map (start length : Nat)
  | unmap
  | publishLink (state : LinkState)
  | publishCapabilities (capabilities : Capabilities)
  | startDatapath
  | random (size : Nat)
  | schedule
  | linkChanged
  | notify (queue : QueueHandle)
  /-- Sets whether the device is in its working state; answers whether it was. -/
  | setActive (on : Bool)
  | active
  | acquire
  | release
  | wanted
  | armed (direction : Direction)
  | mask
  | setMask (mask : InterruptMask)
  | setQueue (direction : Direction) (queue : Option QueueHandle)
  | takeQueue (direction : Direction)
  | merge (causes : Word)
  | drain
  | count (counter : Counter)
  | attach (adapter : Adapter)
  | detach
  | fault (cause : Fault)

@[reducible] def Effect.Answer : Effect → Type
  | load _ => Word
  | map _ _ => Bool
  | startDatapath => Bool
  | random size => Vector Byte size
  | setActive _ => Bool
  | active => Bool
  | wanted => InterruptMask
  | armed _ => Bool
  | mask => InterruptMask
  | takeQueue _ => Option QueueHandle
  | drain => Word
  | fault _ => Empty
  | _ => Unit

end EthernetMac
