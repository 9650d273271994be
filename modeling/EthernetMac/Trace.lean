import EthernetMac.Interrupt.Counters
import EthernetMac.Effect
import EthernetMac.Register.Map
import EthernetMac.Statistics

namespace EthernetMac

inductive Point where
  | read (offset : Nat)
  | write (offset : Nat)
  | delay
  | link
  | capabilities
  | start
  | schedule
  | notify
  deriving DecidableEq, Repr

inductive Answer where
  | ok
  | truth (value : Bool)
  | word (value : Word)
  | mask (value : InterruptMask)
  | statistics (value : Statistics)
  | adapter (value : Adapter)
  | text (value : String)
  | failed (cause : Error)
  | fault (cause : Fault)
  | noDevice
  | alreadyPrepared
  deriving DecidableEq

inductive Event where
  | read (offset : Nat) (value : Word)
  | write (offset : Nat) (value : Word)
  | delay (microseconds : Nat)
  /-- The same delay and the same reading of the mode register, several times in a row. -/
  | poll (microseconds : Nat) (value : Word) (count : Nat)
  | map (start length : Nat) (granted : Bool)
  | unmap
  | capabilities (value : Capabilities)
  | link (state : LinkState)
  | start (accepted : Bool)
  | random (size : Nat)
  | schedule
  | linkChanged
  | notify (queue : QueueHandle)
  | hook (point : Point)
  | answer (value : Answer)
  deriving DecidableEq

namespace Effect

def event? : (e : Effect) → e.Answer → Option Event
  | load offset, value => some (.read offset value)
  | store offset value, _ => some (.write offset value)
  | delay microseconds, _ => some (.delay microseconds)
  | map start length, granted => some (.map start length granted)
  | unmap, _ => some .unmap
  | publishLink state, _ => some (.link state)
  | publishCapabilities capabilities, _ => some (.capabilities capabilities)
  | startDatapath, accepted => some (.start accepted)
  | random size, _ => some (.random size)
  | schedule, _ => some .schedule
  | linkChanged, _ => some .linkChanged
  | notify queue, _ => some (.notify queue)
  | _, _ => none

def point? : Effect → Option Point
  | load offset => some (.read offset)
  | store offset _ => some (.write offset)
  | delay _ => some .delay
  | publishLink _ => some .link
  | publishCapabilities _ => some .capabilities
  | startDatapath => some .start
  | schedule => some .schedule
  | linkChanged => some .link
  | notify _ => some .notify
  | _ => none

end Effect

namespace Trace

/-- Adds an event to a trace that is kept latest first, joining polls of the mode register. -/
def join (trace : List Event) (event : Event) : List Event :=
  match event, trace with
  | .read offset value, .delay us :: rest =>
    if offset = Register.dmaMode then
      match rest with
      | .poll us' value' count :: earlier =>
        if us' = us ∧ value' = value then .poll us value (count + 1) :: earlier
        else .poll us value 1 :: rest
      | _ => .poll us value 1 :: rest
    else event :: trace
  | _, _ => event :: trace

def summary (trace : List Event) : List Event :=
  (trace.reverse.foldl join []).reverse

end Trace

end EthernetMac
