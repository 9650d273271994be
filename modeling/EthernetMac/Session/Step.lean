import EthernetMac.Adapter.Describe
import EthernetMac.Adapter.Power
import EthernetMac.Adapter.Prepare
import EthernetMac.Filter.Apply
import EthernetMac.Station.State

namespace EthernetMac

open Program (act load store)

inductive Operation where
  | read (offset : Nat)
  | write (offset : Nat) (value : Word)
  | prepare (config : HostConfig) (resources : List Resource)
  | release
  | enterWorking
  | leaveWorking
  | filter (flags : FilterFlags) (multicast : List LinkLayerAddress)
  | register (direction : Direction) (queue : Option QueueHandle)
  | enable (bits : InterruptMask)
  | disable (bits : InterruptMask)
  | interrupt
  | deferred
  | wanted
  | statistics
  | load (offset : Nat)
  | inspect
  | describe
  deriving DecidableEq

inductive Step where
  | set (offset : Nat) (value : Word)
  | get (offset : Nat)
  | raiseChannel (bits : Word)
  | raiseLink
  | busy (polls : Nat)
  | host (change : HostChange)
  /-- Runs `steps` the next time the operation in progress passes `point`. -/
  | hook (point : Point) (steps : List Step)
  | operation (op : Operation)

def Step.size : Step → Nat
  | hook _ steps => 1 + sizes steps
  | _ => 1
where
  sizes : List Step → Nat
    | [] => 0
    | step :: rest => step.size + sizes rest

/-- The work of a step: a program that is run in rounds until one of them answers. -/
abbrev Task := Program (Round Answer)

namespace Task

def once {α : Type} (p : Program α) (answer : α → Answer) : Task :=
  return .finished (answer (← p))

def outcome : Except Error Unit → Answer
  | .ok _ => .ok
  | .error cause => .failed cause

def prepare (config : HostConfig) (resources : List Resource) : Task := do
  match ← Adapter.prepare config resources with
  | .ok adapter =>
    act (.attach adapter)
    return .finished .ok
  | .error cause => return .finished (.failed cause)

/-- The adapter is gone before it is given back. -/
def release (adapter : Adapter) : Task := do
  act .detach
  let result ← adapter.giveBack
  return .finished (outcome result)

def deferred (linkChange : Program Unit) : Task := do
  match ← Interrupt.work linkChange with
  | .again => return .again
  | .finished _ => return .finished .ok

def describe (adapter : Adapter) : Task := do
  let wanted ← act .wanted
  let active ← act .active
  return .finished (.text (adapter.text wanted active))

end Task

namespace Operation

def interruptTask? (linkChange : Program Unit) : Operation → Option Task
  | register direction queue => some (.once (Interrupt.register direction queue) fun _ => .ok)
  | enable bits => some (.once (Interrupt.enable bits) fun _ => .ok)
  | disable bits => some (.once (Interrupt.disable bits) fun _ => .ok)
  | interrupt => some (.once Interrupt.handle .truth)
  | deferred => some (.deferred linkChange)
  | wanted => some (.once (act .wanted) .mask)
  | _ => none

def adapterTask (adapter : Adapter) (op : Operation) : Task :=
  match op with
  | prepare _ _ => return .finished .alreadyPrepared
  | release => .release adapter
  | enterWorking => .once adapter.enterWorking Task.outcome
  | leaveWorking => .once Adapter.leaveWorking Task.outcome
  | filter flags multicast =>
    .once (applyFilter adapter.features.addressCount adapter.current flags multicast) fun _ => .ok
  | statistics => .once readStatistics .statistics
  | load offset => .once (Program.load offset) .word
  | inspect => return .finished (.adapter adapter)
  | describe => .describe adapter
  | other => (other.interruptTask? (discard refreshLink)).getD (return .finished .noDevice)

def task (op : Operation) (target : Target) : Task :=
  match op, target with
  | read offset, _ => .once (Program.load offset) .word
  | write offset value, _ => .once (Program.store offset value) fun _ => .ok
  | prepare config resources, .noDevice => .prepare config resources
  | op, .device adapter => op.adapterTask adapter
  | op, .interrupts => (op.interruptTask? (act .linkChanged)).getD (return .finished .noDevice)
  | _, .noDevice => return .finished .noDevice

end Operation

end EthernetMac
