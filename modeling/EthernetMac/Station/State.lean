import EthernetMac.Interrupt.Pending
import EthernetMac.Lock
import EthernetMac.Program
import EthernetMac.Station.RegisterFile
import EthernetMac.Trace

namespace EthernetMac

structure HostBehaviour where
  refusesStart : Bool := false
  refusesMapping : Bool := false
  random : List Byte := [0xA5]

structure HostChange where
  refusesStart : Option Bool := none
  refusesMapping : Option Bool := none
  random : Option (List Byte) := none

namespace HostBehaviour

def change (h : HostBehaviour) (c : HostChange) : HostBehaviour where
  refusesStart := c.refusesStart.getD h.refusesStart
  refusesMapping := c.refusesMapping.getD h.refusesMapping
  random := c.random.getD h.random

/-- Random bytes repeat from the start when they run out. -/
def randomBytes (h : HostBehaviour) (count : Nat) : Vector Byte count :=
  Vector.ofFn fun i => (h.random[i.val % h.random.length]?).getD 0

end HostBehaviour

/-- The mask and the queue handles under their lock, and beside them what needs no lock. -/
structure InterruptState where
  lock : Borrow := .free
  wanted : InterruptMask := .none
  queue : Direction → Option QueueHandle := fun _ => none
  pending : Pending := .empty
  counters : Counters := .zero

namespace InterruptState

def setQueue (s : InterruptState) (direction : Direction) (queue : Option QueueHandle) :
    InterruptState :=
  { s with queue := fun d => if d = direction then queue else s.queue d }

end InterruptState

inductive Target where
  | interrupts
  | noDevice
  | device (adapter : Adapter)

structure Station where
  registers : RegisterFile
  host : HostBehaviour := {}
  target : Target
  active : Bool := false
  interrupt : InterruptState := {}
  trace : List Event := []

namespace Station

def record (s : Station) (event : Event) : Station := { s with trace := event :: s.trace }

def mapInterrupt (s : Station) (f : InterruptState → InterruptState) : Station :=
  { s with interrupt := f s.interrupt }

def apply (s : Station) : (e : Effect) → Except Fault (e.Answer × Station)
  | .load offset =>
    match s.registers.read? offset with
    | some (value, registers) => .ok (value, { s with registers })
    | none => .error .badOffset
  | .store offset value =>
    match s.registers.write? offset value with
    | some registers => .ok ((), { s with registers })
    | none => .error .badOffset
  | .map _ _ => .ok (!s.host.refusesMapping, s)
  | .startDatapath => .ok (!s.host.refusesStart, s)
  | .random size => .ok (s.host.randomBytes size, s)
  | .setActive on => .ok (s.active, { s with active := on })
  | .active => .ok (s.active, s)
  | .acquire =>
    match s.interrupt.lock.write? with
    | some lock => .ok ((), s.mapInterrupt ({ · with lock }))
    | none => .error .lockHeld
  | .release => .ok ((), s.mapInterrupt ({ · with lock := .free }))
  | .wanted =>
    match s.interrupt.lock.read? with
    | some _ => .ok (s.interrupt.wanted, s)
    | none => .error .lockHeld
  | .armed direction =>
    match s.interrupt.lock.read? with
    | some _ => .ok ((s.interrupt.queue direction).isSome, s)
    | none => .error .lockHeld
  | .mask => .ok (s.interrupt.wanted, s)
  | .setMask wanted => .ok ((), s.mapInterrupt ({ · with wanted }))
  | .setQueue direction queue => .ok ((), s.mapInterrupt (·.setQueue direction queue))
  | .takeQueue direction =>
    .ok (s.interrupt.queue direction, s.mapInterrupt (·.setQueue direction none))
  | .merge causes => .ok ((), s.mapInterrupt fun i => { i with pending := i.pending.merge causes })
  | .drain =>
    let (word, pending) := s.interrupt.pending.take
    .ok (word, s.mapInterrupt ({ · with pending }))
  | .count counter =>
    .ok ((), s.mapInterrupt fun i => { i with counters := i.counters.bump counter })
  | .attach adapter =>
    .ok ((), { s with target := .device adapter, active := false, interrupt := {} })
  | .detach => .ok ((), { s with target := .noDevice })
  | .fault cause => .error cause
  | .delay _ | .unmap | .publishLink _ | .publishCapabilities _ | .schedule | .linkChanged
  | .notify _ => .ok ((), s)

/-- Performs one action and records what it shows. A fault leaves the station as it was. -/
def perform (s : Station) (e : Effect) : Except Fault (e.Answer × Station) := do
  let (answer, after) ← s.apply e
  match e.event? answer with
  | some event => return (answer, after.record event)
  | none => return (answer, after)

end Station

def Program.run {α : Type} (p : Program α) (s : Station) : Except Fault α × Station :=
  p.interpret Station.perform s

end EthernetMac
