import EthernetMac.Session.Machine

namespace EthernetMac

inductive Snapshot where
  | nothing
  | device (wanted : InterruptMask) (active : Bool) (counters : Counters)
  | interrupts (wanted : InterruptMask) (receive transmit : Bool) (counters : Counters)

def Station.snapshot (s : Station) : Snapshot :=
  let i := s.interrupt
  match s.target with
  | .noDevice => .nothing
  | .device _ => .device i.wanted s.active i.counters
  | .interrupts =>
    .interrupts i.wanted (i.queue .receive).isSome (i.queue .transmit).isSome i.counters

structure Report where
  answer : Option Answer
  trace : List Event
  state : Snapshot

namespace Machine

/-- Actions that one step can take, its share of the worker's rounds included: the longest
operation is a preparation whose reset uses every poll. -/
def actionsPerStep : Nat := 2 * Reset.maxPolls + 128

def budget (m : Machine) (step : Step) : Nat :=
  (step.size + m.hooks.size + 1) * actionsPerStep

def execute (m : Machine) (step : Step) : Machine :=
  let fresh : Machine := { m with answer := none, station := { m.station with trace := [] } }
  advanceFor (m.budget step) (fresh.issue step)

def report (m : Machine) : Report :=
  ⟨m.answer, Trace.summary m.station.trace, m.station.snapshot⟩

def session (m : Machine) : List Step → List Report
  | [] => []
  | step :: rest =>
    let after := m.execute step
    after.report :: after.session rest

end Machine

end EthernetMac
