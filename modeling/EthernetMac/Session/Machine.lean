import EthernetMac.Session.Step

/-! The order in which things happen. Operations run one action at a time; wherever an action lets
other code in, steps can be nested, and they run to their end before the operation goes on. -/

namespace EthernetMac

inductive Frame where
  | steps (rest : List Step)
  /-- An operation, what it was begun on, and what is left of its present round. -/
  | running (op : Operation) (target : Target) (rest : Task)

abbrev Hooks := List (Point × List Step)

namespace Hooks

def take? (point : Point) : Hooks → Option (List Step × Hooks)
  | [] => none
  | (p, steps) :: rest =>
    if p = point then some (steps, rest)
    else (take? point rest).map fun (found, others) => (found, (p, steps) :: others)

def size : Hooks → Nat
  | [] => 0
  | (_, steps) :: rest => Step.size.sizes steps + size rest

end Hooks

structure Machine where
  station : Station
  hooks : Hooks := []
  /-- Innermost first; empty between top-level steps. -/
  stack : List Frame := []
  answer : Option Answer := none

namespace Machine

def finish (m : Machine) (answer : Answer) : Machine :=
  match m.stack with
  | [] => { m with answer := some answer }
  | _ => { m with station := m.station.record (.answer answer) }

def mapRegisters (m : Machine) (f : RegisterFile → RegisterFile) : Machine :=
  { m with station := { m.station with registers := f m.station.registers } }

def start (m : Machine) (op : Operation) : Machine :=
  let target := m.station.target
  { m with stack := .running op target (op.task target) :: m.stack }

def issue (m : Machine) : Step → Machine
  | .set offset value => (m.mapRegisters (·.set offset value)).finish .ok
  | .get offset => m.finish (.word (m.station.registers.cell offset))
  | .raiseChannel bits => (m.mapRegisters (·.raiseChannel bits)).finish .ok
  | .raiseLink => (m.mapRegisters (·.raiseLink)).finish .ok
  | .busy polls => (m.mapRegisters fun f => { f with busy := polls }).finish .ok
  | .host change =>
    { m with station := { m.station with host := m.station.host.change change } }.finish .ok
  | .hook point steps => { m with hooks := m.hooks ++ [(point, steps)] }.finish .ok
  | .operation op => m.start op

def pass (m : Machine) (point : Point) : Machine :=
  match m.hooks.take? point with
  | none => m
  | some (steps, hooks) =>
    { m with
      hooks
      station := m.station.record (.hook point)
      stack := .steps steps :: m.stack }

/-- A fault ends the whole top-level step and frees the lock. What was done stays done. -/
def abort (m : Machine) (cause : Fault) : Machine :=
  { m with
    station := m.station.mapInterrupt ({ · with lock := .free })
    stack := []
    answer := some (.fault cause) }

def advance (m : Machine) : Machine :=
  match m.stack with
  | [] => m
  | .steps [] :: below => { m with stack := below }
  | .steps (step :: rest) :: below => { m with stack := .steps rest :: below }.issue step
  | .running _ _ (.done (.finished answer)) :: below => { m with stack := below }.finish answer
  | .running op target (.done .again) :: below =>
    { m with stack := .running op target (op.task target) :: below }
  | .running op target (.perform effect next) :: below =>
    match m.station.perform effect with
    | .error cause => m.abort cause
    | .ok (answer, station) =>
      let after := { m with station, stack := .running op target (next answer) :: below }
      match effect.point? with
      | some point => after.pass point
      | none => after

def advanceFor : Nat → Machine → Machine
  | 0, m => m
  | limit + 1, m => if m.stack.isEmpty then m else advanceFor limit m.advance

end Machine

end EthernetMac
