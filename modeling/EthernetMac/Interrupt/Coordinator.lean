import EthernetMac.Interrupt.Pending
import EthernetMac.Program
import EthernetMac.Register.Map

/-! Interrupt handling in two halves. The handler acknowledges causes and hands them on without
ever taking the lock; the worker serves them. The mask and the queue handles change only under the
lock. -/

namespace EthernetMac

open Program (act load store onlyIf locked)

inductive Round (α : Type) where
  | again
  | finished (value : α)

def Direction.counter : Direction → Counter
  | receive => .receive
  | transmit => .transmit

namespace Interrupt

def changeMask (new : InterruptMask) : Program Unit := do
  let old ← act .mask
  onlyIf (old != new) do
    act (.setMask new)
    store Register.macInterruptEnable new.macEnable
    store Register.channelInterruptEnable new.channelEnable

def addWanted (bits : InterruptMask) : Program Unit := do
  changeMask ((← act .mask) ||| bits)

def removeWanted (bits : InterruptMask) : Program Unit := do
  changeMask ((← act .mask).difference bits)

def enable (bits : InterruptMask) : Program Unit := locked (addWanted bits)

def disable (bits : InterruptMask) : Program Unit := locked (removeWanted bits)

def register (direction : Direction) (queue : Option QueueHandle) : Program Unit :=
  locked do
    act (.setQueue direction queue)
    if queue.isSome then addWanted (.only direction) else removeWanted (.only direction)

/-- The interrupt handler. Answers whether the device had raised the interrupt. -/
def handle : Program Bool := do
  let mac ← load Register.macInterruptStatus
  let channel ← load Register.channelStatus
  let link := MacInterruptStatus.linkStatus.test mac
  if !link && channel == 0 then do
    act (.count .ignored)
    return false
  else do
    onlyIf link (do discard (load Register.macPhyStatus))
    onlyIf (channel != 0) (store Register.channelStatus channel)
    act (.merge (channel ||| if link then linkCause else 0))
    act .schedule
    act (.count .handled)
    return true

/-- Takes the handle of a direction before notifying it: a registration is told once. Without a
handle the cause is dropped. -/
def notifyOnce (direction : Direction) : Program Unit := do
  match ← act (.takeQueue direction) with
  | some queue =>
    act (.count direction.counter)
    act (.notify queue)
  | none => return ()

/-- Serves the causes of one drain. The directions served leave the mask before any queue hears
of it. -/
def serve (linkChange : Program Unit) (causes : Causes) : Program Unit := do
  onlyIf causes.abnormal (act (.count .abnormal))
  onlyIf causes.fatal (act (.count .fatal))
  onlyIf causes.link do
    act (.count .linkChange)
    linkChange
  onlyIf (!causes.queues.isEmpty) <| locked do
    removeWanted causes.queues
    onlyIf causes.receive (notifyOnce .receive)
    onlyIf causes.transmit (notifyOnce .transmit)

def work (linkChange : Program Unit) : Program (Round Unit) := do
  let pending ← act .drain
  if pending = 0 then
    return .finished ()
  else do
    serve linkChange (.ofWord pending)
    return .again

end Interrupt

end EthernetMac
