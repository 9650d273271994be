import EthernetMac.Interrupt.Coordinator

namespace EthernetMac

open Program (act load store onlyIf fail)

def refreshLink : Program LinkState := do
  let status ← load Register.macPhyStatus
  let config ← load Register.macConfiguration
  let wanted := reconcile config status
  onlyIf (wanted != config) (store Register.macConfiguration wanted)
  let state := LinkState.ofStatus status
  act (.publishLink state)
  return state

/-- The queue size field that gives a queue the whole FIFO of `128 <<< code` bytes. Bits shifted
out of the word are lost; a code of 32 or more has no value. -/
def queueSize? (code : Word) : Option Word :=
  if code < 32 then
    let blocks := ((128 : Word) <<< code) / 256
    some (if blocks = 0 then 0 else blocks - 1)
  else none

def queueSize (code : Word) : Program Word :=
  match queueSize? code with
  | some size => return size
  | none => fail .fifoTooLarge

namespace Working

def longestPause : Word := 0xFFFF

def rxFlowControl : Word := 0x3

def rxQueueControl : Word := 0x2

def txQueueEnabled : Word := 2

/-- Flow control starts 2 KiB below a full FIFO and ends 6 KiB below. -/
def flowActivate : Word := 2

def flowDeactivate : Word := 10

def txFlowControl : Word :=
  (0 : Word)
    |> MacTxFlowControl.enable.assign true
    |> MacTxFlowControl.pauseTime.set longestPause

def txOperation (size : Word) : Word :=
  (0 : Word)
    |> TxOperation.storeAndForward.assign true
    |> TxOperation.queueEnable.set txQueueEnabled
    |> TxOperation.queueSize.set size

def rxOperation (size : Word) : Word :=
  (0 : Word)
    |> RxOperation.storeAndForward.assign true
    |> RxOperation.forwardErrors.assign true
    |> RxOperation.forwardUndersizedGood.assign true
    |> RxOperation.queueSize.set size
    |> RxOperation.hardwareFlowControl.assign true
    |> RxOperation.flowActivate.set flowActivate
    |> RxOperation.flowDeactivate.set flowDeactivate

def macConfiguration : Word :=
  (0 : Word)
    |> MacConfiguration.ignoreCarrierSense.assign true
    |> MacConfiguration.packetBurst.assign true
    |> MacConfiguration.receiverEnable.assign true
    |> MacConfiguration.transmitterEnable.assign true

def stopped (config : Word) : Word :=
  config
    |> MacConfiguration.receiverEnable.assign false
    |> MacConfiguration.transmitterEnable.assign false

end Working

namespace Adapter

/-- Queue interrupts stay off until a queue registers. -/
def enterWorking (a : Adapter) : Program (Except Error Unit) := do
  if ← act (.setActive true) then
    return .error (.io .invalidState)
  else do
    store Register.macTxFlowControl Working.txFlowControl
    store Register.mtlTxOperation (Working.txOperation (← queueSize a.features.txFifo))
    store Register.macRxFlowControl Working.rxFlowControl
    store Register.macRxQueueControl Working.rxQueueControl
    store Register.mtlRxOperation (Working.rxOperation (← queueSize a.features.rxFifo))
    store Register.macConfiguration Working.macConfiguration
    discard refreshLink
    let stale ← load Register.channelStatus
    onlyIf (stale != 0) (store Register.channelStatus stale)
    Interrupt.enable .stateOnly
    return .ok ()

def requireCleared (direction : Direction) : Program Unit := do
  if ← act (.armed direction) then fail (.queueRegistered direction) else return ()

def leaveWorking : Program (Except Error Unit) := do
  if ← act (.setActive false) then do
    Interrupt.disable .all
    requireCleared .receive
    requireCleared .transmit
    let config ← load Register.macConfiguration
    store Register.macConfiguration (Working.stopped config)
    return .ok ()
  else
    return .error (.io .invalidState)

end Adapter

end EthernetMac
