import EthernetMac.Program
import EthernetMac.Register.Map

namespace EthernetMac

open Program (load)

structure Statistics where
  txPacketsGoodBad : Word
  txPacketsGood : Word
  txUnderflowErrors : Word
  txCarrierErrors : Word
  txPausePackets : Word
  rxPacketsGoodBad : Word
  rxCrcErrors : Word
  rxLengthErrors : Word
  rxPausePackets : Word
  rxFifoOverflows : Word
  rxWatchdogErrors : Word
  deriving DecidableEq

def readStatistics : Program Statistics := do
  let txPacketsGoodBad ← load Register.txPacketsGoodBad
  let txPacketsGood ← load Register.txPacketsGood
  let txUnderflowErrors ← load Register.txUnderflowErrors
  let txCarrierErrors ← load Register.txCarrierErrors
  let txPausePackets ← load Register.txPausePackets
  let rxPacketsGoodBad ← load Register.rxPacketsGoodBad
  let rxCrcErrors ← load Register.rxCrcErrors
  let rxLengthErrors ← load Register.rxLengthErrors
  let rxPausePackets ← load Register.rxPausePackets
  let rxFifoOverflows ← load Register.rxFifoOverflows
  let rxWatchdogErrors ← load Register.rxWatchdogErrors
  return ⟨txPacketsGoodBad, txPacketsGood, txUnderflowErrors, txCarrierErrors, txPausePackets,
    rxPacketsGoodBad, rxCrcErrors, rxLengthErrors, rxPausePackets, rxFifoOverflows,
    rxWatchdogErrors⟩

end EthernetMac
