import EthernetMac.Address.Table
import EthernetMac.Reset
import EthernetMac.Resource

namespace EthernetMac

open Program (act load store)

def readFeatures : Program Features := do
  let version ← load Register.macVersion
  let feature0 ← load Register.macFeature0
  let feature1 ← load Register.macFeature1
  let feature2 ← load Register.macFeature2
  let feature3 ← load Register.macFeature3
  return ⟨version, feature0, feature1, feature2, feature3⟩

def Features.supported (f : Features) : Except ConfigError DmaCapability := do
  f.checkVersion
  f.dma

namespace Bus

def maxWriteOutstanding : Word := 4

def maxReadOutstanding : Word := 8

def registerClock : Nat := 125000000

def tick : Word := BitVec.ofNat 32 (registerClock / 1000000 - 1)

def descriptorSize : Nat := 64

def descriptorHardwareSize : Nat := 16

def width : Nat := 8

def descriptorSkip : Word := BitVec.ofNat 32 ((descriptorSize - descriptorHardwareSize) / width)

def resetCounters : Word := 1

def mode (old : Word) : Word :=
  old
    |> DmaSystemBus.mixedBurst.assign true
    |> DmaSystemBus.fixedBurst.assign false
    |> DmaSystemBus.maxWriteOutstanding.set maxWriteOutstanding
    |> DmaSystemBus.maxReadOutstanding.set maxReadOutstanding
    |> DmaSystemBus.burstLength16.assign true
    |> DmaSystemBus.burstLength8.assign true
    |> DmaSystemBus.burstLength4.assign true

def channel (old : Word) : Word :=
  old
    |> ChannelControl.descriptorSkip.set descriptorSkip
    |> ChannelControl.burstTimesEight.assign true

def configure : Program Unit := do
  let old ← load Register.dmaSystemBus
  store Register.dmaSystemBus (mode old)
  store Register.macMicrosecondTick tick
  let old ← load Register.channelControl
  store Register.channelControl (channel old)
  store Register.mmcControl resetCounters

end Bus

namespace Adapter

def bringUp (config : HostConfig) (line : Nat) : Program (Except Error Adapter) := do
  let permanent ← readPermanent
  let current ← selectCurrent config.address permanent
  let features ← readFeatures
  match features.supported with
  | .error cause => return .error (.config cause)
  | .ok dma =>
    act (.publishCapabilities (.ofFeatures features dma permanent current))
    act (.publishLink .disconnected)
    match ← softReset current with
    | .error cause => return .error (.io cause)
    | .ok _ =>
      Bus.configure
      if ← act .startDatapath then
        return .ok ⟨line, features, dma, permanent, current⟩
      else
        return .error (.config .datapathStartFailed)

/-- The register window is given back on every error. -/
def prepare (config : HostConfig) (resources : List Resource) : Program (Except Error Adapter) := do
  match ← scanResources resources with
  | .error cause => return .error (.config cause)
  | .ok line =>
    match ← bringUp config line with
    | .error cause =>
      act .unmap
      return .error cause
    | .ok adapter => return .ok adapter

/-- Leaves the permanent address in the first slot, so that it is found again. -/
def giveBack (a : Adapter) : Program (Except Error Unit) := do
  let result ← softReset a.permanent
  act .unmap
  match result with
  | .ok _ => return .ok ()
  | .error cause => return .error (.io cause)

end Adapter

end EthernetMac
