import EthernetMac.Register.Layout

namespace EthernetMac

inductive LinkSpeed where
  | mbps10
  | mbps100
  | mbps1000
  | unknown
  deriving DecidableEq, Repr

namespace LinkSpeed

def label : LinkSpeed → String
  | mbps10 => "Mbps10"
  | mbps100 => "Mbps100"
  | mbps1000 => "Mbps1000"
  | unknown => "Unknown"

def bitsPerSecond : LinkSpeed → Nat
  | mbps10 => 10000000
  | mbps100 => 100000000
  | mbps1000 => 1000000000
  | unknown => 0

def ofClock (code : Word) : LinkSpeed :=
  if code = MacPhyStatus.clock2M5 then mbps10
  else if code = MacPhyStatus.clock25M then mbps100
  else if code = MacPhyStatus.clock125M then mbps1000
  else unknown

def port? : LinkSpeed → Option Word
  | mbps10 => some MacConfiguration.port10M
  | mbps100 => some MacConfiguration.port100M
  | mbps1000 => some MacConfiguration.port1000M
  | unknown => none

end LinkSpeed

inductive Duplex where
  | half
  | full
  | unknown
  deriving DecidableEq, Repr

def Duplex.label : Duplex → String
  | half => "Half"
  | full => "Full"
  | unknown => "Unknown"

structure AutoNegotiation where
  transmitSpeed : Bool
  receiveSpeed : Bool
  duplex : Bool
  deriving DecidableEq, Repr

namespace AutoNegotiation

def off : AutoNegotiation := ⟨false, false, false⟩

def complete : AutoNegotiation := ⟨true, true, true⟩

end AutoNegotiation

structure LinkState where
  connected : Bool
  duplex : Duplex
  speed : LinkSpeed
  negotiation : AutoNegotiation
  deriving DecidableEq, Repr

namespace LinkState

def disconnected : LinkState := ⟨false, .unknown, .unknown, .off⟩

instance : Inhabited LinkState := ⟨disconnected⟩

def bitsPerSecond (s : LinkState) : Nat := s.speed.bitsPerSecond

def ofStatus (status : Word) : LinkState where
  connected := MacPhyStatus.linkUp.test status
  duplex := if MacPhyStatus.fullDuplex.test status then .full else .half
  speed := .ofClock (MacPhyStatus.speed.get status)
  negotiation := .complete

end LinkState

/-- The configuration `current` with duplex and speed as `status` reports them. An unknown speed
leaves the selector alone. -/
def reconcile (current status : Word) : Word :=
  let config := MacConfiguration.fullDuplex.assign (MacPhyStatus.fullDuplex.test status) current
  match (LinkSpeed.ofClock (MacPhyStatus.speed.get status)).port? with
  | some port => MacConfiguration.portSpeed.set port config
  | none => config

end EthernetMac
