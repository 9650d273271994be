import EthernetMac.Error
import EthernetMac.Register.Layout

namespace EthernetMac

inductive AddressWidth where
  | bits32
  | bits40
  | bits48
  deriving DecidableEq, Repr

namespace AddressWidth

def ofCode? (code : Word) : Option AddressWidth :=
  if code = MacFeature1.width32 then some bits32
  else if code = MacFeature1.width40 then some bits40
  else if code = MacFeature1.width48 then some bits48
  else none

def label : AddressWidth → String
  | bits32 => "Bits32"
  | bits40 => "Bits40"
  | bits48 => "Bits48"

def bits : AddressWidth → Nat
  | bits32 => 32
  | bits40 => 40
  | bits48 => 48

def maxAddress (w : AddressWidth) : Nat := 1 <<< w.bits - 1

end AddressWidth

structure DmaCapability where
  width : AddressWidth
  maxAddress : Nat
  deriving DecidableEq, Repr

def DmaCapability.ofWidth (width : AddressWidth) : DmaCapability := ⟨width, width.maxAddress⟩

structure LinkCapability where
  transmit : Nat
  receive : Nat
  deriving DecidableEq, Repr

structure FilterFlags where
  bits : Word
  deriving DecidableEq

namespace FilterFlags

def none : FilterFlags := ⟨0⟩
def directed : FilterFlags := ⟨1⟩
def multicast : FilterFlags := ⟨2⟩
def allMulticast : FilterFlags := ⟨4⟩
def broadcast : FilterFlags := ⟨8⟩
def promiscuous : FilterFlags := ⟨32⟩

instance : OrOp FilterFlags := ⟨fun a b => ⟨a.bits ||| b.bits⟩⟩

def contains (a b : FilterFlags) : Bool := a.bits &&& b.bits == b.bits

end FilterFlags

structure FilterCapability where
  maxMulticast : Nat
  supported : FilterFlags
  deriving DecidableEq

structure Features where
  version : Word
  feature0 : Word
  feature1 : Word
  feature2 : Word
  feature3 : Word
  deriving DecidableEq

namespace Features

def oldestCore : Word := 0x51

def newestVendor : Word := 0x52

def checkVersion (f : Features) : Except ConfigError Unit :=
  if MacVersion.core.get f.version < oldestCore ∨ newestVendor < MacVersion.vendor.get f.version then
    .error .unsupportedVersion
  else .ok ()

/-- Slots of the address table, the first included. -/
def addressCount (f : Features) : Nat := (MacFeature0.addressCount.get f.feature0).toNat

def gigabit (f : Features) : Bool := MacFeature0.gigabit.test f.feature0

def txFifo (f : Features) : Word := MacFeature1.txFifo.get f.feature1

def rxFifo (f : Features) : Word := MacFeature1.rxFifo.get f.feature1

def dma (f : Features) : Except ConfigError DmaCapability :=
  match AddressWidth.ofCode? (MacFeature1.addressWidth.get f.feature1) with
  | some width => .ok (.ofWidth width)
  | none => .error .unknownAddressWidth

def link (f : Features) : LinkCapability :=
  let speed := if f.gigabit then 1000000000 else 100000000
  ⟨speed, speed⟩

def filter (f : Features) : FilterCapability :=
  let room := f.addressCount - 1
  let always := FilterFlags.directed ||| .allMulticast ||| .broadcast ||| .promiscuous
  ⟨room, if 0 < room then always ||| .multicast else always⟩

end Features

end EthernetMac
