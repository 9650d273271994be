import EthernetMac.Address.Mac
import EthernetMac.Features

namespace EthernetMac

structure Capabilities where
  current : MacAddress
  permanent : MacAddress
  mtu : Nat
  link : LinkCapability
  dma : DmaCapability
  maxMapping : Nat
  maxFragments : Nat
  receiveBuffer : Nat
  filter : FilterCapability
  deriving DecidableEq

namespace Capabilities

def standardMtu : Nat := 1500

def largestMapping : Nat := 16384

/-- The shortest descriptor ring; one descriptor always stays free. -/
def shortestRing : Nat := 32

def receiveBufferSize : Nat := 2048

def ofFeatures (features : Features) (dma : DmaCapability) (permanent current : MacAddress) :
    Capabilities where
  current := current
  permanent := permanent
  mtu := standardMtu
  link := features.link
  dma := dma
  maxMapping := largestMapping
  maxFragments := shortestRing - 1
  receiveBuffer := receiveBufferSize
  filter := features.filter

end Capabilities

structure Adapter where
  line : Nat
  features : Features
  dma : DmaCapability
  permanent : MacAddress
  current : MacAddress
  deriving DecidableEq

end EthernetMac
