import EthernetMac.Address.Mac

namespace EthernetMac

structure LinkLayerAddress where
  octets : List Byte
  short : octets.length ≤ 32
  deriving DecidableEq

namespace LinkLayerAddress

def maxLength : Nat := 32

def ofOctets? (octets : List Byte) : Option LinkLayerAddress :=
  if short : octets.length ≤ maxLength then some ⟨octets, short⟩ else none

def ofMac (a : MacAddress) : LinkLayerAddress := ⟨a.octets, by simp [MacAddress.octets]⟩

def length (a : LinkLayerAddress) : Nat := a.octets.length

def isEmpty (a : LinkLayerAddress) : Bool := a.octets.isEmpty

def ethernet? (a : LinkLayerAddress) : Option MacAddress :=
  match a.octets with
  | b0 :: b1 :: b2 :: b3 :: b4 :: b5 :: _ => some ⟨b0, b1, b2, b3, b4, b5⟩
  | _ => none

/-- The station address to use in place of the permanent one: six bytes, group bit clear. -/
def station? (a : LinkLayerAddress) : Option MacAddress :=
  if a.length = MacAddress.size then
    a.ethernet?.filter fun mac => !(mac.isMulticast || mac.isBroadcast)
  else none

end LinkLayerAddress

structure HostConfig where
  address : Option LinkLayerAddress := none
  deriving DecidableEq

namespace HostConfig

/-- The last request counts; one that is too long asks for nothing. -/
def withAddress (_ : HostConfig) (octets : List Byte) : HostConfig :=
  { address := LinkLayerAddress.ofOctets? octets }

end HostConfig

end EthernetMac
