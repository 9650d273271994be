import EthernetMac.Register.Field

namespace EthernetMac

structure MacAddress where
  b0 : Byte
  b1 : Byte
  b2 : Byte
  b3 : Byte
  b4 : Byte
  b5 : Byte
  deriving DecidableEq

namespace MacAddress

def size : Nat := 6

def zero : MacAddress := ⟨0, 0, 0, 0, 0, 0⟩

def broadcast : MacAddress := ⟨0xFF, 0xFF, 0xFF, 0xFF, 0xFF, 0xFF⟩

instance : Inhabited MacAddress := ⟨zero⟩

def octets (a : MacAddress) : List Byte := [a.b0, a.b1, a.b2, a.b3, a.b4, a.b5]

def ofOctets? : List Byte → Option MacAddress
  | [b0, b1, b2, b3, b4, b5] => some ⟨b0, b1, b2, b3, b4, b5⟩
  | _ => none

def isMulticast (a : MacAddress) : Bool := a.b0.getLsbD 0

def isLocal (a : MacAddress) : Bool := a.b0.getLsbD 1

def isBroadcast (a : MacAddress) : Bool := a == broadcast

def isZero (a : MacAddress) : Bool := a == zero

end MacAddress

end EthernetMac
