import EthernetMac.Address.LinkLayer
import EthernetMac.Program
import EthernetMac.Register.Map

namespace EthernetMac

namespace MacAddress

def lowWord (a : MacAddress) : Word := a.b3 ++ a.b2 ++ a.b1 ++ a.b0

def highWord (a : MacAddress) (enable : Bool) : Word :=
  AddressHigh.enable.assign enable (a.b4.setWidth 32 ||| a.b5.setWidth 32 <<< 8)

def ofWords (high low : Word) : MacAddress where
  b0 := (AddressLow.byte0.get low).setWidth 8
  b1 := (AddressLow.byte1.get low).setWidth 8
  b2 := (AddressLow.byte2.get low).setWidth 8
  b3 := (AddressLow.byte3.get low).setWidth 8
  b4 := (AddressHigh.byte4.get high).setWidth 8
  b5 := (AddressHigh.byte5.get high).setWidth 8

end MacAddress

open Program (act load store fail)

/-- The high word is written first. Nothing is written to a slot that has no offset. -/
def writeSlot (slot : Nat) (address : MacAddress) (enable : Bool) : Program Unit :=
  if slot < Register.slotLimit then do
    store (Register.addressHigh slot) (address.highWord enable)
    store (Register.addressLow slot) address.lowWord
  else fail .slotTooFar

/-- The slots that are written are those whose words both have a 64-bit offset. -/
theorem writeSlot_eq_ite (slot : Nat) (address : MacAddress) (enable : Bool) :
    writeSlot slot address enable =
      if Register.addressHigh slot < UInt64.size ∧ Register.addressLow slot < UInt64.size then do
        store (Register.addressHigh slot) (address.highWord enable)
        store (Register.addressLow slot) address.lowWord
      else fail .slotTooFar := by
  simp only [Register.addressHigh_lt_iff, Register.addressLow_lt_iff, and_self]
  rfl

theorem writeSlot_of_lt {slot : Nat} (inside : slot < Register.slotLimit) (address : MacAddress)
    (enable : Bool) :
    writeSlot slot address enable =
      (do store (Register.addressHigh slot) (address.highWord enable)
          store (Register.addressLow slot) address.lowWord) :=
  if_pos inside

def readPermanent : Program MacAddress := do
  let high ← load (Register.addressHigh 0)
  let low ← load (Register.addressLow 0)
  return .ofWords high low

def MacAddress.synthesizedPrefix : Vector Byte 2 := #v[0xF2, 0x00]

def MacAddress.synthesized (r : Vector Byte 4) : MacAddress :=
  ⟨synthesizedPrefix[0], synthesizedPrefix[1], r[0], r[1], r[2], r[3]⟩

def MacAddress.withoutGroupBit (a : MacAddress) : MacAddress := { a with b0 := a.b0 &&& ~~~1 }

/-- The address to receive on: the requested one if it is a station address, else the permanent
one, replaced or repaired if it is none. -/
def selectCurrent (requested : Option LinkLayerAddress) (permanent : MacAddress) :
    Program MacAddress :=
  match requested.bind LinkLayerAddress.station? with
  | some station => return station
  | none =>
    if permanent.isZero || permanent.isBroadcast then do
      let bytes ← act (.random 4)
      return .synthesized bytes
    else if permanent.isMulticast then
      return permanent.withoutGroupBit
    else
      return permanent

end EthernetMac
