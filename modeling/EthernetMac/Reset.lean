import EthernetMac.Address.Table

namespace EthernetMac

open Program (act load store)

namespace Reset

def maxPolls : Nat := 1000

def pollInterval : Nat := 20

/-- Polls at most `left` more times, `used` polls having been made. On success the first slot of
the address table takes `station`. -/
def await (station : MacAddress) (used : Nat) : (left : Nat) → Program (Except IoError Nat)
  | 0 => return .error .timeout
  | left + 1 => do
    act (.delay pollInterval)
    let mode ← load Register.dmaMode
    if DmaMode.softwareReset.test mode then
      await station (used + 1) left
    else do
      writeSlot 0 station true
      return .ok (used + 1)

end Reset

def softReset (station : MacAddress) : Program (Except IoError Nat) := do
  store Register.dmaMode (DmaMode.softwareReset.assign true 0)
  Reset.await station 0 Reset.maxPolls

end EthernetMac
