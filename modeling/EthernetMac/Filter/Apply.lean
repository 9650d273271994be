import EthernetMac.Address.Table
import EthernetMac.Features

namespace EthernetMac

open Program (store)

def writeEntry (slot : Nat) : Option MacAddress → Program Unit
  | some address => writeSlot slot address true
  | none => writeSlot slot .zero false

/-- The first slot takes the station address, the others the multicast list in order. An entry
shorter than a station address leaves its slot cleared. Promiscuous reception needs no table. -/
def applyFilter (tableSize : Nat) (current : MacAddress) (flags : FilterFlags)
    (multicast : List LinkLayerAddress) : Program Unit :=
  if flags.contains .promiscuous then
    store Register.macPacketFilter (MacPacketFilter.promiscuous.assign true 0)
  else do
    let entries := if flags.contains .multicast then multicast else []
    writeSlot 0 current (flags.contains .directed)
    (List.range' 1 (tableSize - 1)).forM fun slot =>
      writeEntry slot (entries[slot - 1]?.bind LinkLayerAddress.ethernet?)
    store Register.macPacketFilter <|
      (0 : Word)
        |> MacPacketFilter.passAllMulticast.assign (flags.contains .allMulticast)
        |> MacPacketFilter.dropBroadcast.assign (!flags.contains .broadcast)

end EthernetMac
