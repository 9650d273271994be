import EthernetMac.Capabilities
import EthernetMac.Interrupt.Mask

namespace EthernetMac

namespace Text

def record (name : String) (fields : List (String × String)) : String :=
  name ++ " \x7b " ++ ", ".intercalate (fields.map fun (field, text) => field ++ ": " ++ text)
    ++ " \x7d"

def wrapped (name text : String) : String := name ++ "(" ++ text ++ ")"

def word (name : String) (w : Word) : String := wrapped name (toString w.toNat)

def list (items : List String) : String := "[" ++ ", ".intercalate items ++ "]"

end Text

open Text

def MacAddress.text (a : MacAddress) : String :=
  wrapped "MacAddress" (list (a.octets.map fun byte => toString byte.toNat))

def Features.text (f : Features) : String :=
  record "FeatureCaps"
    [ ("version", word "MacVersion" f.version),
      ("feature0", word "MacHwFeature0" f.feature0),
      ("feature1", word "MacHwFeature1" f.feature1),
      ("feature2", toString f.feature2.toNat),
      ("feature3", toString f.feature3.toNat) ]

def DmaCapability.text (d : DmaCapability) : String :=
  record "DmaCapabilities"
    [("width", d.width.label), ("maximum_physical_address", toString d.maxAddress)]

namespace Adapter

def text (a : Adapter) (wanted : InterruptMask) (active : Bool) : String :=
  record "Device"
    [ ("interrupt", record "InterruptLine" [("vector", toString a.line)]),
      ("features", a.features.text),
      ("dma", a.dma.text),
      ("permanent_address", a.permanent.text),
      ("current_address", a.current.text),
      ("wanted", wrapped "Interrupts" (toString wanted.bits)),
      ("active", toString active) ]

end Adapter

end EthernetMac
