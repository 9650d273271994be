import EthernetMac.Register.Field

namespace EthernetMac

inductive Counter where
  | handled
  | ignored
  | linkChange
  | receive
  | transmit
  | abnormal
  | fatal
  deriving DecidableEq, Repr

/-- Each count is kept modulo 2 to the 32. -/
abbrev Counters := Counter → Word

namespace Counters

def zero : Counters := fun _ => 0

def bump (counters : Counters) (c : Counter) : Counters :=
  fun d => if d = c then counters d + 1 else counters d

def toList (counters : Counters) : List Word :=
  [counters .handled, counters .ignored, counters .linkChange, counters .receive,
    counters .transmit, counters .abnormal, counters .fatal]

end Counters

end EthernetMac
