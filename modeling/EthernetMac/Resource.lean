import EthernetMac.Program
import EthernetMac.Register.Map

namespace EthernetMac

open Program (act)

inductive Resource where
  | memory (start length : Nat)
  | interrupt (vector : Nat)
  | other (code : Nat)
  deriving DecidableEq, Repr

structure Survey where
  mapped : Bool := false
  sawSmallWindow : Bool := false
  line : Option Nat := none
  deriving DecidableEq, Repr

namespace Survey

/-- The window comes first: without one, a missing interrupt line is not reported. -/
def conclude (s : Survey) : Program (Except ConfigError Nat) :=
  if s.mapped then
    match s.line with
    | some line => return .ok line
    | none => do
      act .unmap
      return .error .noInterrupt
  else if s.sawSmallWindow then return .error .registerWindowTooSmall
  else return .error .noRegisterWindow

def scan (s : Survey) : List Resource → Program (Except ConfigError Nat)
  | [] => s.conclude
  | .memory start length :: rest =>
    if s.mapped then s.scan rest
    else if length < windowSize then scan { s with sawSmallWindow := true } rest
    else do
      if ← act (.map start windowSize) then scan { s with mapped := true } rest
      else return .error .mapFailed
  | .interrupt vector :: rest => scan { s with line := s.line.or (some vector) } rest
  | .other _ :: rest => s.scan rest

end Survey

/-- Maps the register window and answers the interrupt line. On an error no window stays mapped. -/
def scanResources (resources : List Resource) : Program (Except ConfigError Nat) :=
  Survey.scan {} resources

end EthernetMac
