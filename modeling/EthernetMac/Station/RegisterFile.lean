import EthernetMac.Register.Layout
import EthernetMac.Register.Map

namespace EthernetMac

inductive Backing where
  /-- Acknowledgements, reset and status bits act as in the device. -/
  | device
  /-- Plain storage that refuses accesses outside the window or between registers. -/
  | memory
  deriving DecidableEq, Repr

structure RegisterFile where
  cell : Nat → Word
  /-- Polls that still find the reset in progress. -/
  busy : Nat := 0
  backing : Backing := .device

namespace RegisterFile

def set (f : RegisterFile) (offset : Nat) (value : Word) : RegisterFile :=
  { f with cell := fun other => if other = offset then value else f.cell other }

theorem cell_set (f : RegisterFile) (offset : Nat) (value : Word) (other : Nat) :
    (f.set offset value).cell other = if other = offset then value else f.cell other := rfl

@[simp] theorem cell_set_self (f : RegisterFile) (offset : Nat) (value : Word) :
    (f.set offset value).cell offset = value := by
  simp [cell_set]

theorem cell_set_of_ne (f : RegisterFile) {offset other : Nat} (value : Word)
    (apart : other ≠ offset) : (f.set offset value).cell other = f.cell other := by
  simp [cell_set, apart]

def preset (f : RegisterFile) (contents : List (Nat × Word)) : RegisterFile :=
  contents.foldl (fun f (offset, value) => f.set offset value) f

def InWindow (offset : Nat) : Prop := offset < windowSize ∧ offset % 4 = 0

instance (offset : Nat) : Decidable (InWindow offset) := inferInstanceAs (Decidable (_ ∧ _))

def acknowledgeLink (f : RegisterFile) : RegisterFile :=
  f.set Register.macInterruptStatus
    (MacInterruptStatus.linkStatus.assign false (f.cell Register.macInterruptStatus))

/-- Reading the mode register while a reset is in progress brings the reset forward. -/
def advanceReset (f : RegisterFile) : RegisterFile :=
  let mode := f.cell Register.dmaMode
  if DmaMode.softwareReset.test mode then
    if 0 < f.busy then { f with busy := f.busy - 1 }
    else f.set Register.dmaMode (DmaMode.softwareReset.assign false mode)
  else f

def afterRead (f : RegisterFile) (offset : Nat) : RegisterFile :=
  if offset = Register.macPhyStatus then f.acknowledgeLink
  else if offset = Register.dmaMode then f.advanceReset
  else f

def read? (f : RegisterFile) (offset : Nat) : Option (Word × RegisterFile) :=
  match f.backing with
  | .memory => if InWindow offset then some (f.cell offset, f) else none
  | .device =>
    let after := f.afterRead offset
    some (after.cell offset, after)

def write? (f : RegisterFile) (offset : Nat) (value : Word) : Option RegisterFile :=
  match f.backing with
  | .memory => if InWindow offset then some (f.set offset value) else none
  | .device =>
    if offset = Register.channelStatus then some (f.set offset (f.cell offset &&& ~~~value))
    else some (f.set offset value)

def raiseChannel (f : RegisterFile) (bits : Word) : RegisterFile :=
  f.set Register.channelStatus (f.cell Register.channelStatus ||| bits)

def raiseLink (f : RegisterFile) : RegisterFile :=
  f.set Register.macInterruptStatus
    (MacInterruptStatus.linkStatus.assign true (f.cell Register.macInterruptStatus))

end RegisterFile

end EthernetMac
