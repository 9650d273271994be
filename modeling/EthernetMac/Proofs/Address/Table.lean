import EthernetMac.Proofs.Address.Words
import EthernetMac.Proofs.Call

/-! The registers that decide what is received. Of the operations in service only a filter request
writes them. -/

namespace EthernetMac

open Program

namespace Register

def Filtering (offset : Nat) : Prop :=
  offset = macPacketFilter ∨ addressTable ≤ offset ∧ offset < mmcControl

instance (offset : Nat) : Decidable (Filtering offset) := inferInstanceAs (Decidable (_ ∨ _))

/-- How many slots fit between the address table and what comes after it. -/
def tableSlots : Nat := (mmcControl - addressTable) / addressStride

theorem filtering_settles : Settles Filtering := by
  rintro offset (rfl | ⟨_, below⟩)
  · decide
  · simp only [mmcControl] at below
    refine ⟨?_, ?_, ?_⟩ <;> simp only [dmaMode, macInterruptStatus, channelStatus] <;>
      rintro rfl <;> simp_all [addressTable]

theorem addressCount_le (f : Features) : f.addressCount ≤ tableSlots := by
  have few := f.addressCount_lt
  have slots : tableSlots = 128 := rfl
  omega

theorem tableSlots_le : tableSlots ≤ slotLimit := by decide

theorem filtering_slot (slot : Nat) (inside : slot < tableSlots) :
    Filtering (addressHigh slot) ∧ Filtering (addressLow slot) := by
  simp only [tableSlots, Filtering, addressHigh, addressLow, addressTable, addressStride,
    mmcControl] at *
  omega

/-- What decides nothing about reception is no word of a slot. -/
theorem slot_apart {offset slot : Nat} (outside : ¬ Filtering offset) (inside : slot < tableSlots) :
    offset ≠ addressHigh slot ∧ offset ≠ addressLow slot := by
  obtain ⟨high, low⟩ := filtering_slot slot inside
  constructor
  · rintro rfl
    exact outside high
  · rintro rfl
    exact outside low

theorem slots_apart {slot other : Nat} (apart : slot ≠ other) :
    addressHigh slot ≠ addressHigh other ∧ addressHigh slot ≠ addressLow other ∧
      addressLow slot ≠ addressHigh other ∧ addressLow slot ≠ addressLow other := by
  simp only [addressHigh, addressLow, addressStride]
  omega

theorem words_apart (slot : Nat) : addressHigh slot ≠ addressLow slot ∧
    addressHigh slot ≠ macPacketFilter ∧ addressLow slot ≠ macPacketFilter := by
  simp only [addressHigh, addressLow, addressTable, macPacketFilter]
  omega

end Register

def slotDeeds (slot : Nat) (address : MacAddress) (on : Bool) : List Deed :=
  [⟨.store (Register.addressHigh slot) (address.highWord on), ()⟩,
    ⟨.store (Register.addressLow slot) address.lowWord, ()⟩]

theorem writes_slotDeeds (slot : Nat) (address : MacAddress) (on : Bool) :
    writes (slotDeeds slot address on) = [(Register.addressHigh slot, address.highWord on),
      (Register.addressLow slot, address.lowWord)] :=
  rfl

theorem mem_slotDeeds {slot : Nat} {address : MacAddress} {on : Bool} {write : Nat × Word}
    (member : write ∈ writes (slotDeeds slot address on)) :
    write.1 = Register.addressHigh slot ∨ write.1 = Register.addressLow slot := by
  rcases List.mem_cons.mp member with rfl | member
  · exact .inl rfl
  · exact .inr (congrArg Prod.fst (List.mem_singleton.mp member))

theorem writeSlot_course {slot : Nat} {address : MacAddress} {on : Bool} {deeds : List Deed}
    {result : Unit} (inside : slot < Register.slotLimit)
    (course : (writeSlot slot address on).Course deeds result) :
    deeds = slotDeeds slot address on := by
  rw [writeSlot_of_lt inside] at course
  obtain ⟨_, _, rfl, _, _, rfl, rfl, _⟩ := course
  rfl

section Slot

variable {cell : Nat → Word} {address : MacAddress} {on : Bool} {slot : Nat}
  {earlier later : List (Nat × Word)}

theorem written_slot (apart : ∀ write ∈ later,
    Register.addressHigh slot ≠ write.1 ∧ Register.addressLow slot ≠ write.1) :
    written cell (writes (slotDeeds slot address on) ++ later) (Register.addressHigh slot) =
        address.highWord on ∧
      written cell (writes (slotDeeds slot address on) ++ later) (Register.addressLow slot) =
        address.lowWord := by
  have words := (Register.words_apart slot).1
  rw [written_append, written_of_apart fun write member => (apart write member).1,
    written_of_apart fun write member => (apart write member).2, writes_slotDeeds]
  exact ⟨(put_of_ne words).trans (put_self _ _), put_self _ _⟩

theorem RegisterFile.holds_of_written {f : RegisterFile} (inside : slot < Register.tableSlots)
    (cells : ∀ offset, Register.Filtering offset → f.cell offset =
      written cell (earlier ++ (writes (slotDeeds slot address on) ++ later)) offset)
    (apart : ∀ write ∈ later,
      Register.addressHigh slot ≠ write.1 ∧ Register.addressLow slot ≠ write.1) :
    f.Holds slot address on := by
  obtain ⟨high, low⟩ := Register.filtering_slot slot inside
  rw [Holds, cells _ high, cells _ low, written_append]
  exact written_slot apart

end Slot

namespace Operation

def Aside : Operation → Prop
  | prepare _ _ | release | filter _ _ => False
  | write offset _ => ¬ Register.Filtering offset
  | _ => True

theorem Aside.inService {op : Operation} (aside : op.Aside) : op.InService := by
  cases op <;> first | exact aside.elim | trivial

end Operation

abbrev Effect.KeepsFilter (e : Effect) : Prop := e.Spares Register.Filtering

theorem keepsFilter_of_section (e : Effect) (inside : sectionActions e) : e.KeepsFilter := by
  cases e with
  | store offset value =>
    rcases inside with rfl | rfl
    · exact (by decide : ¬ Register.Filtering Register.macInterruptEnable)
    · exact (by decide : ¬ Register.Filtering Register.channelInterruptEnable)
  | _ => first | exact inside.elim | trivial

theorem keepsFilter_of_serve (e : Effect) (inside : serveActions e) : e.KeepsFilter := by
  cases e with
  | store offset value =>
    cases inside
    exact (by decide : ¬ Register.Filtering Register.macConfiguration)
  | _ => first | exact inside.elim | trivial

theorem keepsFilter_of_handler (e : Effect) (inside : handlerActions e) : e.KeepsFilter := by
  cases e with
  | store offset value =>
    cases inside
    exact (by decide : ¬ Register.Filtering Register.channelStatus)
  | _ => first | exact inside.elim | trivial

namespace Adapter

theorem enterWorking_keepsFilter (a : Adapter) : a.enterWorking.Only Effect.KeepsFilter := by
  refine a.enterWorking_only.mono fun e inside => ?_
  cases e with
  | store offset value =>
    have apart : ∀ offset ∈ Register.macConfiguration :: Register.channelStatus :: Working.setUp,
        ¬ Register.Filtering offset := by decide
    rcases inside with power | mask
    · exact apart offset power
    · exact keepsFilter_of_section _ (sectionActions_of_mask _ mask)
  | attach | detach => exact inside.elim
  | _ => trivial

theorem leaveWorking_keepsFilter : leaveWorking.Only Effect.KeepsFilter := by
  refine leaveWorking_only.mono fun e inside => ?_
  cases e with
  | store offset value =>
    rcases inside with rfl | mask
    · exact (by decide : ¬ Register.Filtering Register.macConfiguration)
    · exact keepsFilter_of_section _ (sectionActions_of_mask _ mask)
  | attach | detach => exact inside.elim
  | _ => trivial

end Adapter

/-- An operation that is aside writes none of the registers that decide what is received. -/
theorem Operation.Aside.only {op : Operation} (aside : op.Aside) (target : Target) :
    (op.task target).Only Effect.KeepsFilter := by
  have once {α : Type} {p : Program α} {answer : α → Answer} (only : p.Only Effect.KeepsFilter) :
      (Task.once p answer).Only Effect.KeepsFilter :=
    only.bind fun _ => .pure _
  have work := op.work aside.inService target
  generalize op.task target = task at work
  cases work with
  | nothing => exact .pure _
  | read | load | wanted => exact once (Only.act trivial)
  | write offset value => exact once (.store aside)
  | statistics =>
    refine once (readStatistics_only.mono fun e inside => ?_)
    cases e <;> first | exact inside.elim | trivial
  | filter => exact aside.elim
  | enterWorking a => exact once a.enterWorking_keepsFilter
  | leaveWorking => exact once Adapter.leaveWorking_keepsFilter
  | register direction queue =>
    exact once ((Interrupt.register_only direction queue).mono keepsFilter_of_section)
  | enable bits => exact once ((Interrupt.enable_only bits).mono keepsFilter_of_section)
  | disable bits => exact once ((Interrupt.disable_only bits).mono keepsFilter_of_section)
  | interrupt => exact once (Interrupt.handle_only.mono keepsFilter_of_handler)
  | deferred linkChange either =>
    have serve (causes : Causes) : (Interrupt.serve linkChange causes).Only Effect.KeepsFilter :=
      Interrupt.serve_obeys either (fun e inside => ⟨keepsFilter_of_serve e inside, fun _ => rfl⟩)
        trivial (Only.onlyIf ((Interrupt.serveQueues_only causes).mono keepsFilter_of_section))
    refine Only.bind (Only.bind (Only.act trivial) fun word => ?_) fun round => ?_
    · exact .ite (.pure _) ((serve _).bind fun _ => .pure _)
    · cases round <;> exact .pure _
  | describe a =>
    exact Only.bind (.act trivial) fun _ => Only.bind (.act trivial) fun _ => .pure _

theorem Station.meet_filtering {s : Station} {step : Step}
    (outside : ∀ offset value, step = .set offset value → ¬ Register.Filtering offset) {offset : Nat}
    (inside : Register.Filtering offset) :
    (s.meet step).registers.cell offset = s.registers.cell offset := by
  obtain ⟨_, latch, status⟩ := Register.filtering_settles offset inside
  cases step with
  | set other value =>
    refine RegisterFile.cell_set_of_ne _ _ ?_
    rintro rfl
    exact outside _ _ rfl inside
  | raiseChannel bits => exact RegisterFile.cell_set_of_ne _ _ status
  | raiseLink => exact RegisterFile.cell_set_of_ne _ _ latch
  | _ => rfl

end EthernetMac
