import EthernetMac.Proofs.Address.Table

namespace EthernetMac

open Program

namespace FilterFlags

def packetFilter (flags : FilterFlags) : Word :=
  if flags.contains .promiscuous then MacPacketFilter.promiscuous.assign true 0
  else
    (0 : Word)
      |> MacPacketFilter.passAllMulticast.assign (flags.contains .allMulticast)
      |> MacPacketFilter.dropBroadcast.assign (!flags.contains .broadcast)

def entry (flags : FilterFlags) (multicast : List LinkLayerAddress) (slot : Nat) :
    Option MacAddress :=
  (if flags.contains .multicast then multicast else [])[slot - 1]?.bind LinkLayerAddress.ethernet?

end FilterFlags

def entryDeeds (slot : Nat) (entry : Option MacAddress) : List Deed :=
  slotDeeds slot (entry.getD .zero) entry.isSome

def tableDeeds (tableSize : Nat) (current : MacAddress) (flags : FilterFlags)
    (multicast : List LinkLayerAddress) : List Deed :=
  if flags.contains .promiscuous then []
  else slotDeeds 0 current (flags.contains .directed) ++
    (List.range' 1 (tableSize - 1)).flatMap fun slot =>
      entryDeeds slot (flags.entry multicast slot)

def filterDeeds (tableSize : Nat) (current : MacAddress) (flags : FilterFlags)
    (multicast : List LinkLayerAddress) : List Deed :=
  tableDeeds tableSize current flags multicast ++
    [⟨.store Register.macPacketFilter flags.packetFilter, ()⟩]

theorem course_forM {α : Type} {items : List α} {body : α → Program Unit} {deeds : List Deed}
    {result : Unit} (does : α → List Deed)
    (rounds : ∀ item ∈ items, ∀ deeds result, (body item).Course deeds result → deeds = does item)
    (course : (items.forM body).Course deeds result) : deeds = items.flatMap does := by
  induction items generalizing deeds with
  | nil => exact course.1
  | cons item items ih =>
    obtain ⟨now, later⟩ := List.forall_mem_cons.mp rounds
    obtain ⟨first, _, rest, rfl, round, onward⟩ := (course_bind (body item) _ _).mp course
    rw [now _ _ round, ih later onward, List.flatMap_cons]

theorem writeEntry_course {slot : Nat} {entry : Option MacAddress} {deeds : List Deed} {result : Unit}
    (inside : slot < Register.slotLimit) (course : (writeEntry slot entry).Course deeds result) :
    deeds = entryDeeds slot entry := by
  cases entry <;> exact writeSlot_course inside course

theorem applyFilter_course {tableSize : Nat} {current : MacAddress} {flags : FilterFlags}
    {multicast : List LinkLayerAddress} {deeds : List Deed} {result : Unit}
    (fits : tableSize ≤ Register.slotLimit)
    (course : (applyFilter tableSize current flags multicast).Course deeds result) :
    deeds = filterDeeds tableSize current flags multicast := by
  unfold applyFilter at course
  unfold filterDeeds tableDeeds FilterFlags.packetFilter
  split at course
  · rename_i promiscuous
    obtain ⟨_, _, rfl, rfl, _⟩ := course
    rw [if_pos promiscuous, if_pos promiscuous]
    rfl
  · rename_i selective
    rw [if_neg selective, if_neg selective]
    obtain ⟨first, _, _, rfl, station, course⟩ := (course_bind (writeSlot 0 _ _) _ _).mp course
    obtain ⟨entries, _, _, rfl, loop, _, _, rfl, rfl, _⟩ := (course_bind _ _ _).mp course
    have table := course_forM (fun slot => entryDeeds slot (flags.entry multicast slot))
      (fun slot member deeds result round => writeEntry_course
        (by have bounds := List.mem_range'_1.mp member; omega) round) loop
    rw [writeSlot_course (by decide) station, table, List.append_assoc]

theorem word_apart {slot other offset : Nat} (apart : slot ≠ other)
    (same : offset = Register.addressHigh other ∨ offset = Register.addressLow other) :
    Register.addressHigh slot ≠ offset ∧ Register.addressLow slot ≠ offset := by
  obtain ⟨highs, highLow, lowHigh, lows⟩ := Register.slots_apart apart
  rcases same with same | same <;> rw [same]
  · exact ⟨highs, lowHigh⟩
  · exact ⟨highLow, lows⟩

section Entries

variable {slots : List Nat} (entry : Nat → Option MacAddress)

theorem mem_entries {write : Nat × Word}
    (member : write ∈ writes (slots.flatMap fun slot => entryDeeds slot (entry slot))) :
    ∃ slot ∈ slots, write.1 = Register.addressHigh slot ∨ write.1 = Register.addressLow slot := by
  induction slots with
  | nil => cases member
  | cons first slots ih =>
    rw [List.flatMap_cons, writes_append] at member
    rcases List.mem_append.mp member with member | member
    · exact ⟨first, .head _, mem_slotDeeds member⟩
    · obtain ⟨slot, member, same⟩ := ih member
      exact ⟨slot, .tail _ member, same⟩

/-- After a loop over different slots each of them holds its entry. -/
theorem written_entries {cell : Nat → Word} (distinct : slots.Nodup) {slot : Nat}
    (member : slot ∈ slots) :
    written cell (writes (slots.flatMap fun slot => entryDeeds slot (entry slot)))
        (Register.addressHigh slot) = ((entry slot).getD .zero).highWord (entry slot).isSome ∧
      written cell (writes (slots.flatMap fun slot => entryDeeds slot (entry slot)))
        (Register.addressLow slot) = ((entry slot).getD .zero).lowWord := by
  -- The slots are different, so what comes before and after the round for a slot does not matter.
  induction slots generalizing cell with
  | nil => cases member
  | cons first slots ih =>
    obtain ⟨fresh, distinct⟩ := List.nodup_cons.mp distinct
    rw [List.flatMap_cons, writes_append]
    rcases List.mem_cons.mp member with rfl | member
    · refine written_slot fun write written => ?_
      obtain ⟨other, member, same⟩ := mem_entries entry written
      exact word_apart (by rintro rfl; exact fresh member) same
    · rw [written_append]
      exact ih distinct member

end Entries

/-- No slot beyond the table is written. -/
theorem mem_table {tableSize : Nat} {current : MacAddress} {flags : FilterFlags}
    {multicast : List LinkLayerAddress} {write : Nat × Word}
    (member : write ∈ writes (tableDeeds tableSize current flags multicast)) :
    ∃ slot < max 1 tableSize,
      write.1 = Register.addressHigh slot ∨ write.1 = Register.addressLow slot := by
  unfold tableDeeds at member
  split at member
  · cases member
  · rw [writes_append] at member
    rcases List.mem_append.mp member with member | member
    · exact ⟨0, by omega, mem_slotDeeds member⟩
    · obtain ⟨slot, member, same⟩ := mem_entries (flags.entry multicast) member
      have bounds := List.mem_range'_1.mp member
      exact ⟨slot, by omega, same⟩

def RegisterFile.SameSlot (f g : RegisterFile) (slot : Nat) : Prop :=
  f.cell (Register.addressHigh slot) = g.cell (Register.addressHigh slot) ∧
    f.cell (Register.addressLow slot) = g.cell (Register.addressLow slot)

theorem RegisterFile.SameSlot.holds {f g : RegisterFile} {slot : Nat} {address : MacAddress}
    {on : Bool} (same : f.SameSlot g slot) (holds : g.Holds slot address on) :
    f.Holds slot address on :=
  ⟨same.1.trans holds.1, same.2.trans holds.2⟩

theorem RegisterFile.SameSlot.trans {f g h : RegisterFile} {slot : Nat} (first : f.SameSlot g slot)
    (second : g.SameSlot h slot) : f.SameSlot h slot :=
  ⟨first.1.trans second.1, first.2.trans second.2⟩

/-- What a filter request has made of the registers. -/
structure Programmed (tableSize : Nat) (current : MacAddress) (flags : FilterFlags)
    (multicast : List LinkLayerAddress) (before after : RegisterFile) : Prop where
  packet : after.cell Register.macPacketFilter = flags.packetFilter
  spared : flags.contains .promiscuous = true →
    ∀ slot < Register.tableSlots, after.SameSlot before slot
  station : flags.contains .promiscuous = false →
    after.Holds 0 current (flags.contains .directed)
  entries : flags.contains .promiscuous = false → ∀ slot, 0 < slot → slot < tableSize →
    after.Holds slot ((flags.entry multicast slot).getD .zero) (flags.entry multicast slot).isSome
  beyond : ∀ slot, max 1 tableSize ≤ slot → slot < Register.tableSlots → after.SameSlot before slot

theorem filterDeeds_programmed {tableSize : Nat} {current : MacAddress} {flags : FilterFlags}
    {multicast : List LinkLayerAddress} {before after : RegisterFile}
    (fits : tableSize ≤ Register.tableSlots)
    (cells : ∀ offset, Register.Filtering offset → after.cell offset =
      written before.cell (writes (filterDeeds tableSize current flags multicast)) offset) :
    Programmed tableSize current flags multicast before after := by
  have whole (offset : Nat) (inside : Register.Filtering offset) : after.cell offset =
      put (written before.cell (writes (tableDeeds tableSize current flags multicast)))
        (Register.macPacketFilter, flags.packetFilter) offset := by
    rw [cells offset inside, filterDeeds, writes_append, written_append]
    rfl
  have high (slot : Nat) (inside : slot < Register.tableSlots) :
      after.cell (Register.addressHigh slot) = written before.cell
        (writes (tableDeeds tableSize current flags multicast)) (Register.addressHigh slot) :=
    (whole _ (Register.filtering_slot slot inside).1).trans (put_of_ne (Register.words_apart slot).2.1)
  have low (slot : Nat) (inside : slot < Register.tableSlots) :
      after.cell (Register.addressLow slot) = written before.cell
        (writes (tableDeeds tableSize current flags multicast)) (Register.addressLow slot) :=
    (whole _ (Register.filtering_slot slot inside).2).trans (put_of_ne (Register.words_apart slot).2.2)
  refine ⟨(whole _ (.inl rfl)).trans (put_self _ _), ?spared, ?station, ?entries, ?beyond⟩
  case spared =>
    intro promiscuous slot inside
    have nothing : tableDeeds tableSize current flags multicast = [] := if_pos promiscuous
    rw [RegisterFile.SameSlot, high slot inside, low slot inside, nothing]
    exact ⟨rfl, rfl⟩
  case station =>
    intro selective
    have slots : tableDeeds tableSize current flags multicast =
        slotDeeds 0 current (flags.contains .directed) ++ _ := if_neg (by simp [selective])
    rw [RegisterFile.Holds, high 0 (by decide), low 0 (by decide), slots, writes_append]
    refine written_slot fun write member => ?_
    obtain ⟨slot, member, same⟩ := mem_entries (flags.entry multicast) member
    have later : 0 ≠ slot := by
      have bounds := List.mem_range'_1.mp member
      omega
    exact word_apart later same
  case entries =>
    intro selective slot positive inside
    have slots : tableDeeds tableSize current flags multicast =
        slotDeeds 0 current (flags.contains .directed) ++ _ := if_neg (by simp [selective])
    have member : slot ∈ List.range' 1 (tableSize - 1) := List.mem_range'_1.mpr (by omega)
    rw [RegisterFile.Holds, high slot (by omega), low slot (by omega), slots, writes_append,
      written_append]
    exact written_entries _ List.nodup_range' member
  case beyond =>
    intro slot above inside
    have apart (write : Nat × Word)
        (member : write ∈ writes (tableDeeds tableSize current flags multicast)) :
        Register.addressHigh slot ≠ write.1 ∧ Register.addressLow slot ≠ write.1 := by
      obtain ⟨other, below, same⟩ := mem_table member
      exact word_apart (by omega) same
    rw [RegisterFile.SameSlot, high slot inside, low slot inside,
      written_of_apart fun write member => (apart write member).1,
      written_of_apart fun write member => (apart write member).2]
    exact ⟨rfl, rfl⟩

end EthernetMac
