import EthernetMac.Proofs.Address.Table
import EthernetMac.Proofs.Solo

namespace EthernetMac

open Program

def AddressHigh.unused : Field := ⟨16, 15, by decide⟩

namespace MacAddress

variable {a b : MacAddress} {on off : Bool}

theorem lowWord_ofWords (high low : Word) : (ofWords high low).lowWord = low := by
  have bytes := (@ofWords_eq_iff (ofWords high low) high low).mp rfl
  exact BitVec.eq_of_toNat_eq ((toNat_lowWord _).trans bytes.1.symm)

theorem highWord_ofWords (high low : Word) :
    (ofWords high low).highWord (AddressHigh.enable.test high) = AddressHigh.unused.set 0 high := by
  refine BitVec.eq_of_getLsbD_eq fun i inside => ?_
  have byte4 : (ofWords high low).b4.getLsbD i = (decide (i < 8) && high.getLsbD i) := by
    simp [ofWords, AddressHigh.byte4, Field.getLsbD_get]
  have byte5 : (ofWords high low).b5.getLsbD (i - 8) =
      (decide (i - 8 < 8) && high.getLsbD (8 + (i - 8))) := by
    simp [ofWords, AddressHigh.byte5, Field.getLsbD_get]
  have unused : AddressHigh.unused.Covers i ↔ 16 ≤ i ∧ i < 31 := .rfl
  rw [getLsbD_highWord, Field.getLsbD_set, byte4, byte5]
  simp only [unused]
  by_cases top : i = 31
  · subst top
    rfl
  · by_cases low : i < 8
    · simp [top, low, show ¬ 16 ≤ i by omega]
    · by_cases middle : i < 16
      · simp [top, low, middle, show ¬ 16 ≤ i by omega, show i - 8 < 8 by omega,
          show 8 + (i - 8) = i by omega]
      · simp [top, low, middle, show 16 ≤ i by omega, show i < 31 by omega]

theorem unused_highWord (a : MacAddress) (on : Bool) : AddressHigh.unused.get (a.highWord on) = 0 := by
  refine BitVec.eq_of_getLsbD_eq fun i _ => ?_
  rw [Field.getLsbD_get, getLsbD_highWord]
  by_cases inside : i < AddressHigh.unused.width
  · change i < 15 at inside
    simp [AddressHigh.unused, show ¬ 16 + i = 31 by omega, show ¬ 16 + i < 8 by omega,
      show ¬ 16 + i < 16 by omega]
  · simp [inside]

theorem words_inj (high : a.highWord on = b.highWord off) (low : a.lowWord = b.lowWord) :
    a = b ∧ on = off := by
  have address : ofWords (a.highWord on) a.lowWord = ofWords (b.highWord off) b.lowWord := by
    rw [high, low]
  have enable := congrArg AddressHigh.enable.test high
  rw [ofWords_words, ofWords_words] at address
  rw [enabled_highWord, enabled_highWord] at enable
  exact ⟨address, enable⟩

end MacAddress

/-- What a slot that was written holds, and that nothing else has changed. -/
structure SlotChange (slot : Nat) (a : MacAddress) (on : Bool) (before after : Nat → Word) : Prop where
  address : .ofWords (after (Register.addressHigh slot)) (after (Register.addressLow slot)) = a
  enabled : AddressHigh.enable.test (after (Register.addressHigh slot)) = on
  unused : AddressHigh.unused.get (after (Register.addressHigh slot)) = 0
  elsewhere : ∀ offset, offset ≠ Register.addressHigh slot → offset ≠ Register.addressLow slot →
    after offset = before offset

/-- Two writes make a slot what it is to be, whatever it held. -/
theorem slotChange_written (slot : Nat) (a : MacAddress) (on : Bool) (cell : Nat → Word) :
    SlotChange slot a on cell (written cell (writes (slotDeeds slot a on))) := by
  obtain ⟨high, low⟩ := @written_slot cell a on slot [] (List.forall_mem_nil _)
  rw [List.append_nil] at high low
  constructor
  case address => rw [high, low, MacAddress.ofWords_words]
  case enabled => rw [high, MacAddress.enabled_highWord]
  case unused => rw [high, MacAddress.unused_highWord]
  case elsewhere =>
    intro offset notHigh notLow
    refine written_of_apart fun write member => ?_
    rcases mem_slotDeeds member with same | same <;> rw [same]
    · exact notHigh
    · exact notLow

namespace Register

theorem addressHigh_eq (slot : Nat) : addressHigh slot = 0x300 + 8 * slot := by
  rw [addressHigh, addressTable, addressStride, Nat.mul_comm]

theorem addressLow_eq (slot : Nat) : addressLow slot = 0x304 + 8 * slot := by
  simp only [addressLow, addressTable, addressStride]
  omega

end Register

namespace RegisterFile

variable {f : RegisterFile} {slot offset : Nat}

def Keeps (f : RegisterFile) (offset : Nat) : Prop :=
  ∀ value, f.write? offset value = some (f.set offset value)

def Takes (f : RegisterFile) (slot : Nat) : Prop :=
  f.Keeps (Register.addressHigh slot) ∧ f.Keeps (Register.addressLow slot)

theorem keeps_iff :
    f.Keeps offset ↔ if f.backing = .device then offset ≠ Register.channelStatus else InWindow offset := by
  unfold Keeps write?
  cases f.backing with
  | memory =>
    rw [if_neg (nofun : Backing.memory ≠ .device)]
    by_cases inside : InWindow offset <;> simp [inside]
  | device =>
    rw [if_pos rfl]
    by_cases status : offset = Register.channelStatus
    · -- A one that is written clears its bit.
      refine iff_of_false (fun keeps => ?_) (not_not_intro status)
      have ones := congrArg (Option.map (cell · offset)) (keeps (.allOnes 32))
      simp [status] at ones
    · simp [status]

/-- Of all slots, one would lie on the channel status; memory ends with the window. -/
theorem takes_iff : f.Takes slot ↔ if f.backing = .device then slot ≠ 460 else slot < 480 := by
  unfold Takes
  rw [keeps_iff, keeps_iff, Register.addressHigh_eq, Register.addressLow_eq]
  split
  · simp only [Register.channelStatus]
    omega
  · simp only [InWindow, windowSize]
    omega

theorem Takes.congr {g : RegisterFile} (takes : f.Takes slot) (same : g.backing = f.backing) :
    g.Takes slot := by
  rw [takes_iff] at takes ⊢
  rwa [same]

def withSlot (f : RegisterFile) (slot : Nat) (a : MacAddress) (on : Bool) : RegisterFile :=
  (f.set (Register.addressHigh slot) (a.highWord on)).set (Register.addressLow slot) a.lowWord

theorem slotChange_withSlot (f : RegisterFile) (slot : Nat) (a : MacAddress) (on : Bool) :
    SlotChange slot a on f.cell (f.withSlot slot a on).cell :=
  slotChange_written slot a on f.cell

end RegisterFile

section Run

variable {s : Station} {slot : Nat} {a : MacAddress} {on : Bool}

theorem Station.perform_store_of_keeps {offset : Nat} (keeps : s.registers.Keeps offset) (value : Word) :
    s.perform (.store offset value) = .ok ((),
      { s with registers := s.registers.set offset value, trace := .write offset value :: s.trace }) := by
  simp only [perform_eq, apply, keeps value]
  rfl

theorem writeSlot_run (inside : slot < Register.slotLimit) (takes : s.registers.Takes slot)
    (a : MacAddress) (on : Bool) :
    ∃ after, (writeSlot slot a on).run s = (.ok (), after) ∧
      after.registers = s.registers.withSlot slot a on := by
  have shape : writeSlot slot a on =
      perform (.store (Register.addressHigh slot) (a.highWord on)) fun _ =>
        perform (.store (Register.addressLow slot) a.lowWord) fun _ => done () := by
    rw [writeSlot_of_lt inside]
    rfl
  have still : (s.registers.set (Register.addressHigh slot) (a.highWord on)).Takes slot :=
    takes.congr rfl
  rw [shape, run_performs (Station.perform_store_of_keeps takes.1 _),
    run_performs (Station.perform_store_of_keeps still.2 _)]
  exact ⟨_, rfl, rfl⟩

theorem readPermanent_run (s : Station) :
    ∃ after, readPermanent.run s = (.ok (s.registers.stored 0), after) := by
  have plain {offset : Nat} (inside : RegisterFile.InWindow offset)
      (status : offset ≠ Register.macPhyStatus) (mode : offset ≠ Register.dmaMode) (t : Station) :
      t.perform (.load offset) = .ok (t.registers.cell offset,
        { t with trace := .read offset (t.registers.cell offset) :: t.trace }) := by
    rw [Station.perform_load inside, RegisterFile.reading_of_ne _ status mode]
  have shape : readPermanent = perform (.load (Register.addressHigh 0)) fun high =>
      perform (.load (Register.addressLow 0)) fun low => done (.ofWords high low) := rfl
  rw [shape, run_performs (plain (by decide) (by decide) (by decide) s),
    run_performs (plain (by decide) (by decide) (by decide) _)]
  exact ⟨_, rfl⟩

end Run

/-- Slots of the address table, written and read back. -/
structure SlotRoundTrip : Prop where
  /-- The high word is written first. A slot that has no offset is not written. -/
  courses : ∀ slot a on, slot < Register.slotLimit → ∀ deeds,
    (writeSlot slot a on).Course deeds () ↔ deeds = slotDeeds slot a on
  beyond : ∀ slot a on, Register.slotLimit ≤ slot → writeSlot slot a on = fail .slotTooFar
  /-- In registers that hold what was written last there is no exception. -/
  changes : ∀ slot a on cell, SlotChange slot a on cell (written cell (writes (slotDeeds slot a on)))
  takes : ∀ (f : RegisterFile) slot,
    f.Takes slot ↔ if f.backing = .device then slot ≠ 460 else slot < 480
  runs : ∀ slot a on (s : Station), slot < Register.slotLimit → s.registers.Takes slot →
    ∃ after, (writeSlot slot a on).run s = (.ok (), after) ∧
      SlotChange slot a on s.registers.cell after.registers.cell
  permanent : ∀ a on (s : Station), ∃ wrote read, (writeSlot 0 a on).run s = (.ok (), wrote) ∧
    readPermanent.run wrote = (.ok a, read)
  repacked : ∀ high low, (MacAddress.ofWords high low).lowWord = low ∧
    (MacAddress.ofWords high low).highWord (AddressHigh.enable.test high) =
      AddressHigh.unused.set 0 high
  injective : ∀ (a b : MacAddress) on off,
    a.highWord on = b.highWord off → a.lowWord = b.lowWord → a = b ∧ on = off
  equal : ∀ {slot other a b on off before between after}, slot ≠ other →
    SlotChange slot a on before between → SlotChange other b off between after →
    (MacAddress.ofWords (after (Register.addressHigh slot)) (after (Register.addressLow slot)) =
        .ofWords (after (Register.addressHigh other)) (after (Register.addressLow other)) ↔ a = b)

/-- A slot that is written next leaves this one alone. -/
theorem SlotChange.kept {slot other : Nat} {a b : MacAddress} {on off : Bool}
    {before between after : Nat → Word} (apart : slot ≠ other)
    (first : SlotChange slot a on before between) (next : SlotChange other b off between after) :
    .ofWords (after (Register.addressHigh slot)) (after (Register.addressLow slot)) = a := by
  obtain ⟨highHigh, highLow, lowHigh, lowLow⟩ := Register.slots_apart apart
  rw [next.elsewhere _ highHigh highLow, next.elsewhere _ lowHigh lowLow, first.address]

theorem slots_roundTrip : SlotRoundTrip where
  courses slot a on inside deeds := by
    refine ⟨writeSlot_course inside, ?_⟩
    rintro rfl
    rw [writeSlot_of_lt inside]
    exact ⟨(), _, rfl, (), _, rfl, rfl, rfl⟩
  beyond slot a on beyond := if_neg (Nat.not_lt.mpr beyond)
  changes := slotChange_written
  takes _ _ := RegisterFile.takes_iff
  runs slot a on s inside takes := by
    obtain ⟨after, ran, registers⟩ := writeSlot_run inside takes a on
    exact ⟨after, ran, registers ▸ s.registers.slotChange_withSlot slot a on⟩
  permanent a on s := by
    have takes : s.registers.Takes 0 := RegisterFile.takes_iff.mpr (by split <;> decide)
    obtain ⟨wrote, ran, registers⟩ := writeSlot_run (by decide) takes a on
    obtain ⟨read, found⟩ := readPermanent_run wrote
    have address : wrote.registers.stored 0 = a := by
      rw [registers]
      exact (s.registers.slotChange_withSlot 0 a on).address
    exact ⟨wrote, read, ran, address ▸ found⟩
  repacked high low := ⟨MacAddress.lowWord_ofWords high low, MacAddress.highWord_ofWords high low⟩
  injective _ _ _ _ := MacAddress.words_inj
  equal apart first next := by
    rw [first.kept apart next, next.address]

end EthernetMac
