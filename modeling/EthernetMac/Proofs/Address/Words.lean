import EthernetMac.Address.Table
import EthernetMac.Station.RegisterFile

namespace EthernetMac

namespace MacAddress

theorem getLsbD_highWord (a : MacAddress) (on : Bool) (i : Nat) :
    (a.highWord on).getLsbD i =
      if i = 31 then on
      else if i < 8 then a.b4.getLsbD i
      else if i < 16 then a.b5.getLsbD (i - 8)
      else false := by
  rw [highWord, Field.getLsbD_assign]
  by_cases top : i = 31
  · subst top
    simp [AddressHigh.enable, Field.flag, Field.Covers]
  · have outside : ¬ AddressHigh.enable.Covers i := by
      simp only [AddressHigh.enable, Field.flag, Field.Covers]
      omega
    rw [if_neg outside, if_neg top]
    simp only [BitVec.getLsbD_or, BitVec.getLsbD_shiftLeft, BitVec.getLsbD_setWidth]
    by_cases low : i < 8
    · simp [low, show i < 32 by omega]
    · by_cases middle : i < 16
      · simp [low, middle, show i < 32 by omega, show i - 8 < 32 by omega,
          BitVec.getLsbD_of_ge a.b4 i (by omega)]
      · simp [low, middle, BitVec.getLsbD_of_ge a.b4 i (by omega),
          BitVec.getLsbD_of_ge a.b5 (i - 8) (by omega)]

theorem getLsbD_lowWord (a : MacAddress) (i : Nat) :
    a.lowWord.getLsbD i =
      if i < 8 then a.b0.getLsbD i
      else if i < 16 then a.b1.getLsbD (i - 8)
      else if i < 24 then a.b2.getLsbD (i - 16)
      else a.b3.getLsbD (i - 24) := by
  simp only [lowWord, BitVec.getLsbD_append]
  by_cases first : i < 8
  · simp [first]
  · by_cases second : i < 16
    · simp [first, second, show i - 8 < 8 by omega]
    · by_cases third : i < 24
      · simp [first, second, third, show ¬ i - 8 < 8 by omega, show i - 8 - 8 = i - 16 by omega,
          show i - 16 < 8 by omega]
      · simp [first, second, third, show ¬ i - 8 < 8 by omega, show i - 8 - 8 = i - 16 by omega,
          show ¬ i - 16 < 8 by omega, show i - 16 - 8 = i - 24 by omega]

theorem eq_byte {f : Field} (wide : f.width = 8) {word : Word} {byte : Byte}
    (bits : ∀ i < 8, word.getLsbD (f.low + i) = byte.getLsbD i) :
    (f.get word).setWidth 8 = byte := by
  refine BitVec.eq_of_getLsbD_eq fun i inside => ?_
  rw [BitVec.getLsbD_setWidth, Field.getLsbD_get, wide, bits i inside]
  simp [inside]

@[simp] theorem ofWords_words (a : MacAddress) (on : Bool) :
    ofWords (a.highWord on) a.lowWord = a := by
  have b0 : (AddressLow.byte0.get a.lowWord).setWidth 8 = a.b0 :=
    eq_byte rfl fun i inside => by
      rw [getLsbD_lowWord]
      simp [AddressLow.byte0, inside]
  have b1 : (AddressLow.byte1.get a.lowWord).setWidth 8 = a.b1 :=
    eq_byte rfl fun i inside => by
      rw [getLsbD_lowWord]
      simp [AddressLow.byte1, show 8 + i < 16 by omega]
  have b2 : (AddressLow.byte2.get a.lowWord).setWidth 8 = a.b2 :=
    eq_byte rfl fun i inside => by
      rw [getLsbD_lowWord]
      simp [AddressLow.byte2, show ¬ 16 + i < 8 by omega, show ¬ 16 + i < 16 by omega,
        show 16 + i < 24 by omega]
  have b3 : (AddressLow.byte3.get a.lowWord).setWidth 8 = a.b3 :=
    eq_byte rfl fun i inside => by
      rw [getLsbD_lowWord]
      simp [AddressLow.byte3, show ¬ 24 + i < 8 by omega, show ¬ 24 + i < 16 by omega,
        show ¬ 24 + i < 24 by omega]
  have b4 : (AddressHigh.byte4.get (a.highWord on)).setWidth 8 = a.b4 :=
    eq_byte rfl fun i inside => by
      rw [getLsbD_highWord]
      simp [AddressHigh.byte4, inside, show i ≠ 31 by omega]
  have b5 : (AddressHigh.byte5.get (a.highWord on)).setWidth 8 = a.b5 :=
    eq_byte rfl fun i inside => by
      rw [getLsbD_highWord]
      simp [AddressHigh.byte5, show 8 + i ≠ 31 by omega, show 8 + i < 16 by omega]
  rw [ofWords, b0, b1, b2, b3, b4, b5]

@[simp] theorem enabled_highWord (a : MacAddress) (on : Bool) :
    AddressHigh.enable.test (a.highWord on) = on :=
  Field.test_assign _ (by decide) _ _

theorem byte_eq_iff (f : Field) (wide : f.width = 8) (word : Word) (byte : Byte) :
    (f.get word).setWidth 8 = byte ↔ (word.toNat >>> f.low) % 0x100 = byte.toNat := by
  have bits : 1 <<< 8 = 0x100 := rfl
  rw [← BitVec.toNat_inj, BitVec.toNat_setWidth, Field.toNat_get, wide, bits]
  omega

/-- The address that two words hold. The enable bit and the unused bits do not count. -/
theorem ofWords_eq_iff {a : MacAddress} {high low : Word} :
    ofWords high low = a ↔
      low.toNat = a.b0.toNat + 0x100 * a.b1.toNat + 0x10000 * a.b2.toNat +
          0x1000000 * a.b3.toNat ∧
        high.toNat % 0x10000 = a.b4.toNat + 0x100 * a.b5.toNat := by
  obtain ⟨a0, a1, a2, a3, a4, a5⟩ := a
  have := low.isLt
  have := a0.isLt
  have := a1.isLt
  have := a2.isLt
  have := a3.isLt
  have := a4.isLt
  have := a5.isLt
  rw [ofWords, MacAddress.mk.injEq, byte_eq_iff AddressLow.byte0 rfl,
    byte_eq_iff AddressLow.byte1 rfl, byte_eq_iff AddressLow.byte2 rfl,
    byte_eq_iff AddressLow.byte3 rfl, byte_eq_iff AddressHigh.byte4 rfl,
    byte_eq_iff AddressHigh.byte5 rfl]
  simp only [AddressLow.byte0, AddressLow.byte1, AddressLow.byte2, AddressLow.byte3,
    AddressHigh.byte4, AddressHigh.byte5, Nat.shiftRight_eq_div_pow]
  omega

theorem toNat_append_eq {m n : Nat} (high : BitVec m) (low : BitVec n) :
    (high ++ low).toNat = low.toNat + high.toNat <<< n := by
  rw [BitVec.toNat_append, ← Nat.shiftLeft_add_eq_or_of_lt low.isLt, Nat.add_comm]

theorem toNat_lowWord (a : MacAddress) :
    a.lowWord.toNat =
      a.b0.toNat + 0x100 * a.b1.toNat + 0x10000 * a.b2.toNat + 0x1000000 * a.b3.toNat := by
  unfold lowWord
  rw [toNat_append_eq, toNat_append_eq, toNat_append_eq]
  omega

theorem toNat_highWord_flag (a : MacAddress) (on : Bool) :
    (a.highWord on).toNat = a.b4.toNat + 0x100 * a.b5.toNat + 0x80000000 * on.toNat := by
  have parts : a.highWord on = BitVec.ofBool on ++ (0 : BitVec 15) ++ a.b5 ++ a.b4 := by
    refine BitVec.eq_of_getLsbD_eq fun i inside => ?_
    rw [getLsbD_highWord]
    simp only [BitVec.getLsbD_append]
    by_cases top : i = 31
    · subst top
      cases on <;> rfl
    · by_cases low : i < 8
      · simp [top, low]
      · by_cases middle : i < 16
        · simp [top, low, middle, show i - 8 < 8 by omega]
        · simp [top, low, middle, show ¬ i - 8 < 8 by omega, show i - 8 - 8 < 15 by omega]
  rw [parts, toNat_append_eq, toNat_append_eq, toNat_append_eq, BitVec.toNat_ofBool]
  simp
  omega

theorem toNat_highWord (a : MacAddress) :
    (a.highWord true).toNat = a.b4.toNat + 0x100 * a.b5.toNat + 0x80000000 :=
  a.toNat_highWord_flag true

end MacAddress

namespace RegisterFile

def stored (f : RegisterFile) (slot : Nat) : MacAddress :=
  .ofWords (f.cell (Register.addressHigh slot)) (f.cell (Register.addressLow slot))

def listens (f : RegisterFile) (slot : Nat) : Bool :=
  AddressHigh.enable.test (f.cell (Register.addressHigh slot))

def Holds (f : RegisterFile) (slot : Nat) (address : MacAddress) (on : Bool) : Prop :=
  f.cell (Register.addressHigh slot) = address.highWord on ∧
    f.cell (Register.addressLow slot) = address.lowWord

variable {f : RegisterFile} {slot : Nat} {address : MacAddress} {on : Bool}

theorem Holds.stored (holds : f.Holds slot address on) : f.stored slot = address := by
  rw [RegisterFile.stored, holds.1, holds.2, MacAddress.ofWords_words]

theorem Holds.listens (holds : f.Holds slot address on) : f.listens slot = on := by
  rw [RegisterFile.listens, holds.1, MacAddress.enabled_highWord]

end RegisterFile

end EthernetMac
