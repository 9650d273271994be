/-! Bit fields of a register word. A field is its position; reading and writing follow from it. -/

namespace EthernetMac

abbrev Word := BitVec 32

abbrev Byte := BitVec 8

structure Field where
  low : Nat
  width : Nat
  inside : low + width ≤ 32 := by decide
  deriving DecidableEq

namespace Field

def flag (bit : Nat) (inside : bit + 1 ≤ 32 := by decide) : Field := ⟨bit, 1, inside⟩

def isFlag (f : Field) : Bool := f.width == 1

def ones (f : Field) : Word := (BitVec.allOnes f.width).setWidth 32

def mask (f : Field) : Word := f.ones <<< f.low

def get (f : Field) (word : Word) : Word := (word >>> f.low) &&& f.ones

/-- Excess high bits of `value` are dropped; bits outside the field are kept. -/
def set (f : Field) (value word : Word) : Word :=
  (word &&& ~~~f.mask) ||| ((value <<< f.low) &&& f.mask)

def test (f : Field) (word : Word) : Bool := word.getLsbD f.low

def assign (f : Field) (on : Bool) (word : Word) : Word :=
  f.set (if on then 1 else 0) word

def Covers (f : Field) (i : Nat) : Prop := f.low ≤ i ∧ i < f.low + f.width

instance (f : Field) (i : Nat) : Decidable (f.Covers i) := inferInstanceAs (Decidable (_ ∧ _))

def Apart (f g : Field) : Prop := f.low + f.width ≤ g.low ∨ g.low + g.width ≤ f.low

instance (f g : Field) : Decidable (f.Apart g) := inferInstanceAs (Decidable (_ ∨ _))

theorem getLsbD_ones (f : Field) (i : Nat) : f.ones.getLsbD i = decide (i < f.width) := by
  have inside := f.inside
  simp only [ones, BitVec.getLsbD_setWidth, BitVec.getLsbD_allOnes]
  by_cases h : i < f.width
  · simp [h, show i < 32 by omega]
  · simp [h]

theorem getLsbD_mask (f : Field) (i : Nat) : f.mask.getLsbD i = decide (f.Covers i) := by
  have inside := f.inside
  simp only [mask, BitVec.getLsbD_shiftLeft, getLsbD_ones, Covers]
  by_cases low : f.low ≤ i
  · by_cases high : i < f.low + f.width
    · simp [low, high, show i < 32 by omega, show i - f.low < f.width by omega, Nat.not_lt.mpr low]
    · simp [low, high, show ¬ i - f.low < f.width by omega]
  · simp [low, Nat.lt_of_not_le low]

theorem getLsbD_get (f : Field) (word : Word) (i : Nat) :
    (f.get word).getLsbD i = (decide (i < f.width) && word.getLsbD (f.low + i)) := by
  simp [get, getLsbD_ones, Bool.and_comm]

theorem getLsbD_set (f : Field) (value word : Word) (i : Nat) :
    (f.set value word).getLsbD i =
      if f.Covers i then value.getLsbD (i - f.low) else word.getLsbD i := by
  have inside := f.inside
  simp only [set, BitVec.getLsbD_or, BitVec.getLsbD_and, BitVec.getLsbD_not,
    BitVec.getLsbD_shiftLeft, getLsbD_mask]
  by_cases h : f.Covers i
  · simp [h, show i < 32 by unfold Covers at h; omega, show ¬ i < f.low by unfold Covers at h; omega]
  · by_cases bound : i < 32
    · simp [h, bound]
    · simp [h, BitVec.getLsbD_of_ge word i (by omega)]

theorem getLsbD_assign (f : Field) (on : Bool) (word : Word) (i : Nat) :
    (f.assign on word).getLsbD i =
      if f.Covers i then on && decide (i = f.low) else word.getLsbD i := by
  rw [assign, getLsbD_set]
  by_cases h : f.Covers i
  · have low : f.low ≤ i := h.1
    cases on
    · simp [h]
    · simp only [h, if_true, Bool.true_and]
      rw [show (1 : Word) = 1#32 from rfl, BitVec.getLsbD_one]
      simp [show i - f.low = 0 ↔ i = f.low by omega]
  · simp [h]

theorem test_assign (f : Field) (wide : 0 < f.width) (on : Bool) (word : Word) :
    f.test (f.assign on word) = on := by
  have covered : f.Covers f.low := ⟨Nat.le_refl _, by omega⟩
  simp [test, getLsbD_assign, covered]

theorem getLsbD_set_of_apart {f g : Field} (apart : f.Apart g) (value word : Word) {i : Nat}
    (covered : g.Covers i) : (f.set value word).getLsbD i = word.getLsbD i := by
  have outside : ¬ f.Covers i := by
    unfold Apart at apart
    unfold Covers at covered ⊢
    omega
  rw [getLsbD_set, if_neg outside]

theorem get_set_of_apart {f g : Field} (apart : f.Apart g) (value word : Word) :
    g.get (f.set value word) = g.get word := by
  refine BitVec.eq_of_getLsbD_eq fun i _ => ?_
  rw [getLsbD_get, getLsbD_get]
  by_cases inside : i < g.width
  · have covered : g.Covers (g.low + i) := ⟨by omega, by omega⟩
    rw [getLsbD_set_of_apart apart value word covered]
  · simp [inside]

theorem test_set_of_apart {f g : Field} (apart : f.Apart g) (wide : 0 < g.width)
    (value word : Word) : g.test (f.set value word) = g.test word :=
  getLsbD_set_of_apart apart value word ⟨Nat.le_refl _, by omega⟩

theorem get_set (f : Field) (value word : Word) : f.get (f.set value word) = value &&& f.ones := by
  refine BitVec.eq_of_getLsbD_eq fun i _ => ?_
  rw [getLsbD_get, BitVec.getLsbD_and, getLsbD_ones, Bool.and_comm]
  by_cases inside : i < f.width
  · have covered : f.Covers (f.low + i) := ⟨by omega, by omega⟩
    rw [getLsbD_set, if_pos covered, Nat.add_sub_cancel_left]
  · simp [inside]

theorem toNat_get (f : Field) (word : Word) :
    (f.get word).toNat = (word.toNat >>> f.low) % (1 <<< f.width) := by
  have inside := f.inside
  have bound : 2 ^ f.width ≤ 2 ^ 32 := Nat.pow_le_pow_right (by decide) (by omega)
  have positive := Nat.two_pow_pos f.width
  have ones : f.ones.toNat = 2 ^ f.width - 1 := by
    rw [ones, BitVec.toNat_setWidth, BitVec.toNat_allOnes, Nat.mod_eq_of_lt (by omega)]
  rw [get, BitVec.toNat_and, BitVec.toNat_ushiftRight, ones, Nat.and_two_pow_sub_one_eq_mod,
    Nat.one_shiftLeft]

theorem toNat_get_lt (f : Field) (word : Word) : (f.get word).toNat < 1 <<< f.width := by
  rw [toNat_get, Nat.one_shiftLeft]
  exact Nat.mod_lt _ (Nat.two_pow_pos _)

end Field

end EthernetMac
