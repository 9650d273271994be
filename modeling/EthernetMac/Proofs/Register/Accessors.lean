import EthernetMac.Register.Layout

namespace EthernetMac

structure Lens (α : Type) where
  get : Word → α
  set : α → Word → Word

/-- The laws of a lens on the bits of `f`, where `fit` is what the field has room for. -/
structure Lens.Lawful {α : Type} (lens : Lens α) (f : Field) (fit : α → α) : Prop where
  get_set : ∀ value word, lens.get (lens.set value word) = fit value
  set_get : ∀ word, lens.set (lens.get word) word = word
  set_set : ∀ value later word, lens.set later (lens.set value word) = lens.set later word
  elsewhere : ∀ value word i, ¬ f.Covers i → (lens.set value word).getLsbD i = word.getLsbD i

namespace Field

variable {f g : Field}

def flagLens (f : Field) : Lens Bool := ⟨f.test, f.assign⟩

def wordLens (f : Field) : Lens Word := ⟨f.get, f.set⟩

def fit (f : Field) (value : Word) : Word := .ofNat 32 (value.toNat % (1 <<< f.width))

inductive Access (f : Field) : {α : Type} → Lens α → Prop where
  | flag (single : f.isFlag = true) : Access f f.flagLens
  | number (wide : f.isFlag = false) : Access f f.wordLens

theorem covers_flag (single : f.isFlag = true) (i : Nat) : f.Covers i ↔ i = f.low := by
  have width : f.width = 1 := beq_iff_eq.mp single
  unfold Covers
  omega

theorem and_ones (f : Field) (value : Word) : value &&& f.ones = f.fit value := by
  have inside := f.inside
  refine BitVec.eq_of_getLsbD_eq fun i bound => ?_
  rw [BitVec.getLsbD_and, getLsbD_ones, fit, Nat.one_shiftLeft, BitVec.getLsbD_ofNat,
    Nat.testBit_mod_two_pow, BitVec.testBit_toNat, Bool.and_comm]
  simp [bound]

theorem set_set (f : Field) (value later word : Word) :
    f.set later (f.set value word) = f.set later word := by
  refine BitVec.eq_of_getLsbD_eq fun i _ => ?_
  rw [getLsbD_set, getLsbD_set, getLsbD_set]
  by_cases covered : f.Covers i <;> simp [covered]

/-- A field holds what it is set to by what it holds. -/
theorem set_get (f : Field) (word : Word) : f.set (f.get word) word = word := by
  refine BitVec.eq_of_getLsbD_eq fun i _ => ?_
  rw [getLsbD_set]
  by_cases covered : f.Covers i
  · obtain ⟨low, high⟩ := id covered
    rw [if_pos covered, getLsbD_get, Nat.add_sub_cancel' low]
    simp [show i - f.low < f.width by omega]
  · rw [if_neg covered]

theorem not_covers_both (apart : f.Apart g) (i : Nat) : ¬ (f.Covers i ∧ g.Covers i) := by
  unfold Apart at apart
  unfold Covers
  omega

theorem set_comm (apart : f.Apart g) (value other word : Word) :
    f.set value (g.set other word) = g.set other (f.set value word) := by
  refine BitVec.eq_of_getLsbD_eq fun i _ => ?_
  have both := not_covers_both apart i
  rw [getLsbD_set, getLsbD_set, getLsbD_set, getLsbD_set]
  by_cases first : f.Covers i <;> by_cases second : g.Covers i <;> simp_all

theorem assign_test (single : f.isFlag = true) (word : Word) :
    f.assign (f.test word) word = word := by
  refine BitVec.eq_of_getLsbD_eq fun i _ => ?_
  rw [getLsbD_assign]
  by_cases covered : f.Covers i
  · have here : i = f.low := (covers_flag single i).mp covered
    simp [here, test]
  · rw [if_neg covered]

theorem wordLens_lawful (f : Field) : f.wordLens.Lawful f f.fit where
  get_set value word := (get_set f value word).trans (and_ones f value)
  set_get := set_get f
  set_set := set_set f
  elsewhere value word i outside := by
    change (f.set value word).getLsbD i = _
    rw [getLsbD_set, if_neg outside]

theorem flagLens_lawful (single : f.isFlag = true) : f.flagLens.Lawful f id where
  get_set on word := by
    have width : f.width = 1 := beq_iff_eq.mp single
    exact test_assign f (by omega) on word
  set_get := assign_test single
  set_set on later word := set_set f _ _ word
  elsewhere on word i outside := f.wordLens_lawful.elsewhere _ word i outside

section Access

variable {α : Type} {lens : Lens α}

theorem Access.set_eq (access : f.Access lens) :
    ∃ bits : α → Word, ∀ value word, lens.set value word = f.set (bits value) word := by
  cases access with
  | flag => exact ⟨fun on => if on then 1 else 0, fun _ _ => rfl⟩
  | number => exact ⟨id, fun _ _ => rfl⟩

/-- Every getter reads the bits of its member and no others. -/
theorem Access.get_congr (access : f.Access lens) {word other : Word}
    (same : ∀ i, f.Covers i → word.getLsbD i = other.getLsbD i) : lens.get word = lens.get other := by
  cases access with
  | flag single => exact same f.low ((covers_flag single _).mpr rfl)
  | number =>
    refine BitVec.eq_of_getLsbD_eq fun i _ => ?_
    change (f.get word).getLsbD i = (f.get other).getLsbD i
    rw [getLsbD_get, getLsbD_get]
    by_cases inside : i < f.width
    · rw [same (f.low + i) ⟨by omega, by omega⟩]
    · simp [inside]

end Access

structure Independent (f g : Field) : Prop where
  apart : ∀ i, ¬ (f.Covers i ∧ g.Covers i)
  keeps : ∀ {α β : Type} {one : Lens α} {other : Lens β}, f.Access one → g.Access other →
    ∀ value word, other.get (one.set value word) = other.get word
  kept : ∀ {α β : Type} {one : Lens α} {other : Lens β}, f.Access one → g.Access other →
    ∀ value word, one.get (other.set value word) = one.get word
  comm : ∀ {α β : Type} {one : Lens α} {other : Lens β}, f.Access one → g.Access other →
    ∀ value last word, one.set value (other.set last word) = other.set last (one.set value word)

theorem Apart.symm (apart : f.Apart g) : g.Apart f := Or.symm apart

theorem get_other_of_apart (apart : f.Apart g) {α β : Type} {one : Lens α} {other : Lens β}
    (first : f.Access one) (second : g.Access other) (value : α) (word : Word) :
    other.get (one.set value word) = other.get word := by
  obtain ⟨bits, sets⟩ := first.set_eq
  refine second.get_congr fun i covered => ?_
  rw [sets]
  exact getLsbD_set_of_apart apart _ word covered

theorem Apart.independent (apart : f.Apart g) : f.Independent g where
  apart := not_covers_both apart
  keeps := get_other_of_apart apart
  kept first second := get_other_of_apart apart.symm second first
  comm first second value last word := by
    obtain ⟨bits, sets⟩ := first.set_eq
    obtain ⟨others, resets⟩ := second.set_eq
    rw [sets, sets, resets, resets]
    exact set_comm apart _ _ word

theorem mask_flag (single : f.isFlag = true) : f.mask = (1 : Word) <<< f.low := by
  have width : f.width = 1 := beq_iff_eq.mp single
  have one : f.ones = 1 := by
    unfold ones
    rw [width]
    rfl
  rw [mask, one]

theorem and_mask_eq_zero_iff (single : f.isFlag = true) (word : Word) :
    word &&& f.mask = 0 ↔ f.test word = false := by
  have bits (i : Nat) : (word &&& f.mask).getLsbD i = (word.getLsbD i && decide (i = f.low)) := by
    rw [BitVec.getLsbD_and, getLsbD_mask]
    simp only [covers_flag single]
  constructor
  · intro zero
    have bit := bits f.low
    rw [zero, decide_eq_true rfl, Bool.and_true] at bit
    exact bit.symm.trans BitVec.getLsbD_zero
  · intro off
    refine BitVec.eq_of_getLsbD_eq fun i _ => ?_
    rw [bits]
    by_cases here : i = f.low
    · rw [here, show word.getLsbD f.low = false from off]
      simp
    · simp [here]

theorem test_eq_mask (single : f.isFlag = true) (word : Word) :
    f.test word = (word &&& f.mask != 0) := by
  have zero := and_mask_eq_zero_iff single word
  cases found : f.test word with
  | false => rw [zero.mpr found, bne_self_eq_false]
  | true =>
    have some : word &&& f.mask ≠ 0 := fun none => by simp [zero.mp none] at found
    exact (bne_iff_ne.mpr some).symm

theorem assign_eq_mask (single : f.isFlag = true) (on : Bool) (word : Word) :
    f.assign on word = if on then word ||| f.mask else word &&& ~~~f.mask := by
  refine BitVec.eq_of_getLsbD_eq fun i bound => ?_
  have assigned := getLsbD_assign f on word i
  have mask := getLsbD_mask f i
  cases on with
  | false =>
    rw [if_neg Bool.false_ne_true, assigned, BitVec.getLsbD_and, BitVec.getLsbD_not, mask]
    by_cases covered : f.Covers i <;> simp [covered, bound]
  | true =>
    rw [if_pos rfl, assigned, BitVec.getLsbD_or, mask]
    by_cases covered : f.Covers i
    · have here := (covers_flag single i).mp covered
      rw [if_pos covered, decide_eq_true covered, decide_eq_true here, Bool.or_true]
      rfl
    · simp [covered]

structure Masked (f : Field) : Prop where
  mask : f.mask = (1 : Word) <<< f.low
  get : ∀ word, f.flagLens.get word = (word &&& f.mask != 0)
  set : ∀ on word, f.flagLens.set on word = if on then word ||| f.mask else word &&& ~~~f.mask

theorem masked_of_flag (single : f.isFlag = true) : f.Masked :=
  ⟨mask_flag single, test_eq_mask single, assign_eq_mask single⟩

end Field

structure Layout.Lawful (layout : Layout) : Prop where
  named : (layout.map Prod.fst).Nodup
  inside : ∀ member ∈ layout, 0 < member.2.width ∧ member.2.low + member.2.width ≤ 32
  flags : ∀ member ∈ layout, member.2.isFlag = true →
    member.2.Masked ∧ member.2.flagLens.Lawful member.2 id
  numbers : ∀ member ∈ layout, member.2.isFlag = false →
    member.2.wordLens.Lawful member.2 member.2.fit
  independent : layout.Pairwise fun one other => one.2.Independent other.2

/-- The accessors of every register obey the laws. -/
theorem registers_lawful : ∀ layout ∈ Layout.all, layout.Lawful := by
  intro layout listed
  have placed : ∀ layout ∈ Layout.all, (layout.map Prod.fst).Nodup ∧
      (∀ member ∈ layout, 0 < member.2.width) ∧
      layout.Pairwise fun one other => one.2.Apart other.2 := by
    decide
  obtain ⟨named, wide, apart⟩ := placed layout listed
  exact
    { named
      inside := fun member there => ⟨wide member there, member.2.inside⟩
      flags := fun member _ single => ⟨Field.masked_of_flag single, Field.flagLens_lawful single⟩
      numbers := fun member _ _ => member.2.wordLens_lawful
      independent := apart.imp fun apart => apart.independent }

theorem registers_lawful_channelStatus :
    ChannelStatus.layout ∈ Layout.all ∧ ChannelStatus.layout.Lawful := by
  have listed : ChannelStatus.layout ∈ Layout.all := by decide
  exact ⟨listed, registers_lawful _ listed⟩

end EthernetMac
