import EthernetMac.Proofs.Address.Selection
import EthernetMac.Proofs.Address.Words
import EthernetMac.Proofs.Adapter.Writes

namespace EthernetMac

open Program

namespace MacAddress

structure Usable (a : MacAddress) : Prop where
  nonzero : a ≠ ⟨0, 0, 0, 0, 0, 0⟩
  narrow : a ≠ ⟨0xFF, 0xFF, 0xFF, 0xFF, 0xFF, 0xFF⟩
  individual : a.b0.getLsbD 0 = false

variable {a : MacAddress}

theorem narrow_of_individual (individual : a.b0.getLsbD 0 = false) :
    a ≠ ⟨0xFF, 0xFF, 0xFF, 0xFF, 0xFF, 0xFF⟩ := by
  rintro rfl
  cases individual

theorem usable_iff (individual : a.b0.getLsbD 0 = false) :
    a.Usable ↔ a ≠ ⟨0, 0, 0, 0, 0, 0⟩ :=
  ⟨Usable.nonzero, fun nonzero => ⟨nonzero, narrow_of_individual individual, individual⟩⟩

/-- The repair of a group address leaves zeros if there was no other bit. -/
theorem repaired_eq_zero (group : a.b0.getLsbD 0 = true) :
    ({ a with b0 := a.b0 &&& 0xFE } : MacAddress) = ⟨0, 0, 0, 0, 0, 0⟩ ↔
      a = ⟨1, 0, 0, 0, 0, 0⟩ := by
  have first : ∀ byte : Byte, byte.getLsbD 0 = true → (byte &&& 0xFE = 0 ↔ byte = 1) := by decide
  obtain ⟨b0, b1, b2, b3, b4, b5⟩ := a
  simp only [MacAddress.mk.injEq, first b0 group]

end MacAddress

def AsksForZeros (requested : Option LinkLayerAddress) : Prop :=
  ∃ a, requested = some a ∧ a.octets = [0, 0, 0, 0, 0, 0]

variable {requested : Option LinkLayerAddress} {permanent current : MacAddress} {deeds : List Deed}
  {high low : Word}

theorem AsksForZeros.not_unusable (asks : AsksForZeros requested) : ¬ Unusable requested := by
  obtain ⟨a, asked, zeros⟩ := asks
  have station : a.IsStation :=
    (@LinkLayerAddress.isStation_iff a ⟨0, 0, 0, 0, 0, 0⟩ zeros.symm).mpr rfl
  exact fun unusable => unusable a asked station

/-- Zeros are selected where the host asks for them, and where the repair makes them. -/
theorem Selects.zeros_iff (selects : Selects requested permanent deeds current) :
    current = ⟨0, 0, 0, 0, 0, 0⟩ ↔
      AsksForZeros requested ∨ Unusable requested ∧ permanent = ⟨1, 0, 0, 0, 0, 0⟩ := by
  have unasked (unusable : Unusable requested) :
      AsksForZeros requested ∨ Unusable requested ∧ permanent = ⟨1, 0, 0, 0, 0, 0⟩ ↔
        permanent = ⟨1, 0, 0, 0, 0, 0⟩ := by
    rw [or_iff_right fun asks => asks.not_unusable unusable]
    exact and_iff_right unusable
  cases selects with
  | @verbatim a _ asked station same =>
    have usable : ¬ Unusable requested := fun unusable => unusable a asked station
    rw [or_iff_left fun repaired => usable repaired.1]
    constructor
    · rintro rfl
      exact ⟨a, asked, same.symm⟩
    · rintro ⟨_, given, zeros⟩
      cases asked.symm.trans given
      exact MacAddress.octets_inj (same.trans zeros)
  | @drawn unusable blank bytes _ filled =>
    rw [unasked unusable]
    constructor
    · rintro rfl
      cases filled
    · rintro rfl
      rcases blank with blank | blank <;> cases blank
  | repaired unusable _ group =>
    rw [unasked unusable]
    exact MacAddress.repaired_eq_zero group
  | kept unusable nonzero individual =>
    rw [unasked unusable, iff_false_intro nonzero, false_iff]
    rintro rfl
    cases individual

structure Fallback (requested : Option LinkLayerAddress) (permanent current : MacAddress) : Prop where
  individual : current.b0.getLsbD 0 = false
  narrow : current ≠ ⟨0xFF, 0xFF, 0xFF, 0xFF, 0xFF, 0xFF⟩
  zeros_iff : current = ⟨0, 0, 0, 0, 0, 0⟩ ↔
    AsksForZeros requested ∨ Unusable requested ∧ permanent = ⟨1, 0, 0, 0, 0, 0⟩
  usable_iff : Unusable requested → (current.Usable ↔ permanent ≠ ⟨1, 0, 0, 0, 0, 0⟩)

theorem Selects.fallback (selects : Selects requested permanent deeds current) :
    Fallback requested permanent current where
  individual := selects.individual
  narrow := MacAddress.narrow_of_individual selects.individual
  zeros_iff := selects.zeros_iff
  usable_iff unusable := by
    rw [MacAddress.usable_iff selects.individual, Ne, selects.zeros_iff,
      or_iff_right fun asks => asks.not_unusable unusable, and_iff_right unusable]

def slotLoads (high low : Word) : List Deed :=
  [⟨.load (Register.addressHigh 0), high⟩, ⟨.load (Register.addressLow 0), low⟩]

theorem selected_iff :
    (readPermanent >>= selectCurrent requested).Course deeds current ↔
      ∃ high low rest, deeds = slotLoads high low ++ rest ∧
        Selects requested (.ofWords high low) rest current := by
  simp only [selects_iff]
  constructor
  · rintro ⟨high, _, rfl, low, rest, rfl, course⟩
    exact ⟨high, low, rest, rfl, course⟩
  · rintro ⟨high, low, rest, rfl, course⟩
    exact ⟨high, _, rfl, low, rest, rfl, course⟩

theorem Adapter.Shows.selects {config : HostConfig} {a : Adapter}
    (shows' : Shows config deeds (.ok a)) :
    ∃ drawn, Selects config.address a.permanent drawn a.current := by
  cases shows' with
  | @addressed _ _ _ _ _ _ _ _ _ _ started _ _ chosen _ ends =>
    cases started with
    | false => cases ends
    | true =>
      cases ends
      obtain ⟨drawn, course⟩ := chosen
      exact ⟨drawn, selects_iff.mpr course⟩

/-- The address to receive on, from the two words of the first slot. -/
structure FallsBack (requested : Option LinkLayerAddress) : Prop where
  ends : ∀ (high low : Word) (bytes : Vector Byte 4), ∃ drawn current,
    (readPermanent >>= selectCurrent requested).Course (slotLoads high low ++ drawn) current ∧
      ∀ deed ∈ drawn, deed = ⟨.random 4, bytes⟩
  selected : ∀ deeds current, (readPermanent >>= selectCurrent requested).Course deeds current →
    ∃ high low drawn, deeds = slotLoads high low ++ drawn ∧
      Fallback requested (.ofWords high low) current
  /-- The permanent address that is not made use of, in words. -/
  bare : ∀ high low : Word, MacAddress.ofWords high low = ⟨1, 0, 0, 0, 0, 0⟩ ↔
    low = 1 ∧ high.toNat % 0x10000 = 0
  prepared : ∀ resources deeds a, (Adapter.prepare ⟨requested⟩ resources).Course deeds (.ok a) →
    Fallback requested a.permanent a.current

theorem fallback_usable (requested : Option LinkLayerAddress) : FallsBack requested where
  ends high low bytes := by
    rcases selectCurrent_shape requested (.ofWords high low) with ⟨current, shape⟩ | shape
    · refine ⟨[], current, selected_iff.mpr ⟨high, low, [], rfl, ?_⟩, List.forall_mem_nil _⟩
      rw [selects_iff, shape]
      exact ⟨rfl, rfl⟩
    · refine ⟨[⟨.random 4, bytes⟩], .synthesized bytes,
        selected_iff.mpr ⟨high, low, _, rfl, ?_⟩, List.forall_mem_singleton.mpr rfl⟩
      rw [selects_iff, shape]
      exact ⟨bytes, [], rfl, rfl, rfl⟩
  selected deeds current course := by
    obtain ⟨high, low, drawn, shape, selects⟩ := selected_iff.mp course
    exact ⟨high, low, drawn, shape, selects.fallback⟩
  bare high low := by
    rw [MacAddress.ofWords_eq_iff, ← BitVec.toNat_inj]
    rfl
  prepared resources deeds a course := by
    obtain ⟨drawn, selects⟩ := (Adapter.prepare_shows course).selects
    exact selects.fallback

/-- The group bit alone in the first slot: nothing is asked for and nothing drawn, and the station
is left with zeros. -/
theorem bare_group_bit_zeroed :
    Unusable none ∧
      (readPermanent >>= selectCurrent none).Course (slotLoads 0x80000000 1) ⟨0, 0, 0, 0, 0, 0⟩ ∧
      ¬ MacAddress.Usable ⟨0, 0, 0, 0, 0, 0⟩ :=
  ⟨nofun, ⟨0x80000000, _, rfl, 1, _, rfl, rfl, rfl⟩, fun usable => usable.nonzero rfl⟩

end EthernetMac
