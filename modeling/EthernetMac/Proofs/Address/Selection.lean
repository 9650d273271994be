import EthernetMac.Proofs.Trail
import EthernetMac.Address.Table

namespace EthernetMac

open Program

def LinkLayerAddress.IsStation (a : LinkLayerAddress) : Prop :=
  a.octets.length = 6 ∧ ∀ first ∈ a.octets.head?, first.getLsbD 0 = false

def Unusable (requested : Option LinkLayerAddress) : Prop := ∀ a ∈ requested, ¬ a.IsStation

/-- The ways in which an address can be selected, with what is drawn for it. -/
inductive Selects (requested : Option LinkLayerAddress) (permanent : MacAddress) :
    List Deed → MacAddress → Prop where
  | verbatim {a : LinkLayerAddress} {current : MacAddress} (asked : requested = some a)
      (station : a.IsStation) (same : current.octets = a.octets) :
      Selects requested permanent [] current
  | drawn (unusable : Unusable requested)
      (blank : permanent = ⟨0, 0, 0, 0, 0, 0⟩ ∨ permanent = ⟨0xFF, 0xFF, 0xFF, 0xFF, 0xFF, 0xFF⟩)
      {bytes : Vector Byte 4} {current : MacAddress}
      (filled : current.octets = 0xF2 :: 0x00 :: bytes.toList) :
      Selects requested permanent [⟨.random 4, bytes⟩] current
  | repaired (unusable : Unusable requested)
      (other : permanent ≠ ⟨0xFF, 0xFF, 0xFF, 0xFF, 0xFF, 0xFF⟩)
      (group : permanent.b0.getLsbD 0 = true) :
      Selects requested permanent [] { permanent with b0 := permanent.b0 &&& 0xFE }
  | kept (unusable : Unusable requested) (some : permanent ≠ ⟨0, 0, 0, 0, 0, 0⟩)
      (individual : permanent.b0.getLsbD 0 = false) :
      Selects requested permanent [] permanent

theorem MacAddress.octets_inj {a b : MacAddress} (same : a.octets = b.octets) : a = b := by
  cases a
  cases b
  simpa [octets] using same

theorem MacAddress.octets_synthesized (bytes : Vector Byte 4) :
    (MacAddress.synthesized bytes).octets = 0xF2 :: 0x00 :: bytes.toList := by
  obtain ⟨⟨bytes⟩, size⟩ := bytes
  match bytes, size with
  | [_, _, _, _], _ => rfl

theorem MacAddress.exists_octets : ∀ {octets : List Byte}, octets.length = 6 →
    ∃ mac : MacAddress, mac.octets = octets
  | [b0, b1, b2, b3, b4, b5], _ => ⟨⟨b0, b1, b2, b3, b4, b5⟩, rfl⟩

namespace LinkLayerAddress

variable {a : LinkLayerAddress} {mac : MacAddress}

theorem ethernet?_of_long (long : MacAddress.size ≤ a.length) :
    ∃ mac, a.ethernet? = some mac ∧ mac.octets = a.octets.take MacAddress.size := by
  change 6 ≤ a.octets.length at long
  unfold ethernet?
  generalize a.octets = octets at long
  match octets, long with
  | _ :: _ :: _ :: _ :: _ :: _ :: _, _ => exact ⟨_, rfl, rfl⟩

theorem octets_ethernet? (a : LinkLayerAddress) :
    a.ethernet?.map MacAddress.octets =
      if 6 ≤ a.octets.length then some (a.octets.take 6) else none := by
  by_cases long : 6 ≤ a.octets.length
  · obtain ⟨mac, found, same⟩ := ethernet?_of_long long
    rw [found, if_pos long, ← show MacAddress.size = 6 from rfl, ← same]
    rfl
  · have short : a.ethernet? = none := by
      unfold ethernet?
      split
      · rename_i shape
        rw [shape] at long
        simp at long
      · rfl
    rw [short, if_neg long]
    rfl

theorem isStation_iff (same : mac.octets = a.octets) : a.IsStation ↔ mac.b0.getLsbD 0 = false := by
  unfold IsStation
  rw [← same]
  exact ⟨fun station => station.2 mac.b0 rfl, fun clear => ⟨rfl, by rintro _ ⟨⟩; exact clear⟩⟩

theorem station?_of_octets (same : mac.octets = a.octets) :
    a.station? = if mac.b0.getLsbD 0 = true then none else some mac := by
  have six : a.length = MacAddress.size := by
    rw [length, ← same]
    rfl
  have whole : a.ethernet? = some mac := by
    unfold ethernet?
    rw [← same]
    rfl
  rw [station?, if_pos six, whole, Option.filter_some]
  cases group : mac.b0.getLsbD 0 with
  | true =>
    have multicast : mac.isMulticast = true := group
    simp [multicast]
  | false =>
    have multicast : mac.isMulticast = false := group
    have apart : mac ≠ MacAddress.broadcast := by
      rintro rfl
      cases group
    simp [multicast, MacAddress.isBroadcast, apart]

theorem station?_of_length (other : a.octets.length ≠ 6) : a.station? = none := if_neg other

theorem station?_eq_some : a.station? = some mac ↔ a.IsStation ∧ mac.octets = a.octets := by
  constructor
  · intro found
    by_cases six : a.octets.length = 6
    · obtain ⟨taken, same⟩ := MacAddress.exists_octets six
      rw [station?_of_octets same] at found
      split at found
      · cases found
      · rename_i clear
        cases found
        exact ⟨(isStation_iff same).mpr (Bool.eq_false_iff.mpr clear), same⟩
    · rw [station?_of_length six] at found
      cases found
  · rintro ⟨station, same⟩
    rw [station?_of_octets same, (isStation_iff same).mp station]
    rfl

theorem station?_eq_none : a.station? = none ↔ ¬ a.IsStation := by
  constructor
  · intro none station
    obtain ⟨mac, same⟩ := MacAddress.exists_octets station.1
    cases none.symm.trans (station?_eq_some.mpr ⟨station, same⟩)
  · intro other
    cases found : a.station? with
    | none => rfl
    | some mac => exact absurd (station?_eq_some.mp found).1 other

end LinkLayerAddress

variable {requested : Option LinkLayerAddress} {permanent current : MacAddress} {deeds : List Deed}

theorem unusable_iff :
    Unusable requested ↔ requested.bind LinkLayerAddress.station? = none := by
  rw [Option.bind_eq_none_iff]
  exact forall_congr' fun a => forall_congr' fun _ => LinkLayerAddress.station?_eq_none.symm

theorem selectCurrent_of_unusable (unusable : Unusable requested) :
    selectCurrent requested permanent = selectCurrent none permanent := by
  unfold selectCurrent
  rw [unusable_iff.mp unusable]
  rfl

theorem blank_iff : (permanent.isZero || permanent.isBroadcast) = true ↔
    permanent = ⟨0, 0, 0, 0, 0, 0⟩ ∨ permanent = ⟨0xFF, 0xFF, 0xFF, 0xFF, 0xFF, 0xFF⟩ := by
  simp [MacAddress.isZero, MacAddress.isBroadcast, MacAddress.zero, MacAddress.broadcast]

/-- What is selected in place of a request. -/
theorem selects_none_iff (unusable : Unusable requested) :
    Selects requested permanent deeds current ↔
      (selectCurrent none permanent).Course deeds current := by
  have shape : selectCurrent none permanent =
      if (permanent.isZero || permanent.isBroadcast) = true then do
        let bytes ← act (.random 4)
        return .synthesized bytes
      else if permanent.b0.getLsbD 0 = true then return permanent.withoutGroupBit
      else return permanent := rfl
  rw [shape]
  constructor
  · intro selects
    cases selects with
    | verbatim asked station => exact absurd station (unusable _ asked)
    | drawn _ blank filled =>
      rw [if_pos (blank_iff.mpr blank)]
      have same := MacAddress.octets_inj (filled.trans (MacAddress.octets_synthesized _).symm)
      exact ⟨_, [], rfl, rfl, same⟩
    | repaired _ other group =>
      have some : ¬ (permanent.isZero || permanent.isBroadcast) = true := by
        rw [blank_iff]
        rintro (rfl | rfl)
        · cases group
        · exact other rfl
      rw [if_neg some, if_pos group]
      exact ⟨rfl, rfl⟩
    | kept _ other individual =>
      have some : ¬ (permanent.isZero || permanent.isBroadcast) = true := by
        rw [blank_iff]
        rintro (rfl | rfl)
        · exact other rfl
        · cases individual
      rw [if_neg some, if_neg (Bool.eq_false_iff.mp individual)]
      exact ⟨rfl, rfl⟩
  · intro course
    split at course
    · rename_i blank
      obtain ⟨bytes, _, rfl, rfl, rfl⟩ := course
      exact .drawn unusable (blank_iff.mp blank) (MacAddress.octets_synthesized bytes)
    · rename_i some
      rw [blank_iff, not_or] at some
      split at course
      · rename_i group
        obtain ⟨rfl, rfl⟩ := course
        exact .repaired unusable some.2 group
      · rename_i individual
        obtain ⟨rfl, rfl⟩ := course
        exact .kept unusable some.1 (Bool.eq_false_iff.mpr individual)

theorem selects_iff :
    Selects requested permanent deeds current ↔
      (selectCurrent requested permanent).Course deeds current := by
  cases found : requested.bind LinkLayerAddress.station? with
  | none =>
    have unusable := unusable_iff.mpr found
    rw [selectCurrent_of_unusable unusable]
    exact selects_none_iff unusable
  | some station =>
    obtain ⟨a, asked, taken⟩ := Option.bind_eq_some_iff.mp found
    obtain ⟨isStation, same⟩ := LinkLayerAddress.station?_eq_some.mp taken
    have shape : selectCurrent requested permanent = return station := by
      unfold selectCurrent
      rw [found]
    rw [shape, course_pure]
    constructor
    · intro selects
      cases selects with
      | verbatim given _ verbatim =>
        cases asked.symm.trans given
        exact ⟨rfl, MacAddress.octets_inj (verbatim.trans same.symm)⟩
      | drawn unusable | repaired unusable | kept unusable =>
        exact absurd isStation (unusable a asked)
    · rintro ⟨rfl, rfl⟩
      exact .verbatim asked isStation same

/-- No group address is selected. -/
theorem Selects.individual (selects : Selects requested permanent deeds current) :
    current.b0.getLsbD 0 = false := by
  cases selects with
  | verbatim _ station same => exact (LinkLayerAddress.isStation_iff same).mp station
  | drawn _ _ filled =>
    have first : current.b0 = 0xF2 := (List.cons.inj filled).1
    rw [first]
    decide
  | repaired => simp
  | kept _ _ individual => exact individual

/-- A request is met to the letter where a station can have the address, and nowhere else. -/
theorem Selects.verbatim_iff {a : LinkLayerAddress} (asked : requested = some a)
    (selects : Selects requested permanent deeds current) :
    current.octets = a.octets ↔ a.IsStation := by
  constructor
  · exact fun same => (LinkLayerAddress.isStation_iff same).mpr selects.individual
  · intro station
    cases selects with
    | verbatim given _ same =>
      cases asked.symm.trans given
      exact same
    | drawn unusable | repaired unusable | kept unusable => exact absurd station (unusable a asked)

/-- Random bytes are asked for once, or not at all. -/
theorem selectCurrent_shape (requested : Option LinkLayerAddress) (permanent : MacAddress) :
    (∃ current, selectCurrent requested permanent = return current) ∨
      selectCurrent requested permanent =
        (do let bytes ← act (.random 4); return .synthesized bytes) := by
  unfold selectCurrent
  split
  · exact .inl ⟨_, rfl⟩
  · split
    · exact .inr rfl
    · split
      · exact .inl ⟨_, rfl⟩
      · exact .inl ⟨_, rfl⟩

structure Selection (requested : Option LinkLayerAddress) (permanent : MacAddress) : Prop where
  courses : ∀ deeds current, (selectCurrent requested permanent).Course deeds current ↔
    Selects requested permanent deeds current
  determined : ∀ bytes : Vector Byte 4, ∃ deeds current,
    (Selects requested permanent deeds current ∧ ∀ deed ∈ deeds, deed = ⟨.random 4, bytes⟩) ∧
      ∀ others other, Selects requested permanent others other ∧
        (∀ deed ∈ others, deed = ⟨.random 4, bytes⟩) → others = deeds ∧ other = current
  individual : ∀ deeds current, Selects requested permanent deeds current →
    current.b0.getLsbD 0 = false
  verbatim : ∀ a, requested = some a → ∀ deeds current,
    Selects requested permanent deeds current → (current.octets = a.octets ↔ a.IsStation)
  independent : Unusable requested → selectCurrent requested permanent = selectCurrent none permanent
  /-- Only one bit of a group address is changed. -/
  repair : ∀ i, (permanent.b0 &&& 0xFE).getLsbD i = (permanent.b0.getLsbD i && decide (i ≠ 0))

theorem selectCurrent_selects (requested : Option LinkLayerAddress) (permanent : MacAddress) :
    Selection requested permanent where
  courses _ _ := selects_iff.symm
  determined bytes := by
    simp only [selects_iff]
    rcases selectCurrent_shape requested permanent with ⟨current, shape⟩ | shape
    · rw [shape]
      exact ⟨[], current, ⟨⟨rfl, rfl⟩, List.forall_mem_nil _⟩, fun _ _ known => known.1⟩
    · rw [shape]
      refine ⟨_, _, ⟨⟨bytes, [], rfl, rfl, rfl⟩, List.forall_mem_singleton.mpr rfl⟩, ?_⟩
      rintro _ _ ⟨⟨given, _, rfl, rfl, rfl⟩, answered⟩
      cases answered _ (.head _)
      exact ⟨rfl, rfl⟩
  individual _ _ selects := selects.individual
  verbatim _ asked _ _ selects := selects.verbatim_iff asked
  independent := selectCurrent_of_unusable
  repair i := by
    by_cases inside : i < 8
    · have mask : ∀ i < 8, (0xFE : Byte).getLsbD i = decide (i ≠ 0) := by decide
      rw [BitVec.getLsbD_and, mask i inside]
    · have none (byte : Byte) : byte.getLsbD i = false :=
        BitVec.getLsbD_of_ge byte i (Nat.le_of_not_lt inside)
      rw [none, none, Bool.false_and]

end EthernetMac
