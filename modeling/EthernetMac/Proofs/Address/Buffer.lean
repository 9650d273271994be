import EthernetMac.Proofs.Address.Selection

namespace EthernetMac

structure AddressForm (α : Type) where
  ofOctets? : List Byte → Option α
  ofMac : MacAddress → α
  octets : α → List Byte
  length : α → Nat
  isEmpty : α → Bool
  ethernet? : α → Option MacAddress
  station? : α → Option MacAddress

structure AddressForm.Faithful {α : Type} (form : AddressForm α) : Prop where
  accepts : ∀ b, (form.ofOctets? b).isSome ↔ b.length ≤ 32
  contents : ∀ b a, form.ofOctets? b = some a →
    form.octets a = b ∧ form.length a = b.length ∧ (form.isEmpty a = true ↔ b = [])
  equal : ∀ b c x y, form.ofOctets? b = some x → form.ofOctets? c = some y → (x = y ↔ b = c)
  ethernet : ∀ b a, form.ofOctets? b = some a →
    (form.ethernet? a).map MacAddress.octets = if 6 ≤ b.length then some (b.take 6) else none
  station : ∀ b a, form.ofOctets? b = some a → ∀ mac, form.station? a = some mac ↔
    mac.octets = b ∧ mac.b0.getLsbD 0 = false
  ofMac : ∀ mac : MacAddress, form.ofOctets? mac.octets = some (form.ofMac mac)
  back : ∀ mac, form.ethernet? (form.ofMac mac) = some mac
  individual : ∀ mac, form.station? (form.ofMac mac) = if mac.b0.getLsbD 0 then none else some mac

namespace LinkLayerAddress

def form : AddressForm LinkLayerAddress :=
  { ofOctets?, ofMac, octets, length, isEmpty, ethernet?, station? }

theorem ofOctets?_eq_some {b : List Byte} {a : LinkLayerAddress} :
    ofOctets? b = some a ↔ a.octets = b := by
  unfold ofOctets?
  constructor
  · intro made
    split at made
    · cases made
      rfl
    · cases made
  · rintro rfl
    exact dif_pos a.short

theorem form_faithful : form.Faithful where
  accepts b := by
    change (ofOctets? b).isSome ↔ b.length ≤ maxLength
    unfold ofOctets?
    split <;> simp_all
  contents b a made := by
    obtain rfl := ofOctets?_eq_some.mp made
    exact ⟨rfl, rfl, List.isEmpty_iff⟩
  equal b c x y first second := by
    obtain rfl := ofOctets?_eq_some.mp first
    obtain rfl := ofOctets?_eq_some.mp second
    exact ⟨congrArg octets, fun same => by cases x; cases y; cases same; rfl⟩
  ethernet b a made := by
    obtain rfl := ofOctets?_eq_some.mp made
    exact a.octets_ethernet?
  station b a made mac := by
    obtain rfl := ofOctets?_eq_some.mp made
    refine station?_eq_some.trans ?_
    constructor
    · rintro ⟨station, same⟩
      exact ⟨same, (isStation_iff same).mp station⟩
    · rintro ⟨same, individual⟩
      exact ⟨(isStation_iff same).mpr individual, same⟩
  ofMac mac := (ofOctets?_eq_some (a := ofMac mac)).mpr rfl
  back mac := rfl
  individual mac := station?_of_octets (a := ofMac mac) rfl

end LinkLayerAddress

structure AddressBuffer where
  bytes : Vector Byte 32
  count : Byte
  deriving DecidableEq

namespace AddressBuffer

def fill (octets : List Byte) : Vector Byte 32 := .ofFn fun i => octets.getD i.val 0

def ofOctets? (octets : List Byte) : Option AddressBuffer :=
  if 32 < octets.length then none else some ⟨fill octets, .ofNat 8 octets.length⟩

def ofMac (mac : MacAddress) : AddressBuffer := ⟨fill mac.octets, 6⟩

def length (b : AddressBuffer) : Nat := b.count.toNat

def isEmpty (b : AddressBuffer) : Bool := b.count == 0

def octets (b : AddressBuffer) : List Byte := b.bytes.toList.take b.length

def ethernet? (b : AddressBuffer) : Option MacAddress :=
  if b.length < 6 then none
  else some ⟨b.bytes[0], b.bytes[1], b.bytes[2], b.bytes[3], b.bytes[4], b.bytes[5]⟩

def station? (b : AddressBuffer) : Option MacAddress :=
  if b.length ≠ 6 then none
  else b.ethernet?.bind fun mac => if mac.isMulticast || mac.isBroadcast then none else some mac

def form : AddressForm AddressBuffer :=
  { ofOctets?, ofMac, octets, length, isEmpty, ethernet?, station? }

def ofAddress (a : LinkLayerAddress) : AddressBuffer := ⟨fill a.octets, .ofNat 8 a.octets.length⟩

variable (a : LinkLayerAddress)

theorem length_ofAddress : (ofAddress a).length = a.length := by
  have short := a.short
  change (BitVec.ofNat 8 a.octets.length).toNat = a.octets.length
  rw [BitVec.toNat_ofNat, Nat.mod_eq_of_lt (by omega)]

theorem octets_ofAddress : (ofAddress a).octets = a.octets := by
  have short := a.short
  rw [octets, length_ofAddress]
  refine List.ext_getElem ?_ fun i first second => ?_
  · simp [LinkLayerAddress.length]
    omega
  · change i < a.octets.length at second
    simp [ofAddress, fill, second]

theorem isEmpty_ofAddress : (ofAddress a).isEmpty = a.isEmpty := by
  have length := length_ofAddress a
  rw [Bool.eq_iff_iff, isEmpty, beq_iff_eq, ← BitVec.toNat_inj]
  change (ofAddress a).length = 0 ↔ a.octets.isEmpty = true
  rw [length, LinkLayerAddress.length, List.length_eq_zero_iff, List.isEmpty_iff]

theorem ethernet?_ofAddress : (ofAddress a).ethernet? = a.ethernet? := by
  by_cases short : a.octets.length < 6
  · have none : a.ethernet? = none := by
      rw [← Option.map_eq_none_iff, a.octets_ethernet?, if_neg (Nat.not_le.mpr short)]
    rw [none, ethernet?, length_ofAddress]
    exact if_pos short
  · rw [ethernet?, length_ofAddress]
    refine (if_neg short).trans ?_
    obtain ⟨octets, fits⟩ := a
    have long : 6 ≤ octets.length := Nat.le_of_not_lt short
    match octets, fits, long with
    | _ :: _ :: _ :: _ :: _ :: _ :: _, _, _ =>
      simp [ofAddress, fill, LinkLayerAddress.ethernet?]

theorem station?_ofAddress : (ofAddress a).station? = a.station? := by
  rw [station?, LinkLayerAddress.station?, length_ofAddress, ethernet?_ofAddress, ite_not]
  congr 1
  cases a.ethernet? with
  | none => rfl
  | some mac =>
    rw [Option.bind_some, Option.filter_some]
    cases mac.isMulticast || mac.isBroadcast <;> rfl

theorem ofMac_eq (mac : MacAddress) : ofMac mac = ofAddress (.ofMac mac) := rfl

theorem ofOctets?_eq (octets : List Byte) :
    ofOctets? octets = (LinkLayerAddress.ofOctets? octets).map ofAddress := by
  have accepts := LinkLayerAddress.form_faithful.accepts octets
  cases made : LinkLayerAddress.ofOctets? octets with
  | none =>
    have long : ¬octets.length ≤ 32 := fun short => by
      have some := accepts.mpr short
      change (LinkLayerAddress.ofOctets? octets).isSome at some
      rw [made] at some
      cases some
    exact if_pos (Nat.lt_of_not_le long)
  | some a =>
    obtain rfl := LinkLayerAddress.ofOctets?_eq_some.mp made
    exact if_neg (Nat.not_lt.mpr a.short)

end AddressBuffer

/-- `keep` keeps every address of one form in another, and nothing that can be asked tells the two
apart. -/
structure AddressForm.Keeps {α β : Type} (one : AddressForm α) (other : AddressForm β)
    (keep : α → β) : Prop where
  ofOctets? : ∀ b, other.ofOctets? b = (one.ofOctets? b).map keep
  ofMac : ∀ mac, other.ofMac mac = keep (one.ofMac mac)
  octets : ∀ a, other.octets (keep a) = one.octets a
  length : ∀ a, other.length (keep a) = one.length a
  isEmpty : ∀ a, other.isEmpty (keep a) = one.isEmpty a
  ethernet? : ∀ a, other.ethernet? (keep a) = one.ethernet? a
  station? : ∀ a, other.station? (keep a) = one.station? a

theorem AddressBuffer.keeps :
    LinkLayerAddress.form.Keeps AddressBuffer.form AddressBuffer.ofAddress where
  ofOctets? := ofOctets?_eq
  ofMac := ofMac_eq
  octets := octets_ofAddress
  length := length_ofAddress
  isEmpty := isEmpty_ofAddress
  ethernet? := ethernet?_ofAddress
  station? := station?_ofAddress

theorem AddressForm.Keeps.faithful {α β : Type} {one : AddressForm α} {other : AddressForm β}
    {keep : α → β} (keeps : one.Keeps other keep) (faithful : one.Faithful) : other.Faithful := by
  have kept {b : List Byte} {y : β} (made : other.ofOctets? b = some y) :
      ∃ x, one.ofOctets? b = some x ∧ keep x = y := by
    rwa [keeps.ofOctets?, Option.map_eq_some_iff] at made
  constructor
  case accepts =>
    intro b
    rw [keeps.ofOctets?, Option.isSome_map]
    exact faithful.accepts b
  case contents =>
    intro b y made
    obtain ⟨x, first, rfl⟩ := kept made
    rw [keeps.octets, keeps.length, keeps.isEmpty]
    exact faithful.contents b x first
  case equal =>
    intro b c y z first second
    obtain ⟨x, made, rfl⟩ := kept first
    obtain ⟨w, remade, rfl⟩ := kept second
    have left := (faithful.contents b x made).1
    have right := (faithful.contents c w remade).1
    constructor
    · intro same
      rw [← left, ← right, ← keeps.octets, same, keeps.octets]
    · rintro rfl
      rw [(faithful.equal b b x w made remade).mpr rfl]
  case ethernet =>
    intro b y made
    obtain ⟨x, first, rfl⟩ := kept made
    rw [keeps.ethernet?]
    exact faithful.ethernet b x first
  case station =>
    intro b y made
    obtain ⟨x, first, rfl⟩ := kept made
    rw [keeps.station?]
    exact faithful.station b x first
  case ofMac =>
    intro mac
    rw [keeps.ofOctets?, faithful.ofMac, keeps.ofMac]
    rfl
  case back =>
    intro mac
    rw [keeps.ofMac, keeps.ethernet?]
    exact faithful.back mac
  case individual =>
    intro mac
    rw [keeps.ofMac, keeps.station?]
    exact faithful.individual mac

theorem HostConfig.address_foldl (config : HostConfig) (requests : List (List Byte))
    (last : List Byte) :
    ((requests ++ [last]).foldl withAddress config).address = LinkLayerAddress.ofOctets? last := by
  rw [List.foldl_append]
  rfl

/-- Addresses as a host hands them over, and what is asked for by a chain of requests. -/
structure AddressLaws : Prop where
  faithful : LinkLayerAddress.form.Faithful
  buffered : AddressBuffer.form.Faithful
  agree : LinkLayerAddress.form.Keeps AddressBuffer.form AddressBuffer.ofAddress
  latest : ∀ (config : HostConfig) (requests : List (List Byte)) (last : List Byte),
    ((requests ++ [last]).foldl HostConfig.withAddress config).address =
      LinkLayerAddress.ofOctets? last
  dropped : ∀ (config : HostConfig) (requests : List (List Byte)) (last : List Byte),
    ((requests ++ [last]).foldl HostConfig.withAddress config).address = none ↔ 32 < last.length

/-- An address is its bytes, whether it is kept as a list or in a buffer. -/
theorem addresses_faithful : AddressLaws where
  faithful := LinkLayerAddress.form_faithful
  buffered := AddressBuffer.keeps.faithful LinkLayerAddress.form_faithful
  agree := AddressBuffer.keeps
  latest := HostConfig.address_foldl
  dropped config requests last := by
    have accepts := LinkLayerAddress.form_faithful.accepts last
    rw [HostConfig.address_foldl, ← Option.not_isSome_iff_eq_none, ← Nat.not_le]
    exact not_congr accepts

end EthernetMac
