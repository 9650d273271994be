import EthernetMac.Proofs.Filter.Capacity
import EthernetMac.Proofs.Interrupt.Handled

namespace EthernetMac

open Program

namespace Program

variable {α β : Type}

def storing (writes : List (Nat × Word)) : Program Unit :=
  writes.forM fun write => store write.1 write.2

@[simp] theorem storing_nil : storing [] = done () := rfl

theorem storing_cons (write : Nat × Word) (writes : List (Nat × Word)) :
    storing (write :: writes) = (do store write.1 write.2; storing writes) := rfl

theorem storing_append (first rest : List (Nat × Word)) :
    storing (first ++ rest) = (do storing first; storing rest) :=
  List.forM_append

theorem storing_one (offset : Nat) (value : Word) :
    storing [(offset, value)] = store offset value :=
  bind_done _

theorem storing_flatMap (items : List α) (f : α → List (Nat × Word)) :
    storing (items.flatMap f) = items.forM fun item => storing (f item) := by
  induction items with
  | nil => rfl
  | cons item items ih =>
    rw [List.flatMap_cons, storing_append, ih]
    rfl

theorem fail_bind (cause : Fault) (f : α → Program β) : (fail cause >>= f) = fail cause :=
  congrArg (perform (.fault cause)) (funext fun answer => answer.elim)

end Program

namespace RegisterFile

variable {f g h : RegisterFile} {offset : Nat} {value : Word}

def WritesApart (one other : Nat × Word) : Prop := one.1 ≠ other.1

/-- The file after some writes. The first one that is refused ends them. -/
def stores (f : RegisterFile) : List (Nat × Word) → RegisterFile
  | [] => f
  | write :: writes =>
    match f.write? write.1 write.2 with
    | some after => after.stores writes
    | none => f

theorem write?_congr {after : RegisterFile} (same : g.backing = f.backing)
    (written : f.write? offset value = some after) :
    g.write? offset value = some (g.writing offset value) := by
  unfold write? writing
  rw [same]
  cases backing : f.backing with
  | memory =>
    rw [write?, backing] at written
    dsimp only at written ⊢
    split at written
    · exact if_pos ‹_›
    · cases written
  | device =>
    dsimp only
    split <;> rfl

theorem stores_backing (f : RegisterFile) (writes : List (Nat × Word)) :
    (f.stores writes).backing = f.backing := by
  induction writes generalizing f with
  | nil => rfl
  | cons write writes ih =>
    rw [stores]
    split
    · rename_i after written
      rw [ih, write?_eq_some written, writing_backing]
    · rfl

theorem stores_cell_of_ne (f : RegisterFile) {writes : List (Nat × Word)}
    (apart : ∀ write ∈ writes, offset ≠ write.1) : (f.stores writes).cell offset = f.cell offset := by
  induction writes generalizing f with
  | nil => rfl
  | cons write writes ih =>
    obtain ⟨first, rest⟩ := List.forall_mem_cons.mp apart
    rw [stores]
    split
    · rename_i after written
      rw [ih _ rest, write?_eq_some written, writing_cell_of_ne first]
    · rfl

/-- A word that is there already is not changed, and neither are bits that are cleared already. -/
theorem writing_again (backing : g.backing = f.backing)
    (same : g.cell offset = (f.writing offset value).cell offset) : g.writing offset value = g := by
  unfold writing at same ⊢
  rw [backing]
  cases kind : f.backing with
  | memory =>
    rw [kind] at same
    dsimp only at same ⊢
    rw [← f.cell_set_self offset value, ← same, set_cell_self]
  | device =>
    rw [kind] at same
    dsimp only at same ⊢
    split
    · rename_i status
      rw [if_pos status, cell_set_self] at same
      have cleared : g.cell offset &&& ~~~value = g.cell offset := by
        rw [same, BitVec.and_assoc, BitVec.and_self]
      rw [cleared, set_cell_self]
    · rename_i plain
      rw [if_neg plain, cell_set_self] at same
      rw [← same, set_cell_self]

/-- Writes to different registers leave each as it was written, so that they change nothing when they
are made again. -/
theorem stores_stores (f : RegisterFile) {writes : List (Nat × Word)}
    (distinct : writes.Pairwise WritesApart) :
    (f.stores writes).stores writes = f.stores writes := by
  induction writes generalizing f with
  | nil => rfl
  | cons write writes ih =>
    obtain ⟨apart, distinct⟩ := List.pairwise_cons.mp distinct
    cases first : f.write? write.1 write.2 with
    | none =>
      have refused : f.stores (write :: writes) = f := by rw [stores, first]
      rw [refused, refused]
    | some after =>
      have onward : f.stores (write :: writes) = after.stores writes := by rw [stores, first]
      have written := write?_eq_some first
      have backing : (after.stores writes).backing = f.backing := by
        rw [stores_backing, written, writing_backing]
      have kept : (after.stores writes).writing write.1 write.2 = after.stores writes :=
        writing_again backing (by rw [stores_cell_of_ne after apart, written])
      rw [onward, stores, write?_congr backing first, kept]
      exact ih after distinct

end RegisterFile

theorem run_storing {tail : Program Unit}
    (silent : ∀ s : Station, (tail.run s).2.registers = s.registers) (writes : List (Nat × Word))
    (s : Station) :
    ((storing writes >>= fun _ => tail).run s).2.registers = s.registers.stores writes := by
  induction writes generalizing s with
  | nil => exact silent s
  | cons write writes ih =>
    have shape : (storing (write :: writes) >>= fun _ => tail) =
        perform (.store write.1 write.2) fun _ => storing writes >>= fun _ => tail := rfl
    rw [shape, RegisterFile.stores, run, interpret, Station.perform_eq, Station.apply]
    cases s.registers.write? write.1 write.2 with
    | none => rfl
    | some after => exact ih _

namespace FilterFlags

variable {flags : FilterFlags}

theorem contains_twoPow (bit : Nat) (inside : bit < 32) :
    flags.contains ⟨BitVec.twoPow 32 bit⟩ = flags.bits.getLsbD bit := by
  have apart : BitVec.twoPow 32 bit ≠ 0 := fun zero => by
    have same := congrArg (BitVec.getLsbD · bit) zero
    simp [inside] at same
  rw [contains, BitVec.and_twoPow]
  cases flags.bits.getLsbD bit with
  | false => exact beq_false_of_ne apart.symm
  | true => exact beq_self_eq_true _

theorem contains_directed : flags.contains .directed = flags.bits.getLsbD 0 :=
  contains_twoPow 0 (by decide)

theorem contains_multicast : flags.contains .multicast = flags.bits.getLsbD 1 :=
  contains_twoPow 1 (by decide)

theorem contains_allMulticast : flags.contains .allMulticast = flags.bits.getLsbD 2 :=
  contains_twoPow 2 (by decide)

theorem contains_broadcast : flags.contains .broadcast = flags.bits.getLsbD 3 :=
  contains_twoPow 3 (by decide)

theorem contains_promiscuous : flags.contains .promiscuous = flags.bits.getLsbD 5 :=
  contains_twoPow 5 (by decide)

def group? (flags : FilterFlags) (multicast : List LinkLayerAddress) (slot : Nat) :
    Option (List Byte) :=
  if flags.bits.getLsbD 1 then
    (multicast[slot - 1]?.filter fun entry => 6 ≤ entry.octets.length).map fun entry =>
      entry.octets.take 6
  else Option.none

end FilterFlags

def slotWrites (slot : Nat) (octets : List Byte) (on : Bool) : List (Nat × Word) :=
  let octet (i : Nat) : Nat := (octets.getD i 0).toNat
  [(0x300 + 8 * slot, .ofNat 32 (octet 4 + 0x100 * octet 5 + 0x80000000 * on.toNat)),
    (0x304 + 8 * slot,
      .ofNat 32 (octet 0 + 0x100 * octet 1 + 0x10000 * octet 2 + 0x1000000 * octet 3))]

def groupWrites (slot : Nat) : Option (List Byte) → List (Nat × Word)
  | some octets => slotWrites slot octets true
  | none => slotWrites slot (List.replicate 6 0) false

def tableWrites (size : Nat) (current : MacAddress) (flags : FilterFlags)
    (multicast : List LinkLayerAddress) : List (Nat × Word) :=
  slotWrites 0 current.octets (flags.bits.getLsbD 0) ++
    (List.range' 1 (size - 1)).flatMap fun slot => groupWrites slot (flags.group? multicast slot)

def FilterFlags.selection (flags : FilterFlags) : Word :=
  .ofNat 32 (0x10 * (flags.bits.getLsbD 2).toNat + 0x20 * (!flags.bits.getLsbD 3).toNat)

theorem writeSlot_eq {slot : Nat} (inside : slot < Register.slotLimit) (address : MacAddress)
    (on : Bool) : writeSlot slot address on = storing (slotWrites slot address.octets on) := by
  have high : address.highWord on =
      .ofNat 32 (address.b4.toNat + 0x100 * address.b5.toNat + 0x80000000 * on.toNat) := by
    rw [← address.toNat_highWord_flag, BitVec.ofNat_toNat, BitVec.setWidth_eq]
  have low : address.lowWord = .ofNat 32 (address.b0.toNat + 0x100 * address.b1.toNat +
      0x10000 * address.b2.toNat + 0x1000000 * address.b3.toNat) := by
    rw [← address.toNat_lowWord, BitVec.ofNat_toNat, BitVec.setWidth_eq]
  have offsets : Register.addressHigh slot = 0x300 + 8 * slot ∧
      Register.addressLow slot = 0x304 + 8 * slot := by
    simp only [Register.addressHigh, Register.addressLow, Register.addressTable,
      Register.addressStride]
    omega
  rw [writeSlot_of_lt inside, high, low, offsets.1, offsets.2, slotWrites, storing_cons,
    storing_one]
  rfl

theorem FilterFlags.octets_entry (flags : FilterFlags) (multicast : List LinkLayerAddress)
    (slot : Nat) :
    (flags.entry multicast slot).map MacAddress.octets = flags.group? multicast slot := by
  unfold entry group?
  rw [contains_multicast]
  split
  · cases multicast[slot - 1]? with
    | none => rfl
    | some entry =>
      rw [Option.bind_some, LinkLayerAddress.octets_ethernet?, Option.filter_some]
      by_cases long : 6 ≤ entry.octets.length <;> simp [long]
  · rfl

theorem writeEntry_eq {slot : Nat} (inside : slot < Register.slotLimit) (entry : Option MacAddress) :
    writeEntry slot entry = storing (groupWrites slot (entry.map MacAddress.octets)) := by
  cases entry with
  | none => exact writeSlot_eq inside _ _
  | some address => exact writeSlot_eq inside _ _

variable {tableSize : Nat} {current : MacAddress} {flags : FilterFlags}
  {multicast : List LinkLayerAddress}

theorem forM_writeEntry_eq {slots : List Nat} (inside : ∀ slot ∈ slots, slot < Register.slotLimit) :
    (slots.forM fun slot => writeEntry slot (flags.entry multicast slot)) =
      storing (slots.flatMap fun slot => groupWrites slot (flags.group? multicast slot)) := by
  rw [storing_flatMap]
  induction slots with
  | nil => rfl
  | cons slot slots ih =>
    obtain ⟨first, rest⟩ := List.forall_mem_cons.mp inside
    have now := writeEntry_eq first (flags.entry multicast slot)
    rw [FilterFlags.octets_entry] at now
    change (do writeEntry slot (flags.entry multicast slot); slots.forM _) = (do _; slots.forM _)
    rw [now, ih rest]

theorem applyFilter_of_promiscuous (promiscuous : flags.bits.getLsbD 5 = true) :
    applyFilter tableSize current flags multicast = storing [(0x008, 1)] := by
  rw [applyFilter, FilterFlags.contains_promiscuous, if_pos promiscuous]
  rfl

theorem applyFilter_of_selective (selective : flags.bits.getLsbD 5 = false) :
    applyFilter tableSize current flags multicast = (do
      storing (slotWrites 0 current.octets (flags.bits.getLsbD 0))
      (List.range' 1 (tableSize - 1)).forM fun slot => writeEntry slot (flags.entry multicast slot)
      storing [(0x008, flags.selection)]) := by
  have packet : ((0 : Word)
      |> MacPacketFilter.passAllMulticast.assign (flags.bits.getLsbD 2)
      |> MacPacketFilter.dropBroadcast.assign (!flags.bits.getLsbD 3)) = flags.selection := by
    unfold FilterFlags.selection
    cases flags.bits.getLsbD 2 <;> cases flags.bits.getLsbD 3 <;> decide
  rw [applyFilter, FilterFlags.contains_promiscuous, if_neg (Bool.eq_false_iff.mp selective),
    writeSlot_eq (by decide), FilterFlags.contains_directed, FilterFlags.contains_allMulticast,
    FilterFlags.contains_broadcast, packet]
  rfl

theorem applyFilter_of_fits (selective : flags.bits.getLsbD 5 = false)
    (fits : tableSize ≤ Register.slotLimit) :
    applyFilter tableSize current flags multicast =
      storing (tableWrites tableSize current flags multicast ++ [(0x008, flags.selection)]) := by
  have inside (slot : Nat) (member : slot ∈ List.range' 1 (tableSize - 1)) :
      slot < Register.slotLimit := by
    have bounds := List.mem_range'_1.mp member
    omega
  rw [applyFilter_of_selective selective, forM_writeEntry_eq inside, tableWrites, storing_append,
    storing_append, LawfulMonad.bind_assoc]

theorem writeEntry_slotLimit (entry : Option MacAddress) :
    writeEntry Register.slotLimit entry = fail .slotTooFar := by
  have none (address : MacAddress) (on : Bool) :
      writeSlot Register.slotLimit address on = fail .slotTooFar := if_neg (Nat.lt_irrefl _)
  cases entry with
  | none => exact none _ _
  | some address => exact none _ _

/-- Where the table goes on beyond the last offset, the request stops at the first slot without. -/
theorem applyFilter_of_exceeds (selective : flags.bits.getLsbD 5 = false)
    (exceeds : Register.slotLimit < tableSize) :
    applyFilter tableSize current flags multicast = (do
      storing (tableWrites Register.slotLimit current flags multicast)
      fail .slotTooFar) := by
  obtain ⟨more, rfl⟩ := Nat.exists_eq_add_of_lt exceeds
  have slots : List.range' 1 (Register.slotLimit + more + 1 - 1) =
      List.range' 1 (Register.slotLimit - 1) ++
        Register.slotLimit :: List.range' (Register.slotLimit + 1) more := by
    have positive : 1 ≤ Register.slotLimit := by decide
    have next : 1 + (Register.slotLimit - 1) = Register.slotLimit := by omega
    have length : Register.slotLimit + more + 1 - 1 = Register.slotLimit - 1 + (more + 1) := by
      omega
    rw [length, ← List.range'_append_1, List.range'_succ, next]
  have inside (slot : Nat) (member : slot ∈ List.range' 1 (Register.slotLimit - 1)) :
      slot < Register.slotLimit := by
    have bounds := List.mem_range'_1.mp member
    omega
  have loop : ((List.range' 1 (Register.slotLimit + more + 1 - 1)).forM fun slot =>
      writeEntry slot (flags.entry multicast slot)) = (do
        storing ((List.range' 1 (Register.slotLimit - 1)).flatMap fun slot =>
          groupWrites slot (flags.group? multicast slot))
        fail .slotTooFar) := by
    rw [slots, ← forM_writeEntry_eq inside]
    refine List.forM_append.trans (congrArg _ (funext fun _ => ?_))
    refine List.forM_cons.trans ?_
    rw [writeEntry_slotLimit, fail_bind]
  rw [applyFilter_of_selective selective, loop, tableWrites, storing_append,
    LawfulMonad.bind_assoc, LawfulMonad.bind_assoc, fail_bind]

theorem mem_slotWrites {slot : Nat} {octets : List Byte} {on : Bool} {write : Nat × Word}
    (member : write ∈ slotWrites slot octets on) :
    write.1 = 0x300 + 8 * slot ∨ write.1 = 0x304 + 8 * slot := by
  rcases List.mem_cons.mp member with rfl | member
  · exact .inl rfl
  · exact .inr (congrArg Prod.fst (List.mem_singleton.mp member))

theorem groupWrites_eq (slot : Nat) (group : Option (List Byte)) :
    ∃ octets on, groupWrites slot group = slotWrites slot octets on := by
  cases group with
  | none => exact ⟨_, _, rfl⟩
  | some octets => exact ⟨_, _, rfl⟩

theorem slotWrites_distinct (slot : Nat) (octets : List Byte) (on : Bool) :
    (slotWrites slot octets on).Pairwise RegisterFile.WritesApart := by
  simp [slotWrites, RegisterFile.WritesApart]

theorem groupWrites_distinct (slot : Nat) (group : Option (List Byte)) :
    (groupWrites slot group).Pairwise RegisterFile.WritesApart := by
  obtain ⟨octets, on, same⟩ := groupWrites_eq slot group
  exact same ▸ slotWrites_distinct slot octets on

theorem mem_groupWrites {slot : Nat} {group : Option (List Byte)} {write : Nat × Word}
    (member : write ∈ groupWrites slot group) :
    write.1 = 0x300 + 8 * slot ∨ write.1 = 0x304 + 8 * slot := by
  obtain ⟨octets, on, same⟩ := groupWrites_eq slot group
  exact mem_slotWrites (same ▸ member)

theorem tableWrites_distinct (size : Nat) (current : MacAddress) (flags : FilterFlags)
    (multicast : List LinkLayerAddress) (packet : Word) :
    (tableWrites size current flags multicast ++ [(0x008, packet)]).Pairwise
      RegisterFile.WritesApart := by
  have slots : ((List.range' 1 (size - 1)).flatMap fun slot =>
      groupWrites slot (flags.group? multicast slot)).Pairwise RegisterFile.WritesApart := by
    rw [List.pairwise_flatMap]
    refine ⟨fun slot _ => groupWrites_distinct _ _, List.Pairwise.imp ?_ List.nodup_range'⟩
    intro slot later apart one first other second
    have here := mem_groupWrites first
    have there := mem_groupWrites second
    unfold RegisterFile.WritesApart
    omega
  have table : (tableWrites size current flags multicast).Pairwise RegisterFile.WritesApart := by
    refine List.pairwise_append.mpr ⟨slotWrites_distinct _ _ _, slots, fun one first other later => ?_⟩
    obtain ⟨slot, member, later⟩ := List.mem_flatMap.mp later
    have positive := (List.mem_range'_1.mp member).1
    have here := mem_slotWrites first
    have there := mem_groupWrites later
    unfold RegisterFile.WritesApart
    omega
  refine List.pairwise_append.mpr ⟨table, List.pairwise_singleton _ _, fun one first other last => ?_⟩
  cases List.mem_singleton.mp last
  have beyond : 0x300 ≤ one.1 := by
    rcases List.mem_append.mp first with first | first
    · have here := mem_slotWrites first
      omega
    · obtain ⟨slot, _, first⟩ := List.mem_flatMap.mp first
      have here := mem_groupWrites first
      omega
  unfold RegisterFile.WritesApart
  omega

/-- Whatever becomes of the request, it leaves the registers as some of its writes do. -/
theorem applyFilter_stores (tableSize : Nat) (current : MacAddress) (flags : FilterFlags)
    (multicast : List LinkLayerAddress) :
    ∃ writes : List (Nat × Word), writes.Pairwise RegisterFile.WritesApart ∧ ∀ s : Station,
      ((applyFilter tableSize current flags multicast).run s).2.registers =
        s.registers.stores writes := by
  have whole (writes : List (Nat × Word)) (s : Station) :
      ((storing writes).run s).2.registers = s.registers.stores writes := by
    rw [← @run_storing (done ()) fun _ => rfl]
    exact congrArg (fun p : Program Unit => (p.run s).2.registers) (bind_done _).symm
  cases kind : flags.bits.getLsbD 5 with
  | true =>
    refine ⟨[(0x008, 1)], List.pairwise_singleton _ _, fun s => ?_⟩
    rw [applyFilter_of_promiscuous kind, whole]
  | false =>
    rcases Nat.lt_or_ge Register.slotLimit tableSize with exceeds | fits
    · refine ⟨tableWrites Register.slotLimit current flags multicast, ?_, fun s => ?_⟩
      · exact (List.pairwise_append.mp (tableWrites_distinct _ current flags multicast 0)).1
      · rw [applyFilter_of_exceeds kind exceeds, run_storing fun _ => rfl]
    · refine ⟨_, tableWrites_distinct tableSize current flags multicast flags.selection, fun s => ?_⟩
      rw [applyFilter_of_fits kind fits, whole]

structure FilterSequence (tableSize : Nat) (current : MacAddress) (flags : FilterFlags)
    (multicast : List LinkLayerAddress) : Prop where
  promiscuous : flags.bits.getLsbD 5 = true →
    applyFilter tableSize current flags multicast = store 0x008 1
  selective : flags.bits.getLsbD 5 = false → tableSize ≤ Register.slotLimit →
    applyFilter tableSize current flags multicast =
      storing (tableWrites tableSize current flags multicast ++ [(0x008, flags.selection)])
  /-- A slot whose offset is beyond 64 bits cannot be written. -/
  exceeding : flags.bits.getLsbD 5 = false → Register.slotLimit < tableSize →
    applyFilter tableSize current flags multicast =
      (do storing (tableWrites Register.slotLimit current flags multicast); fail .slotTooFar)
  unread : (applyFilter tableSize current flags multicast).Only fun e =>
    (∃ offset value, e = .store offset value) ∨ e = .fault .slotTooFar
  unknown : ∀ other : FilterFlags,
    (∀ bit ∈ [0, 1, 2, 3, 5], other.bits.getLsbD bit = flags.bits.getLsbD bit) →
    applyFilter tableSize current other multicast = applyFilter tableSize current flags multicast
  /-- Made again, even after a fault, the request leaves the registers as they are. -/
  again : ∀ s : Station,
    ((applyFilter tableSize current flags multicast).run
      ((applyFilter tableSize current flags multicast).run s).2).2.registers =
        ((applyFilter tableSize current flags multicast).run s).2.registers

theorem applyFilter_sequence (tableSize : Nat) (current : MacAddress) (flags : FilterFlags)
    (multicast : List LinkLayerAddress) : FilterSequence tableSize current flags multicast where
  promiscuous promiscuous := applyFilter_of_promiscuous promiscuous
  selective := applyFilter_of_fits
  exceeding := applyFilter_of_exceeds
  unread := (applyFilter_only tableSize current flags multicast).mono fun e allowed => by
    cases e with
    | store offset value => exact .inl ⟨offset, value, rfl⟩
    | fault cause => exact .inr (congrArg Effect.fault allowed.1)
    | _ => cases allowed
  unknown other same := by
    simp only [applyFilter, FilterFlags.contains_directed, FilterFlags.contains_multicast,
      FilterFlags.contains_allMulticast, FilterFlags.contains_broadcast,
      FilterFlags.contains_promiscuous, same 0 (by decide), same 1 (by decide), same 2 (by decide),
      same 3 (by decide), same 5 (by decide)]
  again s := by
    obtain ⟨writes, distinct, stores⟩ := applyFilter_stores tableSize current flags multicast
    rw [stores, stores, RegisterFile.stores_stores _ distinct]

end EthernetMac
