import EthernetMac.Proofs.Address.Selection
import EthernetMac.Proofs.Filter.Reflection

namespace EthernetMac

open Program

/-- The slots after the first that take part, in order. -/
def RegisterFile.heard (f : RegisterFile) (tableSize : Nat) : List MacAddress :=
  ((List.range' 1 (tableSize - 1)).filter f.listens).map f.stored

/-- What the slots after the first hold, read in order, is the front of the list. -/
theorem entries_in_order {α β : Type} (f : α → Option β) (items : List α) (room : Nat) :
    (List.range' 1 room).filterMap (fun slot => items[slot - 1]?.bind f) =
      (items.take room).filterMap f := by
  induction room with
  | zero => rfl
  | succ room ih =>
    rw [List.range'_1_concat, List.filterMap_append, ih, List.take_add_one, List.filterMap_append,
      List.filterMap_cons, Nat.add_sub_cancel_left]
    cases items[room]? <;> rfl

theorem written_congr {f g : Nat → Word} {offset : Nat} (same : f offset = g offset)
    (writes : List (Nat × Word)) : written f writes offset = written g writes offset := by
  induction writes generalizing f g with
  | nil => exact same
  | cons write rest ih =>
    refine ih ?_
    unfold put
    rw [same]

theorem Station.Does.cells {s after : Station} {deeds : List Deed} (does : s.Does deeds after)
    {offset : Nat} (inside : Register.Filtering offset) :
    after.registers.cell offset = written s.registers.cell (writes deeds) offset := by
  induction deeds generalizing s with
  | nil =>
    cases does
    rfl
  | cons deed deeds ih =>
    obtain ⟨mid, performed, does⟩ := does
    obtain ⟨applied, reply, rfl⟩ := Station.perform_iff.mp performed
    have first : Follows Register.Filtering s [deed] applied :=
      (Follows.refl s).snoc Register.filtering_settles reply
    rw [ih does, writes_cons, written_append]
    exact written_congr (first.cells offset inside) _

theorem RegisterFile.heard_of_holds {f : RegisterFile} {entry : Nat → Option MacAddress}
    {slots : List Nat}
    (holds : ∀ slot ∈ slots, f.Holds slot ((entry slot).getD .zero) (entry slot).isSome) :
    (slots.filter f.listens).map f.stored = slots.filterMap entry := by
  induction slots with
  | nil => rfl
  | cons slot slots ih =>
    obtain ⟨now, later⟩ := List.forall_mem_cons.mp holds
    have listens := now.listens
    have stored := now.stored
    rw [List.filter_cons, List.filterMap_cons, listens]
    cases found : entry slot with
    | none => exact ih later
    | some address =>
      rw [found] at stored
      change f.stored slot :: (slots.filter f.listens).map f.stored = _
      rw [stored, ih later]
      rfl

theorem Programmed.heard {tableSize : Nat} {current : MacAddress} {flags : FilterFlags}
    {multicast : List LinkLayerAddress} {before after : RegisterFile}
    (programmed : Programmed tableSize current flags multicast before after)
    (wants : flags.contains .multicast = true) (selective : flags.contains .promiscuous = false) :
    after.heard tableSize =
      (multicast.take (tableSize - 1)).filterMap LinkLayerAddress.ethernet? := by
  have wanted : flags.entry multicast = fun slot =>
      multicast[slot - 1]?.bind LinkLayerAddress.ethernet? := by
    funext slot
    rw [FilterFlags.entry, if_pos wants]
  rw [← entries_in_order, ← wanted]
  refine RegisterFile.heard_of_holds fun slot member => ?_
  have bounds := List.mem_range'_1.mp member
  exact programmed.entries selective slot (by omega) (by omega)

theorem forM_congr {α : Type} {items : List α} {first second : α → Program Unit}
    (same : ∀ item ∈ items, first item = second item) : items.forM first = items.forM second := by
  induction items with
  | nil => rfl
  | cons item items ih =>
    obtain ⟨now, later⟩ := List.forall_mem_cons.mp same
    change (first item >>= fun _ => items.forM first) = second item >>= fun _ => items.forM second
    rw [now, ih later]

/-- The entries that there is no room for do not matter. -/
theorem applyFilter_take (tableSize : Nat) (current : MacAddress) (flags : FilterFlags)
    (multicast : List LinkLayerAddress) :
    applyFilter tableSize current flags multicast =
      applyFilter tableSize current flags (multicast.take (tableSize - 1)) := by
  have entry (slot : Nat) (member : slot ∈ List.range' 1 (tableSize - 1)) :
      (if flags.contains .multicast then multicast else [])[slot - 1]? =
        (if flags.contains .multicast then multicast.take (tableSize - 1) else [])[slot - 1]? := by
    have bounds := List.mem_range'_1.mp member
    split
    · rw [List.getElem?_take_of_lt (by omega)]
    · rfl
  have loop := forM_congr fun slot member => congrArg
    (fun found => writeEntry slot (found.bind LinkLayerAddress.ethernet?)) (entry slot member)
  unfold applyFilter
  simp only [loop]

theorem Features.supports_multicast (f : Features) :
    f.filter.supported.contains .multicast = true ↔ 0 < f.filter.maxMulticast := by
  unfold filter
  by_cases room : 0 < f.addressCount - 1
  · simp only [room, if_true, iff_true]
    decide
  · simp only [room, if_false, iff_false]
    decide

theorem octets_of_long {multicast : List LinkLayerAddress}
    (long : ∀ entry ∈ multicast, MacAddress.size ≤ entry.length) :
    (multicast.filterMap LinkLayerAddress.ethernet?).map MacAddress.octets =
      multicast.map fun entry => entry.octets.take MacAddress.size := by
  induction multicast with
  | nil => rfl
  | cons entry multicast ih =>
    obtain ⟨now, later⟩ := List.forall_mem_cons.mp long
    obtain ⟨mac, found, octets⟩ := LinkLayerAddress.ethernet?_of_long now
    rw [List.filterMap_cons, found, List.map_cons, List.map_cons, octets, ih later]

theorem filter_runs (a : Adapter) (flags : FilterFlags) (multicast : List LinkLayerAddress)
    (s : Station) :
    ∃ after, ((Operation.filter flags multicast).task (.device a)).run s =
        (.ok (.finished .ok), after) ∧
      Programmed a.features.addressCount a.current flags multicast s.registers after.registers := by
  have fits := Register.addressCount_le a.features
  have only := applyFilter_only a.features.addressCount a.current flags multicast
  have task : (Operation.filter flags multicast).task (.device a) =
      .once (applyFilter a.features.addressCount a.current flags multicast) fun _ => .ok := rfl
  have whole : ((Operation.filter flags multicast).task (.device a)).Only
      (filterActions a.features.addressCount) := only.bind fun _ => .pure _
  obtain ⟨result, after, ran⟩ := whole.run (filterActions_safe fits) s
  obtain ⟨deeds, course, does⟩ := run_eq_ok_iff.mp ran
  rw [task, course_once] at course
  obtain ⟨_, course, rfl⟩ := course
  obtain rfl := applyFilter_course (Nat.le_trans fits Register.tableSlots_le) course
  exact ⟨after, ran, filterDeeds_programmed fits fun _ => does.cells⟩

/-- What is published about multicast reception is what a request for a multicast list keeps. -/
theorem multicast_capacity (a : Adapter) (flags : FilterFlags) (multicast : List LinkLayerAddress)
    (wants : flags.contains .multicast = true) (selective : flags.contains .promiscuous = false)
    (long : ∀ entry ∈ multicast, MacAddress.size ≤ entry.length) (s : Station) :
    (∃ after, ((Operation.filter flags multicast).task (.device a)).run s =
        (.ok (.finished .ok), after) ∧
      (∀ i (inside : i < multicast.length), i < a.features.filter.maxMulticast →
        i + 1 < a.features.addressCount ∧ after.registers.listens (i + 1) = true ∧
          (after.registers.stored (i + 1)).octets = multicast[i].octets.take MacAddress.size) ∧
      (after.registers.heard a.features.addressCount).map MacAddress.octets =
        (multicast.take a.features.filter.maxMulticast).map fun entry =>
          entry.octets.take MacAddress.size) ∧
    (Operation.filter flags multicast).task (.device a) =
      (Operation.filter flags (multicast.take a.features.filter.maxMulticast)).task (.device a) ∧
    (a.features.filter.supported.contains .multicast = true ↔
      ∃ slot, 0 < slot ∧ slot < a.features.addressCount) ∧
    ∀ config resources deeds capabilities, (Adapter.prepare config resources).Course deeds (.ok a) →
      (⟨.publishCapabilities capabilities, ()⟩ : Deed) ∈ deeds →
        capabilities.filter = a.features.filter := by
  have room : a.features.filter.maxMulticast = a.features.addressCount - 1 := rfl
  obtain ⟨after, ran, programmed⟩ := filter_runs a flags multicast s
  refine ⟨⟨after, ran, fun i inside few => ?_, ?_⟩, ?_, ?_, ?_⟩
  · rw [room] at few
    have holds := programmed.entries selective (i + 1) (Nat.succ_pos i) (by omega)
    obtain ⟨mac, found, octets⟩ :=
      LinkLayerAddress.ethernet?_of_long (long _ (List.getElem_mem inside))
    have wanted : flags.entry multicast (i + 1) = some mac := by
      rw [FilterFlags.entry, if_pos wants, Nat.add_sub_cancel, List.getElem?_eq_getElem inside]
      exact found
    rw [wanted] at holds
    refine ⟨by omega, holds.listens, ?_⟩
    rw [holds.stored]
    exact octets
  · rw [programmed.heard wants selective, ← room]
    exact octets_of_long fun entry member => long entry (List.mem_of_mem_take member)
  · change Task.once (applyFilter _ _ flags multicast) _ = Task.once (applyFilter _ _ flags _) _
    rw [applyFilter_take, room]
  · rw [Features.supports_multicast, room]
    exact ⟨fun _ => ⟨1, by omega, by omega⟩, fun ⟨slot, _, _⟩ => by omega⟩
  · intro config resources deeds capabilities course published
    rw [(Adapter.prepare_shows course).published published]
    rfl

def twoGroups : Adapter where
  line := 40
  features := ⟨0x5251, 3 <<< 18, 0, 0, 0⟩
  dma := .ofWidth .bits32
  permanent := .zero
  current := .synthesized ⟨#[1, 2, 3, 4], rfl⟩

theorem multicast_capacity_twoGroups :
    ∃ after, ((Operation.filter .multicast [oneGroup, otherGroup, oneGroup]).task
        (.device twoGroups)).run threeSlots.station = (.ok (.finished .ok), after) ∧
      (after.registers.heard 3).map MacAddress.octets = [oneGroup.octets, otherGroup.octets] ∧
      twoGroups.features.filter.supported.contains .multicast = true := by
  obtain ⟨⟨after, ran, _, heard⟩, _, supports, _⟩ := multicast_capacity twoGroups
    .multicast [oneGroup, otherGroup, oneGroup] rfl rfl (by decide) threeSlots.station
  exact ⟨after, ran, heard, supports.mpr ⟨1, by decide, by decide⟩⟩

end EthernetMac
