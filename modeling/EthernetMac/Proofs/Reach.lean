import EthernetMac.Proofs.Address.Table
import EthernetMac.Proofs.Solo

/-! How far the driver reaches: every access is to a listed register or to a slot of the address
table, and both lie in the register window, apart from each other. -/

namespace EthernetMac

open Program

namespace Register

def Listed (offset : Nat) : Prop := offset ∈ directory.map Prod.snd

instance (offset : Nat) : Decidable (Listed offset) := inferInstanceAs (Decidable (_ ∈ _))

def SlotWord (slots offset : Nat) : Prop :=
  ∃ slot < slots, offset = addressHigh slot ∨ offset = addressLow slot

variable {slots offset : Nat}

theorem Listed.inWindow (listed : Listed offset) : RegisterFile.InWindow offset := by
  have all : ∀ offset ∈ directory.map Prod.snd, RegisterFile.InWindow offset := by decide
  exact all offset listed

theorem Listed.outside (listed : Listed offset) : offset = macPacketFilter ∨ ¬ Filtering offset := by
  have all : ∀ offset ∈ directory.map Prod.snd, offset = macPacketFilter ∨ ¬ Filtering offset := by
    decide
  exact all offset listed

theorem SlotWord.inWindow (word : SlotWord slots offset) (fits : slots ≤ tableSlots) :
    RegisterFile.InWindow offset := by
  obtain ⟨slot, inside, word⟩ := word
  have below : slot < 128 := Nat.lt_of_lt_of_le inside fits
  simp only [RegisterFile.InWindow, windowSize, addressHigh, addressLow, addressTable,
    addressStride] at *
  omega

theorem SlotWord.mono {more : Nat} (word : SlotWord slots offset) (le : slots ≤ more) :
    SlotWord more offset := by
  obtain ⟨slot, inside, word⟩ := word
  exact ⟨slot, Nat.lt_of_lt_of_le inside le, word⟩

theorem SlotWord.not_listed (word : SlotWord slots offset) (fits : slots ≤ tableSlots) :
    ¬ Listed offset := by
  intro listed
  obtain ⟨slot, inside, word⟩ := word
  have below : slot < tableSlots := Nat.lt_of_lt_of_le inside fits
  rcases listed.outside with filter | outside
  · obtain ⟨_, high, low⟩ := words_apart slot
    rcases word with rfl | rfl
    · exact high filter
    · exact low filter
  · obtain ⟨high, low⟩ := slot_apart outside below
    rcases word with rfl | rfl
    · exact high rfl
    · exact low rfl

end Register

def Target.tableSize : Target → Nat
  | .device a => max 1 a.features.addressCount
  | _ => 1

theorem Target.tableSize_le (target : Target) : target.tableSize ≤ Register.tableSlots := by
  have slots : Register.tableSlots = 128 := rfl
  cases target with
  | device a =>
    have few := a.features.addressCount_lt
    simp only [tableSize]
    omega
  | _ =>
    simp only [tableSize]
    omega

theorem Target.one_le_tableSize (target : Target) : 1 ≤ target.tableSize := by
  cases target with
  | device a => exact Nat.le_max_left ..
  | _ => exact Nat.le_refl 1

def Effect.offset? : Effect → Option Nat
  | load offset | store offset _ => some offset
  | _ => none

def drives (slots : Nat) : Effect → Prop
  | .load offset | .store offset _ => Register.Listed offset ∨ Register.SlotWord slots offset
  | .setActive _ | .fault _ => False
  | _ => True

/-- An access that is asked for from outside, at an offset of the caller's. -/
def Operation.Asks (offset : Nat) : Operation → Prop
  | read asked | load asked => asked = offset
  | write asked _ => asked = offset
  | _ => False

/-- What an operation does to the registers of its target, when it changes the working state, and how
it can fail by itself. -/
def Operation.reaches (op : Operation) (target : Target) : Effect → Prop
  | .load offset | .store offset _ =>
    op.Asks offset ∨ Register.Listed offset ∨ Register.SlotWord target.tableSize offset
  | .setActive on => op = if on then .enterWorking else .leaveWorking
  | .fault cause => op = .leaveWorking ∧ ∃ direction, cause = .queueRegistered direction
  | _ => True

section Drives

variable {slots : Nat}

theorem drives_mono {more : Nat} (le : slots ≤ more) (e : Effect) (driven : drives slots e) :
    drives more e := by
  cases e with
  | load | store => exact driven.imp_right fun word => word.mono le
  | fault => exact driven
  | _ => trivial

theorem drives_of_listed {allowed : Effect → Prop}
    (loads : ∀ offset, allowed (.load offset) → Register.Listed offset)
    (stores : ∀ offset value, allowed (.store offset value) → Register.Listed offset)
    (still : ∀ on, ¬ allowed (.setActive on)) (safe : ∀ cause, ¬ allowed (.fault cause))
    (e : Effect) (inside : allowed e) : drives slots e := by
  cases e with
  | load offset => exact .inl (loads offset inside)
  | store offset value => exact .inl (stores offset value inside)
  | setActive on => exact still on inside
  | fault cause => exact safe cause inside
  | _ => trivial

theorem drives_of_mask : ∀ e, maskActions e → drives slots e := by
  refine drives_of_listed nofun ?_ nofun nofun
  rintro _ _ (rfl | rfl) <;> decide

theorem drives_of_section (e : Effect) (inside : sectionActions e) : drives slots e := by
  cases e with
  | load | store | fault => exact drives_of_mask _ inside
  | _ => trivial

theorem drives_of_handler : ∀ e, handlerActions e → drives slots e := by
  refine drives_of_listed ?_ ?_ nofun nofun
  · rintro _ (rfl | rfl | rfl) <;> decide
  · rintro _ _ ⟨⟩
    decide

theorem drives_of_refresh : ∀ e, refreshActions e → drives slots e := by
  refine drives_of_listed ?_ ?_ nofun nofun
  · rintro _ (rfl | rfl) <;> decide
  · rintro _ _ ⟨⟩
    decide

theorem drives_of_serve (e : Effect) (inside : serveActions e) : drives slots e := by
  cases e with
  | load | store | fault => exact drives_of_refresh _ inside
  | _ => trivial

theorem drives_of_reset (e : Effect) (inside : resetActions e) : drives 1 e := by
  cases e with
  | load offset =>
    left
    rw [show offset = _ from inside]
    decide
  | store offset value =>
    rcases inside with rfl | rfl | rfl
    · left
      decide
    · exact .inr ⟨0, Nat.one_pos, .inl rfl⟩
    · exact .inr ⟨0, Nat.one_pos, .inr rfl⟩
  | fault => exact inside.elim
  | _ => trivial

theorem drives_of_filter (f : Features) (e : Effect) (inside : filterActions f.addressCount e) :
    drives (max 1 f.addressCount) e := by
  cases e with
  | store offset value =>
    rcases inside with rfl | word
    · left
      decide
    · exact .inr word
  | fault cause =>
    have few := Register.addressCount_le f
    have slots := Register.tableSlots_le
    exact absurd inside.2 (by omega)
  | _ => exact inside.elim

theorem load_drives {offset : Nat} (listed : Register.Listed offset) :
    (load offset).Only (drives slots) :=
  Only.act (.inl listed)

theorem store_drives {offset : Nat} (value : Word) (listed : Register.Listed offset) :
    (store offset value).Only (drives slots) :=
  Only.store (.inl listed)

theorem readStatistics_drives : readStatistics.Only (drives slots) := by
  unfold readStatistics
  iterate 11 refine (load_drives (by decide)).bind fun _ => ?_
  exact .pure _

theorem drives_of_search (e : Effect) (inside : searchActions e) : drives slots e := by
  cases e <;> first | exact inside.elim | trivial

theorem bringUp_drives (config : HostConfig) (line : Nat) :
    (Adapter.bringUp config line).Only (drives 1) := by
  have permanent : readPermanent.Only (drives 1) := by
    refine Only.bind (Only.act (.inr ⟨0, Nat.one_pos, .inl rfl⟩)) fun _ => ?_
    exact Only.bind (Only.act (.inr ⟨0, Nat.one_pos, .inr rfl⟩)) fun _ => .pure _
  have select (permanent : MacAddress) : (selectCurrent config.address permanent).Only (drives 1) := by
    unfold selectCurrent
    split
    · exact .pure _
    · exact .ite ((Only.act trivial).bind fun _ => .pure _) (.ite (.pure _) (.pure _))
  have features : readFeatures.Only (drives 1) := by
    unfold readFeatures
    iterate 5 refine (load_drives (by decide)).bind fun _ => ?_
    exact .pure _
  have configure : Bus.configure.Only (drives 1) := by
    unfold Bus.configure
    refine (load_drives (by decide)).bind fun _ => (store_drives _ (by decide)).bind fun _ => ?_
    refine (store_drives _ (by decide)).bind fun _ => (load_drives (by decide)).bind fun _ => ?_
    exact (store_drives _ (by decide)).bind fun _ => store_drives _ (by decide)
  refine permanent.bind fun permanent => (select permanent).bind fun current => ?_
  refine features.bind fun features => ?_
  split
  · exact .pure _
  · refine (Only.act trivial).bind fun _ => (Only.act trivial).bind fun _ => ?_
    refine ((softReset_only _).mono drives_of_reset).bind fun reset => ?_
    split
    · exact .pure _
    · exact configure.bind fun _ => (Only.act trivial).bind fun _ => .ite (.pure _) (.pure _)

theorem prepare_drives (config : HostConfig) (resources : List Resource) :
    (Task.prepare config resources).Only (drives 1) := by
  have brings : (Adapter.prepare config resources).Only (drives 1) := by
    refine ((scan_only resources {}).mono drives_of_search).bind fun scanned => ?_
    split
    · exact .pure _
    · refine (bringUp_drives config _).bind fun up => ?_
      split
      · exact (Only.act trivial).bind fun _ => .pure _
      · exact .pure _
  refine brings.bind fun result => ?_
  split
  · exact (Only.act trivial).bind fun _ => .pure _
  · exact .pure _

theorem release_drives (a : Adapter) : (Task.release a).Only (drives 1) := by
  have reset := (softReset_only a.permanent).mono drives_of_reset
  refine (Only.act trivial).bind fun _ => Only.bind ?_ fun _ => .pure _
  refine reset.bind fun _ => (Only.act trivial).bind fun _ => ?_
  split <;> exact .pure _

end Drives

namespace Operation

variable {op : Operation} {target : Target}

theorem reaches_of_drives (e : Effect) (driven : drives target.tableSize e) : op.reaches target e := by
  cases e with
  | load | store => exact .inr driven
  | setActive | fault => exact driven.elim
  | _ => trivial

theorem enterWorking_reaches (a : Adapter) (target : Target) :
    a.enterWorking.Only (enterWorking.reaches target) := by
  refine a.enterWorking_only.mono fun e inside => ?_
  cases e with
  | setActive on =>
    cases inside
    rfl
  | load offset =>
    have listed : ∀ offset ∈ [Register.macPhyStatus, Register.macConfiguration,
        Register.channelStatus], Register.Listed offset := by decide
    exact .inr (.inl (listed offset inside))
  | store offset value =>
    have listed : ∀ offset ∈ Register.macConfiguration :: Register.channelStatus :: Working.setUp,
        Register.Listed offset := by decide
    rcases inside with power | mask
    · exact .inr (.inl (listed offset power))
    · exact reaches_of_drives _ (drives_of_mask _ mask)
  | fault => exact inside.elim
  | _ => trivial

theorem leaveWorking_reaches (target : Target) :
    Adapter.leaveWorking.Only (leaveWorking.reaches target) := by
  refine Adapter.leaveWorking_only.mono fun e inside => ?_
  cases e with
  | setActive on =>
    cases inside
    rfl
  | load offset =>
    cases inside
    exact .inr (.inl (by decide))
  | store offset value =>
    rcases inside with rfl | mask
    · exact .inr (.inl (by decide))
    · exact reaches_of_drives _ (drives_of_mask _ mask)
  | fault => exact ⟨rfl, inside⟩
  | _ => trivial

theorem deferred_drives {linkChange : Program Unit} {slots : Nat}
    (either : linkChange = act .linkChanged ∨ linkChange = discard refreshLink) :
    (Task.deferred linkChange).Only (drives slots) := by
  have serve (causes : Causes) : (Interrupt.serve linkChange causes).Only (drives slots) :=
    Interrupt.serve_obeys either (fun e inside => ⟨drives_of_serve e inside, fun _ => rfl⟩)
      trivial (Only.onlyIf ((Interrupt.serveQueues_only causes).mono drives_of_section))
  refine Only.bind (Only.bind (Only.act trivial) fun word => ?_) fun round => ?_
  · exact .ite (.pure _) ((serve _).bind fun _ => .pure _)
  · cases round <;> exact .pure _

/-- A filter request goes as far as the table of its device. -/
theorem filter_only (flags : FilterFlags) (multicast : List LinkLayerAddress) (target : Target) :
    ((filter flags multicast).task target).Only fun e =>
      ∃ f : Features, target.tableSize = max 1 f.addressCount ∧ filterActions f.addressCount e := by
  cases target with
  | device a =>
    refine Only.bind ((applyFilter_only ..).mono fun e inside => ?_) fun _ => .pure _
    exact ⟨a.features, rfl, inside⟩
  | _ => exact .pure _

theorem reaches_only (op : Operation) (target : Target) : (op.task target).Only (op.reaches target) := by
  have once {α : Type} {p : Program α} {answer : α → Answer} (only : p.Only (drives target.tableSize)) :
      (Task.once p answer).Only (op.reaches target) :=
    (only.mono reaches_of_drives).bind fun _ => .pure _
  have early {p : Task} (only : p.Only (drives 1)) : p.Only (op.reaches target) :=
    (only.mono (drives_mono target.one_le_tableSize)).mono reaches_of_drives
  by_cases inService : op.InService
  · by_cases filters : ∃ flags multicast, op = filter flags multicast
    · obtain ⟨flags, multicast, rfl⟩ := filters
      refine (filter_only flags multicast target).mono ?_
      rintro e ⟨f, size, inside⟩
      exact reaches_of_drives e (size ▸ drives_of_filter f e inside)
    · have work := op.work inService target
      generalize op.task target = task at work
      cases work with
      | nothing => exact .pure _
      | read | load => exact Only.bind (Only.act (.inl rfl)) fun _ => .pure _
      | write => exact Only.bind (Only.store (.inl rfl)) fun _ => .pure _
      | statistics => exact once readStatistics_drives
      | filter => exact absurd ⟨_, _, rfl⟩ filters
      | enterWorking a => exact (enterWorking_reaches a target).bind fun _ => .pure _
      | leaveWorking => exact (leaveWorking_reaches target).bind fun _ => .pure _
      | register direction queue =>
        exact once ((Interrupt.register_only direction queue).mono drives_of_section)
      | enable bits => exact once ((Interrupt.enable_only bits).mono drives_of_section)
      | disable bits => exact once ((Interrupt.disable_only bits).mono drives_of_section)
      | interrupt => exact once (Interrupt.handle_only.mono drives_of_handler)
      | deferred linkChange either => exact (deferred_drives either).mono reaches_of_drives
      | wanted => exact once (Only.act trivial)
      | describe a =>
        exact Only.bind (.act trivial) fun _ => Only.bind (.act trivial) fun _ => .pure _
  · cases op with
    | prepare config resources =>
      cases target with
      | noDevice => exact early (prepare_drives config resources)
      | _ => exact .pure _
    | release =>
      cases target with
      | device a => exact early (release_drives a)
      | _ => exact .pure _
    | _ => exact absurd trivial inService

end Operation

/-- What is left of an operation, and every further round of it, keeps to what it may do. -/
def Frame.Within (allowed : Operation → Target → Effect → Prop) : Frame → Prop
  | .steps _ => True
  | .running op target rest =>
    rest.Only (allowed op target) ∧ (op.task target).Only (allowed op target)

namespace Run

variable {admits : Machine → Step → Prop} {start m : Machine} {history : History}

/-- What every operation keeps to on its target, it keeps to in every run. -/
theorem within (allowed : Operation → Target → Effect → Prop) (resting : start.stack = [])
    (keeps : ∀ (op : Operation) (target : Target), (op.task target).Only (allowed op target))
    (run : Run admits start history m) : ∀ frame ∈ m.stack, frame.Within allowed := by
  refine Run.keeps (P := fun _ _ stack => ∀ frame ∈ stack, frame.Within allowed) ?_
    (fun _ kept => kept) ?_ run
  · rw [resting]
    exact List.forall_mem_nil _
  · intro history m entry after stack _ move _ kept
    generalize m.stack = levels at move kept
    cases move with
    | surround awaits =>
      cases awaits with
      | resting => exact kept
      | nested => exact List.forall_mem_cons.mpr ⟨trivial, (List.forall_mem_cons.mp kept).2⟩
    | @operate op _ below awaits =>
      have lower : ∀ frame ∈ below, frame.Within allowed := by
        cases awaits with
        | resting => exact kept
        | nested => exact List.forall_mem_cons.mpr ⟨trivial, (List.forall_mem_cons.mp kept).2⟩
      exact List.forall_mem_cons.mpr ⟨⟨keeps op _, keeps op _⟩, lower⟩
    | leave | finish => exact (List.forall_mem_cons.mp kept).2
    | @act op target e next below pushed answer _ applied lets =>
      obtain ⟨⟨rest, again⟩, lower⟩ := List.forall_mem_cons.mp kept
      have onward : ∀ frame ∈ .running op target (next answer) :: below, frame.Within allowed :=
        List.forall_mem_cons.mpr ⟨⟨(rest.2 answer).2, again⟩, lower⟩
      rcases lets with rfl | ⟨_, steps, rfl⟩
      · exact onward
      · exact List.forall_mem_cons.mpr ⟨trivial, onward⟩
    | renew =>
      obtain ⟨⟨_, again⟩, lower⟩ := List.forall_mem_cons.mp kept
      exact List.forall_mem_cons.mpr ⟨⟨again, again⟩, lower⟩
    | abort => exact List.forall_mem_nil _

theorem allowed (allowed : Operation → Target → Effect → Prop) (resting : start.stack = [])
    (keeps : ∀ (op : Operation) (target : Target), (op.task target).Only (allowed op target))
    (run : Run admits start history m) {op : Operation} {target : Target} {e : Effect}
    {next : e.Answer → Task} {below : List Frame}
    (top : m.stack = .running op target (.perform e next) :: below) : allowed op target e := by
  have within := run.within allowed resting keeps
  rw [top] at within
  exact (within _ (.head _)).1.1

end Run

structure Confined (op : Operation) (target : Target) (s : Station) (e : Effect) : Prop where
  inside : ∀ offset, e.offset? = some offset → op.Asks offset ∨
    RegisterFile.InWindow offset ∧
      (Register.Listed offset ∨ Register.SlotWord target.tableSize offset)
  /-- The window refuses only what is asked for from outside. -/
  unrefused : s.apply e = .error .badOffset → ∃ offset, e.offset? = some offset ∧ op.Asks offset
  sizes : s.apply e ≠ .error .fifoTooLarge ∧ s.apply e ≠ .error .slotTooFar
  filters : (∃ flags multicast, op = .filter flags multicast) → ∀ (answer : e.Answer) after,
    s.apply e = .ok (answer, after) → ∀ offset, offset ≠ Register.macPacketFilter →
      ¬ Register.SlotWord target.tableSize offset →
        after.registers.cell offset = s.registers.cell offset

theorem Station.Does.cell {s after : Station} {deeds : List Deed} {offset : Nat}
    (does : s.Does deeds after)
    (keeps : ∀ deed ∈ deeds, ∀ t u : Station, t.apply deed.effect = .ok (deed.answer, u) →
      u.registers.cell offset = t.registers.cell offset) :
    after.registers.cell offset = s.registers.cell offset := by
  induction deeds generalizing s with
  | nil =>
    cases does
    rfl
  | cons deed deeds ih =>
    obtain ⟨first, rest⟩ := List.forall_mem_cons.mp keeps
    obtain ⟨mid, performed, onward⟩ := does
    obtain ⟨applied, reply, rfl⟩ := Station.perform_iff.mp performed
    exact (ih onward rest).trans (first s applied reply)

theorem filterActions_cell {tableSize offset : Nat} {s after : Station} {e : Effect}
    {answer : e.Answer} (inside : filterActions tableSize e)
    (applied : s.apply e = .ok (answer, after)) (apart : offset ≠ Register.macPacketFilter)
    (outside : ¬ Register.SlotWord (max 1 tableSize) offset) :
    after.registers.cell offset = s.registers.cell offset := by
  cases e with
  | store written value =>
    refine Station.store_cell applied ?_
    rintro rfl
    rcases inside with same | word
    · exact apart same
    · exact outside word
  | fault => exact answer.elim
  | _ => exact inside.elim

theorem Operation.reaches.accesses {op : Operation} {target : Target} {s : Station} {e : Effect}
    (reaches : op.reaches target e)
    (filters : ∀ flags multicast, op = .filter flags multicast →
      ∃ f : Features, target.tableSize = max 1 f.addressCount ∧ filterActions f.addressCount e) :
    Confined op target s e := by
  have inside : ∀ offset, e.offset? = some offset → op.Asks offset ∨
      RegisterFile.InWindow offset ∧
        (Register.Listed offset ∨ Register.SlotWord target.tableSize offset) := by
    intro offset accessed
    have either : op.Asks offset ∨ Register.Listed offset ∨
        Register.SlotWord target.tableSize offset := by
      cases e <;> cases accessed <;> exact reaches
    refine either.imp_right fun driven => ⟨?_, driven⟩
    rcases driven with listed | word
    · exact listed.inWindow
    · exact word.inWindow target.tableSize_le
  have fails {cause : Fault} (applied : s.apply e = .error cause) :
      (∃ direction, cause = .queueRegistered direction) ∨ cause = .lockHeld ∨
        cause = .badOffset ∧ ∃ offset, e.offset? = some offset ∧ op.Asks offset := by
    rcases Station.apply_error applied with rfl | ⟨_, takes⟩ | ⟨_, offset, outside, access⟩
    · exact .inl reaches.2
    · exact .inr (.inl (Station.apply_error_of_takes applied takes))
    · have accessed : e.offset? = some offset := by
        rcases access with rfl | ⟨value, rfl⟩ <;> rfl
      refine .inr (.inr ⟨?_, offset, accessed, ?_⟩)
      · rcases access with rfl | ⟨value, rfl⟩ <;>
          (simp only [Station.apply] at applied; split at applied <;> cases applied; rfl)
      · exact (inside offset accessed).resolve_right fun within => outside within.1
  constructor
  case inside => exact inside
  case unrefused =>
    intro applied
    rcases fails applied with ⟨_, ⟨⟩⟩ | ⟨⟨⟩⟩ | ⟨_, asked⟩
    exact asked
  case sizes =>
    constructor <;> intro applied <;>
      rcases fails applied with ⟨_, ⟨⟩⟩ | ⟨⟨⟩⟩ | ⟨⟨⟩, _⟩
  case filters =>
    rintro ⟨flags, multicast, rfl⟩ answer after applied offset apart outside
    obtain ⟨f, size, inside⟩ := filters flags multicast rfl
    exact filterActions_cell inside applied apart (size ▸ outside)

structure TableApart : Prop where
  high : ∀ slot other, Register.addressHigh slot = Register.addressHigh other → slot = other
  low : ∀ slot other, Register.addressLow slot = Register.addressLow other → slot = other
  words : ∀ slot other, Register.addressHigh slot ≠ Register.addressLow other
  unlisted : ∀ target offset, Register.SlotWord (Target.tableSize target) offset → ¬ Register.Listed offset

theorem tableApart : TableApart where
  high slot other same :=
    Decidable.byContradiction fun apart => (Register.slots_apart apart).1 same
  low slot other same :=
    Decidable.byContradiction fun apart => (Register.slots_apart apart).2.2.2 same
  words slot other := by
    by_cases here : slot = other
    · rw [here]
      exact (Register.words_apart other).1
    · exact (Register.slots_apart here).2.1
  unlisted target _ word := word.not_listed target.tableSize_le

theorem Operation.filter_run {flags : FilterFlags} {multicast : List LinkLayerAddress}
    {target : Target} {s after : Station} {round : Round Answer}
    (ran : ((filter flags multicast).task target).run s = (.ok round, after)) {offset : Nat}
    (apart : offset ≠ Register.macPacketFilter)
    (outside : ¬ Register.SlotWord target.tableSize offset) :
    after.registers.cell offset = s.registers.cell offset := by
  obtain ⟨deeds, course, does⟩ := run_eq_ok_iff.mp ran
  refine does.cell fun deed member t u applied => ?_
  obtain ⟨f, size, inside⟩ := (filter_only flags multicast target).course course deed member
  exact filterActions_cell inside applied apart (size ▸ outside)

/-- Whatever the registers hold and whatever is asked for, every access of the driver is inside the
register window, to a listed register or to the address table, which lie apart; a filter request
changes the table and the packet filter only, and FIFO sizes are small enough to be shifted by. -/
theorem Run.confined {admits : Machine → Step → Prop} {start m : Machine} {history : History}
    (resting : start.stack = []) (run : Run admits start history m) :
    (∀ op target e next below, m.stack = .running op target (.perform e next) :: below →
      Confined op target m.station e) ∧
    TableApart ∧
    (∀ flags multicast target s round after,
      ((Operation.filter flags multicast).task target).run s = (.ok round, after) →
      ∀ offset, offset ≠ Register.macPacketFilter → ¬ Register.SlotWord target.tableSize offset →
        after.registers.cell offset = s.registers.cell offset) ∧
    ∀ f : Features, f.txFifo < 32 ∧ f.rxFifo < 32 := by
  refine ⟨fun op target e next below top => ?_, tableApart, ?_, Features.fifo_lt⟩
  · have reaches := run.allowed Operation.reaches resting Operation.reaches_only top
    refine reaches.accesses ?_
    rintro flags multicast rfl
    refine run.allowed (fun op target e => ∀ flags multicast, op = .filter flags multicast →
      ∃ f : Features, target.tableSize = max 1 f.addressCount ∧ filterActions f.addressCount e)
      resting ?_ top flags multicast rfl
    intro op target
    by_cases filters : ∃ flags multicast, op = .filter flags multicast
    · obtain ⟨flags, multicast, rfl⟩ := filters
      exact (Operation.filter_only flags multicast target).mono fun e inside _ _ _ => inside
    · exact (Operation.reaches_only op target).mono fun e _ flags multicast same =>
        absurd ⟨flags, multicast, same⟩ filters
  · intro flags multicast target s round after ran offset apart outside
    exact Operation.filter_run ran apart outside

def threeSlotHardware : Machine where
  station :=
    { registers :=
        { cell := fun offset => if offset = Register.macVersion then 0x5251
            else if offset = Register.macFeature0 then 0xC0000 else 0 }
      target := .noDevice }

theorem Run.confined_threeSlotHardware :
    ∃ (m : Machine) (target : Target) (value : Word) (next : Unit → Task) (below : List Frame),
      m.stack = .running (.filter .directed []) target
        (.perform (.store (Register.addressHigh 0) value) next) :: below ∧
      target.tableSize = 3 ∧
      Confined (.filter .directed []) target m.station (.store (Register.addressHigh 0) value) := by
  have begun : Run (fun _ _ => True) threeSlotHardware _ (threeSlotHardware.begin
      (.operation (.prepare {} [.memory 0xA0000000 windowSize, .interrupt 40]))) :=
    Run.refl.begin rfl trivial
  have prepared := begun.advances 60 ⟨rfl, by rintro _ (_ | ⟨_, ⟨⟩⟩) _ ⟨⟩⟩
  have called := @Run.begin _ _ _ _ (.operation (.filter .directed [])) prepared rfl trivial
  obtain ⟨confined, _⟩ := called.confined rfl
  exact ⟨_, _, _, _, _, rfl, by rfl, confined _ _ _ _ _ rfl⟩

end EthernetMac
