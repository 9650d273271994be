import EthernetMac.Proofs.Address.Table
import EthernetMac.Proofs.Adapter.Verdict
import EthernetMac.Proofs.Adapter.Writes

/-! The permanent address from one preparation to the next. It has no place of its own: a
preparation finds it in the first slot and puts the current address there, and a release puts it
back. -/

namespace EthernetMac

open Program

/-- Nobody else writes what decides what is received while an operation is in progress. -/
def Undisturbed (m : Machine) : Step → Prop
  | .set offset _ => ¬ Register.Filtering offset
  | .operation op => m.stack ≠ [] → op.Aside
  | _ => True

def Serving (_ : Machine) : Step → Prop
  | .operation op => op.InService
  | _ => True

theorem undisturbed_confines (op : Operation) :
    Confines Undisturbed op Register.Filtering Effect.KeepsFilter where
  settles := Register.filtering_settles
  spares _ keeps := keeps
  surround m step admitted surrounds offset inside := by
    refine Station.meet_filtering ?_ inside
    rintro other value rfl
    exact admitted
  nested m other own admitted := by
    obtain ⟨frame, member, _⟩ := own
    exact (admitted (List.ne_nil_of_mem member)).only _

namespace Adapter

inductive Leaves (config : HostConfig) (before after : RegisterFile) : Except Error Adapter → Prop where
  | early {cause : Error} (other : cause ≠ .config .datapathStartFailed)
      (same : ∀ offset, Register.Filtering offset → after.cell offset = before.cell offset) :
      Leaves config before after (.error cause)
  | addressed {current : MacAddress} {result : Except Error Adapter}
      (chosen : Chosen config.address (before.stored 0) current) (holds : after.Holds 0 current true)
      (same : ∀ offset, Register.Filtering offset → offset ≠ Register.addressHigh 0 →
        offset ≠ Register.addressLow 0 → after.cell offset = before.cell offset)
      (ends : result = .error (.config .datapathStartFailed) ∨
        ∃ a, result = .ok a ∧ a.permanent = before.stored 0 ∧ a.current = current) :
      Leaves config before after result

theorem announcement_apart {capabilities : Capabilities} {write : Nat × Word}
    (member : write ∈ writes (announcement capabilities)) : ¬ Register.Filtering write.1 := by
  obtain rfl := List.mem_singleton.mp member
  exact (by decide : ¬ Register.Filtering Register.dmaMode)

theorem settings_apart {mode channel : Word} {write : Nat × Word}
    (member : write ∈ writes (Bus.settings mode channel)) : ¬ Register.Filtering write.1 := by
  have all : ∀ write ∈ writes (Bus.settings mode channel), ¬ Register.Filtering write.1 := by
    simp only [writes, Bus.settings, List.filterMap_cons, Deed.write?, List.filterMap_nil,
      List.forall_mem_cons]
    decide
  exact all write member

theorem Shows.stores {config : HostConfig} {deeds : List Deed} {result : Except Error Adapter}
    (shows' : Shows config deeds result) {write : Nat × Word} (member : write ∈ writes deeds)
    (inside : Register.Filtering write.1) :
    write.1 = Register.addressHigh 0 ∨ write.1 = Register.addressLow 0 := by
  rw [← writes_outwards] at member
  cases shows' with
  | early _ shown =>
    rcases shown with none | ⟨capabilities, announced⟩
    · rw [none] at member
      cases member
    · rw [announced] at member
      exact absurd inside (announcement_apart member)
  | addressed silent _ shown _ =>
    have quiet {high low : Word} {before later : List Deed} (silent : outwards before = []) :
        outwards (before ++ ⟨.load (Register.addressHigh 0), high⟩ ::
          ⟨.load (Register.addressLow 0), low⟩ :: later) = outwards later := by
      rw [outwards_append, silent]
      rfl
    rw [quiet silent, shown] at member
    simp only [writes_append, List.mem_append] at member
    rcases member with ((announced | slot) | set) | started
    · exact absurd inside (announcement_apart announced)
    · exact mem_slotDeeds slot
    · exact absurd inside (settings_apart set)
    · cases started

theorem Shows.leaves {config : HostConfig} {deeds : List Deed} {result : Except Error Adapter}
    {before after : RegisterFile} (shows' : Shows config deeds result)
    (cells : ∀ offset, Register.Filtering offset →
      after.cell offset = written before.cell (writes deeds) offset)
    (reads : Faithful Register.Filtering before.cell deeds) : Leaves config before after result := by
  have others (offset : Nat) (inside : Register.Filtering offset)
      (apart : offset ≠ Register.addressHigh 0 ∧ offset ≠ Register.addressLow 0) :
      after.cell offset = before.cell offset := by
    rw [cells offset inside, written_of_apart]
    rintro write member rfl
    exact (shows'.stores member inside).elim apart.1 apart.2
  cases shows' with
  | early other shown =>
    refine .early other fun offset inside => ?_
    have mode := (Register.filtering_settles offset inside).1
    rw [cells offset inside, ← writes_outwards]
    rcases shown with none | ⟨capabilities, announced⟩
    · rw [none]
      rfl
    · rw [announced]
      exact put_of_ne mode
  | @addressed first later high low _ features dma current mode channel started _ silent chosen shown
      ends =>
    have quiet : writes first = [] := by
      rw [← writes_outwards, silent]
      rfl
    obtain ⟨_, reads⟩ := faithful_append.mp reads
    rw [quiet] at reads
    have table := Register.filtering_slot 0 (by decide)
    -- Nothing is written before the slot is read, so that finds what the preparation found.
    have found : before.stored 0 = .ofWords high low := by
      have isHigh : high = before.cell (Register.addressHigh 0) := reads.1 table.1
      have isLow : low = before.cell (Register.addressLow 0) := reads.2.1 table.2
      rw [isHigh, isLow]
      rfl
    have wrote : writes (first ++ ⟨.load (Register.addressHigh 0), high⟩ ::
          ⟨.load (Register.addressLow 0), low⟩ :: later) =
        [(Register.dmaMode, DmaMode.softwareReset.assign true 0)] ++
          (writes (slotDeeds 0 current true) ++ writes (Bus.settings mode channel)) := by
      rw [writes_append, quiet]
      change writes later = _
      rw [← writes_outwards, shown]
      rfl
    have holds : after.Holds 0 current true := by
      rw [wrote] at cells
      refine RegisterFile.holds_of_written (by decide) cells fun write member => ?_
      obtain ⟨high, low⟩ := Register.slot_apart (settings_apart member) (by decide : 0 < _)
      exact ⟨high.symm, low.symm⟩
    refine .addressed (found ▸ chosen) holds
      (fun offset inside high low => others offset inside ⟨high, low⟩) ?_
    · cases started with
      | true => exact .inr ⟨_, ends, found.symm, rfl⟩
      | false => exact .inl ends

end Adapter

namespace Call

variable {start m : Machine} {config : HostConfig} {resources : List Resource} {inner : History}

theorem rests {op : Operation} {outcome : Except Fault Answer}
    (call : Call Undisturbed start op outcome inner m) : m.stack = [] := by
  obtain ⟨_, _, _, rests⟩ := call.follows (undisturbed_confines op)
  exact rests

theorem shown {answer : Answer}
    (call : Call Undisturbed start (.prepare config resources) (.ok answer) inner m)
    (takesPlace : answer = .ok ∨ ∃ cause, answer = .failed cause) :
    ∃ main result, Adapter.Shows config main result ∧
      (∀ offset, Register.Filtering offset → m.station.registers.cell offset =
        written start.station.registers.cell (writes main) offset) ∧
      Faithful Register.Filtering start.station.registers.cell main ∧
      (∀ depth op offset value reply, .acted depth op (.store offset value) reply ∈ inner →
        Register.Filtering offset → (offset, value) ∈ writes main) ∧
      ((∃ cause, answer = .failed cause ∧ result = .error cause) ∨
        ∃ a, answer = .ok ∧ result = .ok a ∧ m.station.target = .device a) := by
  obtain ⟨deeds, ⟨follows, _, acted⟩, ended, _⟩ := call.follows (undisturbed_confines _)
  have stores {depth : Nat} {op : Operation} {offset : Nat} {value : Word} {reply : Unit}
      (member : .acted depth op (.store offset value) reply ∈ inner)
      (inside : Register.Filtering offset) : (offset, value) ∈ writes deeds := by
    rcases acted _ _ _ _ member with keeps | own
    · exact absurd inside (show ¬ Register.Filtering offset from keeps)
    · exact mem_writes.mpr own
  cases ended with
  | answered course =>
    have course := course nofun
    cases target : start.station.target with
    | noDevice =>
      rw [target] at course
      rcases prepare_attaches course with ⟨cause, rfl, shown⟩ | ⟨main, a, rfl, rfl, shown⟩
      · exact ⟨deeds, _, shown, follows.cells, follows.reads, fun _ _ _ _ _ => stores,
          .inl ⟨cause, rfl, rfl⟩⟩
      · have same : writes (main ++ [⟨.attach a, ()⟩]) = writes main := by
          rw [writes_append]
          exact List.append_nil _
        rw [same] at stores
        refine ⟨main, _, shown, fun offset inside => ?_, (faithful_append.mp follows.reads).1,
          fun _ _ _ _ _ => stores, .inr ⟨a, rfl, rfl, ?_⟩⟩
        · rw [follows.cells offset inside, same]
        · rw [follows.target, List.foldl_append]
          rfl
    | device | interrupts =>
      rw [target] at course
      cases course.2
      rcases takesPlace with same | ⟨_, same⟩ <;> cases same

/-- A successful preparation has found the permanent address in the first slot and left the current
one there. -/
theorem attached (call : Call Undisturbed start (.prepare config resources) (.ok .ok) inner m) :
    ∃ a, m.station.target = .device a ∧ a.permanent = start.station.registers.stored 0 ∧
      m.station.registers.Holds 0 a.current true ∧
      ∀ offset, Register.Filtering offset → offset ≠ Register.addressHigh 0 →
        offset ≠ Register.addressLow 0 →
          m.station.registers.cell offset = start.station.registers.cell offset := by
  obtain ⟨main, _, shows', cells, reads, _, ⟨_, ⟨⟩, _⟩ | ⟨a, _, rfl, attached⟩⟩ :=
    call.shown (.inl rfl)
  cases shows'.leaves cells reads with
  | addressed chosen holds others ends =>
    rcases ends with same | ⟨_, same, found, chose⟩ <;> cases same
    exact ⟨a, attached, found, chose ▸ holds, others⟩

/-- A release that is in time leaves the permanent address in the first slot. -/
theorem released (call : Call Undisturbed start .release (.ok .ok) inner m) :
    ∃ a, start.station.target = .device a ∧ m.station.registers.Holds 0 a.permanent true := by
  obtain ⟨deeds, done, ended, _⟩ := call.follows (undisturbed_confines _)
  have follows := done.follows
  cases ended with
  | answered course =>
    have course := course nofun
    cases target : start.station.target with
    | device a =>
      rw [target] at course
      have wrote : writes deeds = [(Register.dmaMode, DmaMode.softwareReset.assign true 0)] ++
          (writes (slotDeeds 0 a.permanent true) ++ []) := by
        rw [← writes_outwards, release_outwards course]
        rfl
      have cells := follows.cells
      rw [wrote] at cells
      exact ⟨a, rfl, RegisterFile.holds_of_written (by decide) cells (List.forall_mem_nil _)⟩
    | noDevice | interrupts =>
      rw [target] at course
      cases course.2

end Call

/-- A preparation that succeeds on these registers takes `address` for the permanent one. -/
def RegisterFile.Permanent (f : RegisterFile) (address : MacAddress) : Prop :=
  ∀ (start m : Machine) (config : HostConfig) (resources : List Resource) (inner : History),
    start.station.registers = f →
      Call Undisturbed start (.prepare config resources) (.ok .ok) inner m →
        ∃ a, m.station.target = .device a ∧ a.permanent = address

theorem RegisterFile.permanent_stored (f : RegisterFile) : f.Permanent (f.stored 0) := by
  rintro start m config resources inner rfl call
  obtain ⟨a, attached, found, _⟩ := call.attached
  exact ⟨a, attached, found⟩

/-- Whatever a device did meanwhile, its release puts back the address that its preparation found in
the first slot, and the next preparation finds it there. -/
theorem permanent_restored {start prepared served released : Machine} {config : HostConfig}
    {resources : List Resource} {first history last : History}
    (prepares : Call Undisturbed start (.prepare config resources) (.ok .ok) first prepared)
    (serves : Run Serving prepared history served)
    (releases : Call Undisturbed served .release (.ok .ok) last released) :
    ∃ a, prepared.station.target = .device a ∧
      a.permanent = start.station.registers.stored 0 ∧
      released.station.registers.stored 0 = a.permanent ∧
      released.station.registers.listens 0 = true ∧
      released.station.registers.Permanent a.permanent := by
  obtain ⟨a, attached, found, _⟩ := prepares.attached
  obtain ⟨b, present, holds⟩ := releases.released
  have kept : served.station.target = prepared.station.target :=
    serves.serves (fun _ _ => id) prepares.rests
  obtain rfl : a = b := by
    rw [kept, attached] at present
    exact Target.device.inj present
  have again := released.station.registers.permanent_stored
  rw [holds.stored] at again
  exact ⟨a, attached, found, holds.stored, holds.listens, again⟩

def addressedHardware : Machine where
  station :=
    { registers := RegisterFile.preset { cell := fun _ => 0 }
        [(Register.macVersion, 0x5251), (Register.addressHigh 0, 0x80005544),
          (Register.addressLow 0, 0x33221102)]
      target := .noDevice }

def otherStation : HostConfig := { address := some ⟨[0x0A, 0, 0, 0, 0, 7], by decide⟩ }

def elsewhere : Machine :=
  addressedHardware.after (.prepare otherStation Adapter.fittingResources) 60

def elsewhereFiltering : Machine := elsewhere.after (.filter .directed []) 20

theorem permanent_restored_elsewhere :
    ∃ (first history last : History) (released : Machine),
      Call Undisturbed addressedHardware (.prepare otherStation Adapter.fittingResources)
        (.ok .ok) first elsewhere ∧
      Run Serving elsewhere history elsewhereFiltering ∧
      Call Undisturbed elsewhereFiltering .release (.ok .ok) last released ∧
      released.station.registers.stored 0 = ⟨0x02, 0x11, 0x22, 0x33, 0x44, 0x55⟩ := by
  have prepares : Call Undisturbed addressedHardware _ (.ok .ok) _ elsewhere :=
    .alone _ rfl rfl rfl
  have serves : Run Serving elsewhere _ elsewhereFiltering := .alone .refl _ rfl rfl trivial
  have releases : Call Undisturbed elsewhereFiltering .release (.ok .ok) _ _ :=
    .alone 20 rfl rfl rfl
  obtain ⟨a, attached, found, restored, _⟩ := permanent_restored prepares serves releases
  exact ⟨_, _, _, _, prepares, serves, releases, restored.trans (found.trans rfl)⟩

/-- A failed preparation leaves the address that it found in the first slot, unless the datapath does
not start: then the current one is there, and the next preparation takes it for the permanent one. -/
theorem failed_prepare_leaves {start failed : Machine} {config : HostConfig}
    {resources : List Resource} {cause : Error} {inner : History}
    (prepares : Call Undisturbed start (.prepare config resources) (.ok (.failed cause)) inner failed) :
    (cause ≠ .config .datapathStartFailed →
      (∀ offset, Register.Filtering offset →
        failed.station.registers.cell offset = start.station.registers.cell offset) ∧
      failed.station.registers.Permanent (start.station.registers.stored 0)) ∧
    (cause = .config .datapathStartFailed → ∃ current,
      Adapter.Chosen config.address (start.station.registers.stored 0) current ∧
      failed.station.registers.Holds 0 current true ∧
      failed.station.registers.Permanent current) := by
  obtain ⟨main, _, shows', cells, reads, _, ⟨_, same, rfl⟩ | ⟨_, ⟨⟩, _⟩⟩ :=
    prepares.shown (.inr ⟨cause, rfl⟩)
  cases same
  have again := failed.station.registers.permanent_stored
  cases shows'.leaves cells reads with
  | early other same =>
    have table := Register.filtering_slot 0 (by decide)
    have stays : failed.station.registers.stored 0 = start.station.registers.stored 0 := by
      rw [RegisterFile.stored, same _ table.1, same _ table.2]
      rfl
    exact ⟨fun _ => ⟨same, stays ▸ again⟩, fun started => absurd started other⟩
  | addressed chosen holds _ ends =>
    rcases ends with same | ⟨_, ⟨⟩, _⟩
    cases same
    exact ⟨fun other => absurd rfl other, fun _ => ⟨_, chosen, holds, holds.stored ▸ again⟩⟩

def refusedHardware : Machine :=
  { addressedHardware with
    station := { addressedHardware.station with host := { refusesStart := true } } }

def refusedElsewhere : Machine :=
  refusedHardware.after (.prepare otherStation Adapter.fittingResources) 60

theorem failed_prepare_leaves_refused :
    ∃ inner, Call Undisturbed refusedHardware (.prepare otherStation Adapter.fittingResources)
        (.ok (.failed (.config .datapathStartFailed))) inner refusedElsewhere ∧
      ∃ current, refusedElsewhere.station.registers.Permanent current := by
  have prepares : Call Undisturbed refusedHardware (.prepare otherStation Adapter.fittingResources)
      (.ok (.failed (.config .datapathStartFailed))) _ refusedElsewhere := .alone _ rfl rfl rfl
  obtain ⟨_, addressed⟩ := failed_prepare_leaves prepares
  obtain ⟨current, _, _, again⟩ := addressed rfl
  exact ⟨_, prepares, current, again⟩

theorem permanent_lost_refused :
    refusedHardware.station.registers.stored 0 = ⟨0x02, 0x11, 0x22, 0x33, 0x44, 0x55⟩ ∧
      (∃ inner, Call Undisturbed refusedHardware (.prepare otherStation Adapter.fittingResources)
        (.ok (.failed (.config .datapathStartFailed))) inner refusedElsewhere) ∧
      refusedElsewhere.station.registers.stored 0 = ⟨0x0A, 0, 0, 0, 0, 7⟩ ∧
      ∃ inner next a, Call Undisturbed
          (refusedElsewhere.execute (.host { refusesStart := some false }))
          (.prepare {} Adapter.fittingResources) (.ok .ok) inner next ∧
        next.station.target = .device a ∧ a.permanent = ⟨0x0A, 0, 0, 0, 0, 7⟩ := by
  have prepares : Call Undisturbed refusedHardware (.prepare otherStation Adapter.fittingResources)
      (.ok (.failed (.config .datapathStartFailed))) _ refusedElsewhere := .alone _ rfl rfl rfl
  have retries : Call Undisturbed (refusedElsewhere.execute (.host { refusesStart := some false }))
      (.prepare {} Adapter.fittingResources) (.ok .ok) _ _ := .alone 60 rfl rfl rfl
  exact ⟨rfl, ⟨_, prepares⟩, rfl, _, _, _, retries, rfl, rfl⟩

end EthernetMac
