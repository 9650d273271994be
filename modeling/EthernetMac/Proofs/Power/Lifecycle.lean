import EthernetMac.Proofs.Interrupt.Doors
import EthernetMac.Proofs.Power.Soundness

/-! The life of a prepared device, as it is seen between operations: transitions into and out of the
working state alternate, and the activity, the mask, the queue handles and the configuration agree. -/

namespace EthernetMac

open PowerState (apart serial)

namespace Lifecycle

/-- A prepared device and its surroundings. Nothing else writes its configuration, the serialized
operations are not nested in each other, and the queues are cleared before the working state is
left. -/
def Admits (m : Machine) : Step → Prop
  | .set offset _ => offset ≠ Register.macConfiguration
  | .operation op =>
    powerLaw.Leaves op ∧ (∃ adapter, m.station.target = .device adapter) ∧
      (op = .leaveWorking → ∀ direction, m.station.interrupt.queue direction = none) ∧
      (op.serialized = true → ∀ frame ∈ m.stack, ∀ other, frame.operation? = some other →
        other.serialized = false)
  | _ => True

instance : (target : Target) → Decidable (∃ adapter, target = .device adapter)
  | .device adapter => .isTrue ⟨adapter, rfl⟩
  | .noDevice | .interrupts => .isFalse nofun

instance (frame : Frame) :
    Decidable (∀ other, frame.operation? = some other → other.serialized = false) :=
  inferInstanceAs (Decidable (∀ other ∈ frame.operation?, other.serialized = false))

instance (m : Machine) : DecidablePred (Admits m)
  | .set _ _ => inferInstanceAs (Decidable (_ ≠ _))
  | .operation _ => inferInstanceAs (Decidable (_ ∧ _ ∧ (_ → _) ∧ (_ → ∀ _ ∈ _, _)))
  | .get _ | .raiseChannel _ | .raiseLink | .busy _ | .host _ | .hook _ _ =>
    inferInstanceAs (Decidable True)

structure Settled (passed : List Bool) (s : Station) : Prop where
  active : s.active = passed.headD false
  state : s.interrupt.wanted.state = s.active
  queues : ∀ direction : Direction,
    s.interrupt.wanted.has direction.category = (s.interrupt.queue direction).isSome
  enabled : s.active = true →
    Working.Enabled true (s.registers.cell Register.macConfiguration)
  disabled : passed.head? = some false →
    Working.Enabled false (s.registers.cell Register.macConfiguration)

def Refuses (active : Bool) : Operation → Prop
  | .enterWorking => active = true
  | .leaveWorking => active = false
  | _ => False

structure Sound (history : History) (s : Station) (wants : Bool) : Prop where
  device : ∃ adapter, s.target = .device adapter
  sections : SectionsSound history s.interrupt wants
  power : PowerSound history s wants
  alternating : Alternating (transitions history)
  faultless : history.filterMap Entry.fault? = []

variable {m : Machine} {step : Step} {op : Operation}

theorem Admits.obeys (admitted : Admits m (.operation op)) :
    (op.task m.station.target).Obeys powerLaw (PowerState.Concludes op) (powerLaw.start op) := by
  obtain ⟨leaves, ⟨adapter, target⟩, _⟩ := admitted
  rw [target]
  exact powerLaw.task leaves adapter

theorem Admits.ofDevice (admitted : Admits m (.operation op)) : op.OfDevice := by
  have leaves := admitted.1
  cases op <;> first | exact leaves | trivial

theorem Admits.meet (admitted : Admits m step) (surrounds : ∀ op, step ≠ .operation op) :
    (m.station.meet step).registers.cell Register.macConfiguration =
      m.station.registers.cell Register.macConfiguration := by
  cases step with
  | set offset value => exact RegisterFile.cell_set_of_ne _ _ (Ne.symm admitted)
  | raiseLink | raiseChannel => exact RegisterFile.cell_set_of_ne _ _ (by decide)
  | operation op => exact absurd rfl (surrounds op)
  | _ => rfl

namespace Sound

variable {history : History} {s : Station} {wants : Bool}

theorem initial (prepared : ∃ adapter, s.target = .device adapter) (inactive : s.active = false)
    (new : s.interrupt = {}) : Sound [] s false where
  device := prepared
  sections := by
    rw [new]
    exact ⟨0, fun _ _ => rfl, ⟨fun direction => by cases direction <;> rfl, by rintro _ _ _ ⟨⟩⟩, rfl⟩
  power := ⟨0, fun _ _ => rfl, by rintro _ ⟨⟩, inactive, inactive.symm, by rintro _ ⟨⟩,
    by rintro _ ⟨⟩, fun guarded => absurd guarded (by decide), by decide⟩
  alternating := trivial
  faultless := rfl

theorem surround (sound : Sound history m.station wants) (admitted : Admits m step)
    (surrounds : ∀ op, step ≠ .operation op) :
    Sound (.begun m.stack.length step :: history) (m.station.meet step) wants := by
  have interrupt := m.station.meet_interrupt step
  obtain ⟨target, active⟩ := m.station.meet_target step
  refine ⟨target ▸ sound.device, ?_, ?_, sound.alternating, sound.faultless⟩
  · rw [interrupt]
    exact sound.sections.onward (fun depth => by rw [Law.state_surround surrounds]) rfl rfl
  · exact sound.power.onward (fun depth => Law.state_surround surrounds) rfl
      ⟨active, admitted.meet surrounds⟩ (congrArg InterruptState.queue interrupt)

theorem settled (sound : Sound history s wants)
    (quiet : ∀ depth, powerLaw.state depth history = apart)
    (out : ∀ depth, (sectionLaw.state depth history).phase = .out) :
    Settled (transitions history) s := by
  obtain ⟨holder, _, armed, state⟩ := sound.sections
  rw [out holder] at armed state
  have fits := sound.power.at_rest quiet
  have active : s.active = (transitions history).headD false := fits.active
  refine ⟨active, state.trans fits.wants, armed.armed, fun on => fits.enabled true ?_,
    fun off => fits.enabled false off⟩
  rw [active] at on
  change (transitions history).head? = some true
  cases passed : transitions history with
  | nil =>
    rw [passed] at on
    cases on
  | cons latest earlier =>
    rw [passed] at on
    exact congrArg some on

end Sound

theorem refused {adapter : Adapter} (target : m.station.target = .device adapter)
    (refuses : Refuses m.station.active op) :
    (m.issue (.operation op)).advance.advance = m.finish (.failed (.io .invalidState)) := by
  obtain ⟨⟨registers, host, _, active, interrupt, trace⟩, hooks, stack, answer⟩ := m
  cases target
  cases op with
  | enterWorking =>
    cases refuses
    rfl
  | leaveWorking =>
    cases refuses
    rfl
  | _ => exact refuses.elim

end Lifecycle

structure Lifecycle (history : History) (m : Machine) : Prop where
  faultless : ∀ cause, .faulted cause ∉ history
  alternating : Alternating (transitions history)
  settled : m.stack = [] → Lifecycle.Settled (transitions history) m.station
  /-- A transition to where the device already is, nested or not, ends at its second move, and all
  that is left of it is its answer. -/
  refuses : ∀ (n : Machine) trace op, n.station = { m.station with trace } →
    Lifecycle.Refuses m.station.active op →
      (n.issue (.operation op)).advance.advance = n.finish (.failed (.io .invalidState))

namespace Run

open Lifecycle (Admits Sound)

variable {start m : Machine} {history : History}

theorem power_obeyed (m : Machine) (op : Operation) (admitted : Admits m (.operation op)) :
    (op.task m.station.target).Obeys powerLaw (fun _ => powerLaw.ends) (powerLaw.start op) := by
  refine admitted.obeys.mono fun round q concludes => ?_
  cases round with
  | finished answer => exact concludes.1
  | again =>
    rcases concludes with rfl | ⟨config, rfl⟩
    · trivial
    · exact .inl rfl

theorem section_obeyed (m : Machine) (op : Operation) (admitted : Admits m (.operation op)) :
    (op.task m.station.target).Obeys sectionLaw (fun _ => sectionLaw.ends) (sectionLaw.start op) :=
  sectionLaw.task admitted.ofDevice m.station.target

variable (resting : start.stack = [])

include resting

/-- A serialized operation begins while no other is about the power state. -/
theorem power_alone (run : Run Admits start history m) {op : Operation}
    (admitted : Admits m (.operation op)) (serialized : op.serialized = true) (depth : Nat) :
    powerLaw.state depth history = apart := by
  cases here : powerLaw.state depth history with
  | apart => rfl
  | serial stage config =>
    have belongs := powerLaw.called depth history
    rw [here] at belongs
    obtain ⟨other, called, belongs⟩ := belongs
    obtain ⟨frame, member, runs⟩ := run.in_stack resting power_obeyed called
    have free := admitted.2.2.2 serialized frame member other runs
    rw [belongs.serialized] at free
    cases free

/-- Nobody stops at a fault of his own, or at the end of the register window: only at the lock. -/
theorem power_fault (run : Run Admits start history m) {wants : Bool}
    (sound : PowerSound history m.station wants) {op : Operation} {target : Target} {e : Effect}
    {next : e.Answer → Task} {below : List Frame} {cause : Fault}
    (top : m.stack = .running op target (.perform e next) :: below)
    (applied : m.station.apply e = .error cause) :
    cause = .lockHeld ∧ m.station.interrupt.lock ≠ .free ∧
      (e = .acquire ∨ e = .wanted ∨ ∃ direction, e = .armed direction) := by
  have permitted := (run.acting resting power_obeyed top).permitted
  rcases Station.apply_error applied with rfl | ⟨held, takes⟩ |
    ⟨_, offset, outside, rfl | ⟨value, rfl⟩⟩
  · obtain ⟨config, caught⟩ := permitted
    exact absurd rfl (sound.at_serial caught).2.possible
  · exact ⟨Station.apply_error_of_takes applied takes, held, takes⟩
  · exact absurd permitted outside
  · exact absurd permitted.1 outside

theorem sound_act (run : Run Admits start history m) {wants : Bool}
    (single : SingleHolder m.station.interrupt.lock history)
    (sound : Sound history m.station wants) {op : Operation} {target : Target} {e : Effect}
    {next : e.Answer → Task} {below : List Frame} {answer : e.Answer} {after : Station}
    (top : m.stack = .running op target (.perform e next) :: below)
    (applied : m.station.apply e = .ok (answer, after)) :
    Sound (.acted below.length op e answer :: history) after (e.statesWanted op wants) := by
  have acting := run.acting resting power_obeyed top
  have sections := run.acting resting section_obeyed top
  have locking := run.acting resting
    (lockLaw.obeyed fun _ _ admitted => (Admits.ofDevice admitted).inService) top
  refine ⟨?_, ?_, ?_, sound.alternating, sound.faultless⟩
  · rw [(Station.apply_target applied).1]
    have permitted := sections.permitted
    cases e with
    | attach | detach => exact permitted.elim
    | _ => exact sound.device
  · refine sound.sections.act single sections.called sections.permitted applied ?_
    rintro rfl rfl
    exact sound.power.cleared_of_acquire acting
  · exact sound.power.act acting locking single applied

theorem sound_operate (run : Run Admits start history m) {wants : Bool}
    (sound : Sound history m.station wants) {op : Operation} {below : List Frame}
    (admitted : Admits m (.operation op)) (awaits : Awaits (.operation op) m.stack below) :
    Sound (.begun m.stack.length (.operation op) :: history) m.station wants := by
  have power := run.opening resting power_obeyed awaits
  have sections := run.opening resting section_obeyed awaits
  refine ⟨sound.device, ?_, ?_, sound.alternating, sound.faultless⟩
  · refine sound.sections.turn (n := m.stack.length) (fun depth apart => Ne.symm apart) ?_ ?_
    · rw [sections.idle]
      rfl
    · simp
  · exact sound.power.begin power.idle (run.power_alone resting admitted) admitted.2.2.1

theorem sound_renew (run : Run Admits start history m) {wants : Bool}
    (sound : Sound history m.station wants) {op : Operation} {target : Target}
    {below : List Frame} (top : m.stack = .running op target (.done .again) :: below) :
    Sound (.renewed below.length op :: history) m.station wants := by
  obtain ⟨called, ends⟩ := run.ending resting section_obeyed top
  have steady : PowerState.Concludes op .again (powerLaw.state below.length history) :=
    run.concludes resting (fun _ _ admitted => Admits.obeys admitted) top
  refine ⟨sound.device, ?_, ?_, sound.alternating, sound.faultless⟩
  · exact sound.sections.turn (fun depth apart => Ne.symm apart) ends (by simp)
  · exact sound.power.renew called (run.renews resting top) steady

theorem sound_finish (run : Run Admits start history m) {wants : Bool}
    (sound : Sound history m.station wants) {op : Operation} {target : Target} {answer : Answer}
    {below : List Frame} (top : m.stack = .running op target (.done (.finished answer)) :: below) :
    Sound (.ended below.length op answer :: history) m.station wants := by
  obtain ⟨_, ends⟩ := run.ending resting section_obeyed top
  have concludes : PowerState.Concludes op (.finished answer)
      (powerLaw.state below.length history) :=
    run.concludes resting (fun _ _ admitted => Admits.obeys admitted) top
  obtain ⟨power, alternating⟩ := sound.power.finish sound.alternating concludes
  refine ⟨sound.device, ?_, power, alternating, sound.faultless⟩
  exact sound.sections.turn (fun depth apart => Ne.symm apart) ends (by simp)

variable (prepared : ∃ adapter, start.station.target = .device adapter)
  (inactive : start.station.active = false) (new : start.station.interrupt = {})

include prepared inactive new

theorem sound (run : Run Admits start history m) (granted : .faulted .lockHeld ∉ history) :
    ∃ wants, Sound history m.station wants := by
  have free : start.station.interrupt.lock = .free := by rw [new]
  refine Run.account (P := fun history s => .faulted .lockHeld ∉ history →
    ∃ wants, Sound history s wants) ?initial ?blind ?surround ?operate ?act ?renew ?finish ?abort
    run granted
  case initial => exact fun _ => ⟨false, .initial prepared inactive new⟩
  case blind =>
    intro history s trace kept granted
    obtain ⟨wants, device, sections, power, alternating, faultless⟩ := kept granted
    obtain ⟨caller, others, fits⟩ := power
    exact ⟨wants, device, sections, ⟨caller, others, fits.keep ⟨rfl, rfl⟩ rfl⟩, alternating,
      faultless⟩
  case surround =>
    intro history m step below run admitted _ surrounds kept granted
    obtain ⟨wants, sound⟩ := kept fun member => granted (.tail _ member)
    exact ⟨wants, sound.surround admitted surrounds⟩
  case operate =>
    intro history m op below run admitted awaits kept granted
    obtain ⟨wants, sound⟩ := kept fun member => granted (.tail _ member)
    exact ⟨wants, run.sound_operate resting sound admitted awaits⟩
  case act =>
    intro history m op target e next below answer after run top applied kept granted
    obtain ⟨wants, sound⟩ := kept fun member => granted (.tail _ member)
    have single := run.single resting (fun _ _ admitted => (Admits.ofDevice admitted).inService) free
    exact ⟨_, run.sound_act resting single sound top applied⟩
  case renew =>
    intro history m op target below run top kept granted
    obtain ⟨wants, sound⟩ := kept fun member => granted (.tail _ member)
    exact ⟨wants, run.sound_renew resting sound top⟩
  case finish =>
    intro history m op target answer below run top kept granted
    obtain ⟨wants, sound⟩ := kept fun member => granted (.tail _ member)
    exact ⟨wants, run.sound_finish resting sound top⟩
  case abort =>
    intro history m op target e next below cause run top applied kept granted
    obtain ⟨wants, sound⟩ := kept fun member => granted (.tail _ member)
    -- The lock is the only place left where a call can stop, and there it was granted.
    rw [(run.power_fault resting sound.power top applied).1] at granted
    exact absurd (.head _) granted

/-- The lock is granted to everybody, if no call that takes it begins while it is held. -/
theorem granted_of_patient (run : Run Admits start history m) (patient : history.Patient) :
    .faulted .lockHeld ∉ history := by
  have free : start.station.interrupt.lock = .free := by rw [new]
  have inService : ∀ m op, Admits m (.operation op) → op.InService :=
    fun _ _ admitted => (Admits.ofDevice admitted).inService
  have present : ∀ m op, Admits m (.operation op) → m.station.target ≠ .noDevice := by
    intro m op admitted missing
    obtain ⟨adapter, target⟩ := admitted.2.1
    rw [missing] at target
    cases target
  have onward {history : History} {entry : Entry}
      (kept : history.Patient → .faulted .lockHeld ∉ history)
      (patient : History.Patient (entry :: history)) (other : entry ≠ .faulted .lockHeld) :
      .faulted .lockHeld ∉ entry :: history := by
    intro member
    rcases List.mem_cons.mp member with same | member
    · exact other same.symm
    · exact kept patient.2 member
  refine Run.account (P := fun history _ => history.Patient → .faulted .lockHeld ∉ history)
    ?initial (fun _ kept => kept) (fun _ _ _ _ kept patient => onward kept patient nofun)
    (fun _ _ _ kept patient => onward kept patient nofun)
    (fun _ _ _ kept patient => onward kept patient nofun)
    (fun _ _ kept patient => onward kept patient nofun)
    (fun _ _ kept patient => onward kept patient nofun) ?abort run patient
  case initial => exact fun _ => List.not_mem_nil
  case abort =>
    intro history m op target e next below cause run top applied kept patient
    -- Up to here nobody was refused, so the device is sound, and only the lock can stop a call.
    obtain ⟨wants, sound⟩ := run.sound resting prepared inactive new (kept patient.2)
    obtain ⟨_, held, takes⟩ := run.power_fault resting sound.power top applied
    exact absurd (run.granted resting inService present free patient.2 top takes) held

omit prepared inactive new in
theorem settled (run : Run Admits start history m) {wants : Bool}
    (sound : Sound history m.station wants) (rests : m.stack = []) :
    Lifecycle.Settled (transitions history) m.station := by
  have quiet := (run.governs resting power_obeyed).2
  have out := (run.governs resting section_obeyed).2
  rw [rests] at quiet out
  refine sound.settled (fun depth => (quiet depth (Nat.zero_le depth)).1) fun depth => ?_
  rw [(out depth (Nat.zero_le depth)).1]
  rfl

omit prepared inactive new in
theorem lifecycle_of_sound (run : Run Admits start history m) {wants : Bool}
    (sound : Sound history m.station wants) : Lifecycle history m := by
  refine ⟨History.not_faulted sound.faultless, sound.alternating, run.settled resting sound,
    fun n trace op same refuses => ?_⟩
  obtain ⟨adapter, target⟩ := sound.device
  rw [← congrArg Station.active same] at refuses
  exact Lifecycle.refused ((congrArg Station.target same).trans target) refuses

/-- The life of a prepared device, in every run in which nobody asks for the lock while it is held. -/
theorem lifecycle (run : Run Admits start history m) (granted : .faulted .lockHeld ∉ history) :
    Lifecycle history m := by
  obtain ⟨wants, sound⟩ := run.sound resting prepared inactive new granted
  exact run.lifecycle_of_sound resting sound

/-- The same where no call that takes the lock begins, in whatever it is nested, while the lock is
held. -/
theorem lifecycle_of_patient (run : Run Admits start history m) (patient : history.Patient) :
    Lifecycle history m := by
  have granted := run.granted_of_patient resting prepared inactive new patient
  obtain ⟨wants, sound⟩ := run.sound resting prepared inactive new granted
  exact run.lifecycle_of_sound resting sound

end Run

/-- A prepared device that has done nothing yet. The interrupt is called while it enters the working
state; while its filters are changed the link changes, and the worker runs. -/
def freshDevice : Machine where
  station :=
    { registers := { cell := fun _ => 0 }
      target := .device ⟨0, ⟨0, 0, 0, 0, 0⟩, .ofWidth .bits32, .zero, .zero⟩ }
  hooks :=
    [(.read Register.channelStatus, [.operation .interrupt]),
      (.write Register.macPacketFilter,
        [.raiseLink, .operation .interrupt, .operation .deferred])]

theorem Run.lifecycle_freshDevice :
    ∃ (served left : History) (m n : Machine),
      m.stack = [] ∧ m.station.interrupt.queue .receive = some ⟨"rx"⟩ ∧
      served.filterMap Entry.ended? =
        [(0, .enterWorking, .failed (.io .invalidState)), (0, .filter .none [], .ok),
          (2, .deferred, .ok), (2, .interrupt, .truth true), (0, .register .receive (some ⟨"rx"⟩), .ok),
          (0, .enterWorking, .ok), (2, .interrupt, .truth false)] ∧
      transitions served = [true] ∧ Lifecycle served m ∧
      n.stack = [] ∧
      left.filterMap Entry.ended? =
        [(0, .leaveWorking, .failed (.io .invalidState)), (0, .leaveWorking, .ok),
          (0, .register .receive none, .ok)] ++ served.filterMap Entry.ended? ∧
      transitions left = [false, true] ∧ Lifecycle left n := by
  have entered : Run Lifecycle.Admits freshDevice _ _ := Run.refl.performs (.operation .enterWorking)
    rfl (by decide +kernel) 80 (by decide +kernel)
  have registered := entered.performs (.operation (.register .receive (some ⟨"rx"⟩)))
    rfl (by decide +kernel) 40 (by decide +kernel)
  have filtered := registered.performs (.operation (.filter .none []))
    rfl (by decide +kernel) 120 (by decide +kernel)
  have served := filtered.performs (.operation .enterWorking)
    rfl (by decide +kernel) 4 (by decide +kernel)
  have cleared := served.performs (.operation (.register .receive none))
    rfl (by decide +kernel) 40 (by decide +kernel)
  have inactive := cleared.performs (.operation .leaveWorking)
    rfl (by decide +kernel) 40 (by decide +kernel)
  have left := inactive.performs (.operation .leaveWorking)
    rfl (by decide +kernel) 4 (by decide +kernel)
  exact ⟨_, _, _, _, rfl, rfl, by decide +kernel, by decide +kernel,
    served.lifecycle rfl ⟨_, rfl⟩ rfl rfl (History.not_faulted (by decide +kernel) _), rfl,
    by decide +kernel, by decide +kernel,
    left.lifecycle rfl ⟨_, rfl⟩ rfl rfl (History.not_faulted (by decide +kernel) _)⟩

end EthernetMac
