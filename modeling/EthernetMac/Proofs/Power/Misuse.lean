import EthernetMac.Proofs.Interrupt.Doors
import EthernetMac.Proofs.Reach

/-! What can stop a run. As long as nothing takes the lock in an enclosed place, only a call that
leaves the working state does, and only while a queue is registered. -/

namespace EthernetMac

open Program

inductive ExitStage where
  | apart
  | entered
  | off
  | inside (known : Option InterruptMask)
  | checking
  | caught (direction : Direction)

namespace ExitStage

def Permits : ExitStage → Effect → Prop
  | caught direction, e => e = .fault (.queueRegistered direction)
  | _, .fault (.queueRegistered _) | _, .attach _ => False
  | q, .setActive on => q = if on then apart else entered
  | q, .acquire => q = apart ∨ q = off
  | q, .release => q = apart ∨ q = inside (some .none)
  | q, .setMask _ => q = apart ∨ ∃ known, q = inside known
  | _, _ => True

def after : ExitStage → (e : Effect) → e.Answer → ExitStage
  | entered, .setActive false, was => if was then off else apart
  | off, .acquire, _ => inside none
  | inside _, .mask, known => inside (some known)
  | inside _, .setMask new, _ => inside (some new)
  | inside _, .release, _ => checking
  | checking, .armed direction, registered => if registered then caught direction else checking
  | q, .load offset, _ => if offset = Register.macConfiguration then apart else q
  | q, .store offset _, _ => if offset = Register.macConfiguration then apart else q
  | q, _, _ => q

end ExitStage

def exitLaw : Law ExitStage where
  idle := .apart
  start op := if op = .leaveWorking then .entered else .apart
  permits := ExitStage.Permits
  after := ExitStage.after
  yields q := q = .apart ∨ ∃ known, q = .inside known
  idle_yields := .inl rfl

namespace exitLaw

@[simp] theorem idle_eq : exitLaw.idle = .apart := rfl

@[simp] theorem start_eq (op : Operation) :
    exitLaw.start op = if op = .leaveWorking then .entered else .apart := rfl

@[simp] theorem permits_eq : exitLaw.permits = ExitStage.Permits := rfl

@[simp] theorem after_eq : exitLaw.after = ExitStage.after := rfl

theorem after_apart (e : Effect) (answer : e.Answer) : ExitStage.after .apart e answer = .apart := by
  cases e <;> first | rfl | exact ite_self _

theorem ignores_staying {op : Operation} {target : Target} (stays : op ≠ .leaveWorking) (e : Effect)
    (inside : op.reaches target e ∧ op.actions e) : exitLaw.Ignores .apart e := by
  refine ⟨?_, fun answer => after_apart e answer⟩
  obtain ⟨reaches, acts⟩ := inside
  cases e with
  | fault cause => exact absurd reaches.1 stays
  | attach => exact acts.elim
  | setActive on =>
    cases on with
    | true => rfl
    | false => exact absurd reaches stays
  | acquire | release | setMask => exact .inl rfl
  | _ => trivial

theorem requireCleared (direction : Direction) :
    (Adapter.requireCleared direction).Obeys exitLaw (fun _ after => after = .checking) .checking := by
  refine ⟨trivial, fun registered => ⟨by rintro ⟨⟩, ?_⟩⟩
  cases registered with
  | true => exact (obeys_fail _).mpr rfl
  | false => rfl

theorem changeMask {known : Option InterruptMask} :
    (Interrupt.changeMask .none).Obeys exitLaw (fun _ after => after = .inside (some .none))
      (.inside known) := by
  have yields : exitLaw.yields (.inside (some .none)) := .inr ⟨_, rfl⟩
  refine ⟨trivial, fun old => ⟨by rintro ⟨⟩, ?_⟩⟩
  refine (obeys_onlyIf ..).mpr ⟨fun _ => ?_, fun same => ?_⟩
  · refine ⟨.inr ⟨_, rfl⟩, fun _ => ⟨by rintro ⟨⟩, ?_⟩⟩
    refine ⟨trivial, fun _ => ⟨fun _ => yields, ?_⟩⟩
    exact ⟨trivial, fun _ => ⟨fun _ => yields, rfl⟩⟩
  · have same : old = .none := by simpa using same
    rw [same]
    rfl

theorem disable :
    (Interrupt.disable .all).Obeys exitLaw (fun _ after => after = .checking) .off := by
  have empty (mask : InterruptMask) : mask.difference .all = .none := by
    simp [InterruptMask.difference, InterruptMask.all, InterruptMask.none]
  have removes : (Interrupt.removeWanted .all).Obeys exitLaw
      (fun _ after => after = .inside (some .none)) (.inside none) := by
    refine ⟨trivial, fun before => ⟨by rintro ⟨⟩, ?_⟩⟩
    change (Interrupt.changeMask (before.difference .all)).Obeys exitLaw _ _
    rw [empty]
    exact changeMask
  unfold Interrupt.disable
  rw [obeys_locked]
  refine ⟨.inr rfl, fun _ => ⟨by rintro ⟨⟩, removes.reach fun _ => ?_⟩⟩
  exact ⟨.inr rfl, fun _ => ⟨by rintro ⟨⟩, rfl⟩⟩

theorem leaveWorking :
    Adapter.leaveWorking.Obeys exitLaw (fun _ after => after = .apart) .entered := by
  refine Adapter.leaveWorking_parts (q := .off) ?turnedOff disable requireCleared ?stopped
  case turnedOff => exact ⟨rfl, fun was => ⟨by rintro ⟨⟩, by cases was <;> rfl⟩⟩
  case stopped =>
    refine ⟨trivial, fun config => ⟨fun _ => .inl rfl, ?_⟩⟩
    exact ⟨trivial, fun _ => ⟨fun _ => .inl rfl, rfl⟩⟩

theorem task {op : Operation} (inService : op.InService) (target : Target) :
    (op.task target).Obeys exitLaw (fun _ => exitLaw.ends) (exitLaw.start op) := by
  by_cases leaves : op = .leaveWorking
  · subst leaves
    have work := Operation.leaveWorking.work trivial target
    generalize Operation.leaveWorking.task target = task at work
    cases work with
    | nothing => exact trivial
    | leaveWorking => exact leaveWorking.andThen fun _ => trivial
  · rw [start_eq, if_neg leaves]
    have only := (op.reaches_only target).and (Operation.task_only inService target)
    exact (Obeys.of_only only (ignores_staying leaves) (.inl rfl)).mono fun _ _ _ => trivial

theorem holding_of_inside {depth : Nat} {history : History} {known : Option InterruptMask}
    (inside : exitLaw.state depth history = .inside known) : Holding history depth := by
  refine @Law.state_related _ exitLaw _ lockLaw
    (fun q r => ∀ known, q = .inside known → r.holds = true) nofun (fun op known same => ?_)
    (fun q r e answer kept known same => ?_) depth history known inside
  · rw [start_eq] at same
    split at same <;> cases same
  · rw [after_eq] at same
    revert same
    fun_cases ExitStage.after q e answer
    case case13 =>
      rintro rfl
      cases e with
      | release => simp_all
      | acquire => rfl
      | _ => exact kept known rfl
    all_goals
      intro same
      first | exact kept known same | cases same <;> first | rfl | exact kept _ rfl

theorem after_begun {q : ExitStage} {e : Effect} {answer : e.Answer}
    (begun : q.after e answer ≠ .apart) :
    e.offset? ≠ some Register.macConfiguration ∧
      (q = .entered → q.after e answer = .entered ∨ (⟨e, answer⟩ : Deed) = ⟨.setActive false, true⟩) := by
  revert begun
  fun_cases ExitStage.after q e answer <;> intro begun
  case case1 => exact ⟨nofun, fun _ => .inr rfl⟩
  case case13 loads stores _ _ _ _ _ _ =>
    refine ⟨?_, fun entered => .inl entered⟩
    cases e <;> simp_all [Effect.offset?]
  all_goals first
    | exact absurd rfl begun
    | refine ⟨?_, fun same => ?_⟩ <;> simp_all [Effect.offset?]

theorem left_of_stage {depth : Nat} {history : History}
    (begun : exitLaw.state depth history ≠ .apart) :
    ∃ deeds, trail.state depth history = some (.leaveWorking, deeds) ∧
      (∀ deed ∈ deeds, deed.effect.offset? ≠ some Register.macConfiguration) ∧
      (exitLaw.state depth history ≠ .entered → (⟨.setActive false, true⟩ : Deed) ∈ deeds) := by
  refine @Law.state_related _ exitLaw _ trail (fun q r => q ≠ .apart →
    ∃ deeds, r = some (.leaveWorking, deeds) ∧
      (∀ deed ∈ deeds, deed.effect.offset? ≠ some Register.macConfiguration) ∧
      (q ≠ .entered → (⟨.setActive false, true⟩ : Deed) ∈ deeds))
    (fun begun => absurd rfl begun) (fun op begun => ?_) (fun q r e answer kept begun => ?_)
    depth history begun
  · rw [start_eq] at begun ⊢
    split at begun
    · rename_i leaves
      rw [leaves]
      exact ⟨[], rfl, List.forall_mem_nil _, fun past => absurd (if_pos rfl) past⟩
    · exact absurd rfl begun
  · rw [after_eq] at begun ⊢
    have before : q ≠ .apart := by
      rintro rfl
      exact begun (after_apart e answer)
    obtain ⟨deeds, rfl, untouched, past⟩ := kept before
    obtain ⟨elsewhere, passes⟩ := after_begun begun
    refine ⟨deeds ++ [⟨e, answer⟩], rfl, List.forall_mem_append.mpr
      ⟨untouched, List.forall_mem_singleton.mpr elsewhere⟩, fun later => ?_⟩
    by_cases entered : q = .entered
    · rw [(passes entered).resolve_left later]
      exact List.mem_append_right _ (.head _)
    · exact List.mem_append_left _ (past entered)

end exitLaw

def Effect.Mild : Effect → Prop
  | setActive _ | setMask _ | attach _ => False
  | _ => True

theorem Station.apply_mild {s after : Station} {e : Effect} {answer : e.Answer}
    (applied : s.apply e = .ok (answer, after)) (mild : e.Mild) :
    after.active = s.active ∧ after.interrupt.wanted = s.interrupt.wanted := by
  rw [(apply_target applied).2, apply_interrupt applied]
  cases e <;> first | exact mild.elim | exact ⟨rfl, rfl⟩

namespace ExitStage

def Fits (s : Station) : ExitStage → Prop
  | apart | entered => True
  | off => s.active = false
  | inside known => s.active = false ∧ ∀ mask, known = some mask → s.interrupt.wanted = mask
  | checking => s.active = false ∧ s.interrupt.wanted = .none
  | caught direction =>
    s.active = false ∧ s.interrupt.wanted = .none ∧ (s.interrupt.queue direction).isSome

variable {q : ExitStage} {s after : Station} {e : Effect} {answer : e.Answer}

theorem Fits.keep (fits : q.Fits s) (free : ∀ direction, q ≠ caught direction)
    (active : after.active = s.active) (wanted : after.interrupt.wanted = s.interrupt.wanted) :
    q.Fits after := by
  unfold Fits at *
  rw [active, wanted]
  cases q with
  | caught direction => exact absurd rfl (free direction)
  | _ => exact fits

theorem Fits.act (fits : q.Fits s) (permitted : q.Permits e)
    (applied : s.apply e = .ok (answer, after)) : (q.after e answer).Fits after := by
  have free : ∀ direction, q ≠ caught direction := by
    rintro direction rfl
    rw [show e = .fault (.queueRegistered direction) from permitted] at answer
    exact answer.elim
  have mild (mild : e.Mild) : q.Fits after := by
    obtain ⟨active, wanted⟩ := Station.apply_mild applied mild
    exact fits.keep free active wanted
  have active := (Station.apply_target applied).2
  have interrupt := Station.apply_interrupt applied
  have reads := Station.apply_reads applied
  cases e with
  | fault => exact answer.elim
  | setActive on =>
    have turn : q = if on then apart else entered := by
      cases q <;> first | exact permitted | exact absurd rfl (free _)
    cases on with
    | true =>
      rw [turn]
      trivial
    | false =>
      rw [turn]
      cases answer with
      | true => exact active
      | false => trivial
  | attach => cases q <;> first | exact permitted.elim | exact absurd rfl (free _)
  | acquire =>
    have turn : q = apart ∨ q = off := by
      cases q <;> first | exact permitted | exact absurd rfl (free _)
    rcases turn with rfl | rfl
    · trivial
    · exact ⟨active.trans fits, by rintro _ ⟨⟩⟩
  | release =>
    have turn : q = apart ∨ q = inside (some .none) := by
      cases q <;> first | exact permitted | exact absurd rfl (free _)
    rcases turn with rfl | rfl
    · trivial
    · have kept := mild trivial
      exact ⟨kept.1, kept.2 _ rfl⟩
  | setMask new =>
    have turn : q = apart ∨ ∃ known, q = inside known := by
      cases q <;> first | exact permitted | exact absurd rfl (free _)
    rcases turn with rfl | ⟨known, rfl⟩
    · trivial
    · refine ⟨active.trans fits.1, ?_⟩
      rintro _ ⟨⟩
      rw [interrupt]
      rfl
  | mask =>
    cases q with
    | inside known =>
      refine ⟨active.trans fits.1, ?_⟩
      rintro _ ⟨⟩
      rw [interrupt]
      exact reads.symm
    | _ => exact mild trivial
  | armed direction =>
    cases q with
    | checking =>
      have kept := mild trivial
      cases answer with
      | true =>
        refine ⟨kept.1, kept.2, ?_⟩
        rw [interrupt]
        exact reads.symm
      | false => exact kept
    | _ => exact mild trivial
  | load offset | store offset value =>
    have either : (q.after _ answer) = apart ∨ (q.after _ answer) = q := by
      by_cases here : offset = Register.macConfiguration
      · exact .inl (by cases q <;> exact if_pos here)
      · exact .inr (by cases q <;> exact if_neg here)
    rcases either with same | same <;> rw [same]
    · trivial
    · exact mild trivial
  | _ => cases q <;> exact mild trivial

end ExitStage

/-- An operation in service on something that is there. An access that is asked for from outside stays
in the window. -/
def Misuse.Admits (m : Machine) : Step → Prop
  | .operation op => op.InService ∧ m.station.target ≠ .noDevice ∧
      ∀ offset, op.Asks offset → RegisterFile.InWindow offset
  | _ => True

structure Caught (history : History) (s : Station) (depth : Nat) (op : Operation) (cause : Fault) :
    Prop where
  leaving : op = .leaveWorking
  /-- The failure tells of a queue that is registered. -/
  registered : ∃ direction, cause = .queueRegistered direction ∧
    (s.interrupt.queue direction).isSome
  /-- By now the device is inactive, and its mask is empty. -/
  inactive : s.active = false
  masked : s.interrupt.wanted = .none
  /-- The call found it active, and has not touched the configuration. -/
  left : ∃ deeds, trail.state depth history = some (.leaveWorking, deeds) ∧
    (⟨.setActive false, true⟩ : Deed) ∈ deeds ∧
    ∀ deed ∈ deeds, deed.effect.offset? ≠ some Register.macConfiguration

structure Calling (history : History) (worker depth : Nat) : Prop where
  called : calls.state worker history = some .deferred
  callback : ∃ e, latest.state worker history = some e ∧ (e = .linkChanged ∨ ∃ state, e = .publishLink state)
  above : worker < depth
  between : ∀ d, worker < d → d < depth → calls.state d history = none

theorem Calling.not_enclosed {history : History} {worker depth : Nat}
    (calling : Calling history worker depth) (outside : ¬ Enclosed worker history) :
    ¬ Enclosed depth history := by
  rintro ⟨d, under, op, e, called, takes, last, opens⟩
  rcases Nat.lt_trichotomy d worker with lower | rfl | higher
  · exact outside ⟨d, lower, op, e, called, takes, last, opens⟩
  · obtain ⟨callback, same, link⟩ := calling.callback
    rw [last] at same
    cases same
    rcases link with rfl | ⟨state, rfl⟩ <;> exact opens
  · rw [calling.between d higher under] at called
    cases called

/-- A call that has left the working state found no queue registered. -/
theorem unarmed_of_leaving {deeds : List Deed} (course : Adapter.leaveWorking.Course deeds (.ok ())) :
    ∀ direction, (⟨.armed direction, false⟩ : Deed) ∈ deeds := by
  have cleared {direction : Direction} {deeds : List Deed} {result : Unit}
      (course : (Adapter.requireCleared direction).Course deeds result) :
      (⟨.armed direction, false⟩ : Deed) ∈ deeds := by
    obtain ⟨registered, rest, rfl, course⟩ := course
    cases registered with
    | true =>
      obtain ⟨never, _⟩ := course
      exact never.elim
    | false => exact .head _
  unfold Adapter.leaveWorking at course
  rw [course_act_bind] at course
  obtain ⟨was, rest, rfl, course⟩ := course
  cases was with
  | false =>
    obtain ⟨_, result⟩ := course
    cases result
  | true =>
    rw [if_pos rfl, course_bind] at course
    obtain ⟨_, _, _, rfl, _, course⟩ := course
    rw [course_bind] at course
    obtain ⟨_, _, _, rfl, receive, course⟩ := course
    rw [course_bind] at course
    obtain ⟨_, _, _, rfl, transmit, course⟩ := course
    intro direction
    cases direction with
    | receive => simp [cleared receive]
    | transmit => simp [cleared transmit]

namespace Run

open Misuse (Admits)

variable {start m : Machine} {history : History} (resting : start.stack = [])

include resting

theorem exit_acting (run : Run Admits start history m) {op : Operation} {target : Target}
    {e : Effect} {next : e.Answer → Task} {below : List Frame}
    (top : m.stack = .running op target (.perform e next) :: below) :
    exitLaw.Acting history below.length op e :=
  run.acting resting (fun _ _ admitted => exitLaw.task admitted.1 _) top

variable (free : start.station.interrupt.lock = .free)

include free

/-- Above a holder of the lock nobody changes the working state or the mask. -/
theorem mild_above (run : Run Admits start history m) (patient : history.Patient) {holder : Nat}
    {op : Operation} {target : Target} {e : Effect} {next : e.Answer → Task} {below : List Frame}
    (top : m.stack = .running op target (.perform e next) :: below)
    (holds : Holding history holder) (under : holder < below.length) : e.Mild := by
  have inService : ∀ m op, Admits m (.operation op) → op.InService := fun _ _ admitted => admitted.1
  have acting := run.acting resting (lockLaw.obeyed inService) top
  cases e with
  | setActive on =>
    have transition := run.allowed Operation.reaches resting Operation.reaches_only top
    have stays : op.takesLock = false ∨ op = .deferred :=
      (run.unasking resting inService patient holder _ op holds under acting.called).imp_right And.left
    rw [show op = if on then .enterWorking else .leaveWorking from transition] at stays
    cases on <;> rcases stays with stays | stays <;> cases stays
  | setMask new =>
    have holdsToo : Holding history below.length := acting.permitted
    exact absurd ((run.single resting inService free).holder_unique holds holdsToo) (by omega)
  | attach => exact acting.permitted.elim
  | _ => trivial

/-- Nobody gets in the way of a call on its way out: only its section lets others in, and they leave
the working state and the mask alone. -/
theorem exits (run : Run Admits start history m) (patient : history.Patient) :
    ∀ depth, (exitLaw.state depth history).Fits m.station := by
  refine Run.account (P := fun history s => history.Patient →
    ∀ depth, (exitLaw.state depth history).Fits s) ?initial ?blind ?surround ?operate ?act ?renew
    ?finish ?abort run patient
  case initial => exact fun _ _ => trivial
  case blind => exact fun _ kept => kept
  case surround =>
    intro history m step below _ _ _ surrounds kept patient depth
    rw [Law.state_surround surrounds]
    have fits := kept patient.2 depth
    unfold ExitStage.Fits at *
    rw [(Station.meet_target step).2, Station.meet_interrupt]
    exact fits
  case operate =>
    intro history m op below _ _ _ kept patient depth
    rw [Law.state_begun]
    split
    · rw [exitLaw.start_eq]
      split <;> trivial
    · exact kept patient.2 depth
  case act =>
    intro history m op target e next below answer after run top applied kept patient depth
    have fits := kept patient.2 depth
    have acting := run.exit_acting resting top
    rw [Law.state_acted]
    split
    · rename_i here
      subst here
      exact fits.act acting.permitted applied
    · rename_i other
      rcases Nat.lt_or_gt_of_ne other with higher | under
      · rw [acting.above depth higher]
        trivial
      · rcases acting.below depth under with idle | ⟨known, inside⟩
        · rw [idle]
          trivial
        · have holds := exitLaw.holding_of_inside inside
          have mild := run.mild_above resting free patient.2 top holds under
          obtain ⟨active, wanted⟩ := Station.apply_mild applied mild
          rw [inside] at fits ⊢
          exact fits.keep (by rintro _ ⟨⟩) active wanted
  case renew =>
    intro history m op target below _ _ kept patient depth
    rw [Law.state_renewed]
    split
    · rw [exitLaw.start_eq]
      split <;> trivial
    · exact kept patient.2 depth
  case finish =>
    intro history m op target answer below _ _ kept patient depth
    rw [Law.state_ended]
    split
    · trivial
    · exact kept patient.2 depth
  case abort => exact fun _ _ _ _ _ _ => trivial

omit free in
theorem not_outside (run : Run Admits start history m) {op : Operation} {target : Target} {e : Effect}
    {next : e.Answer → Task} {below : List Frame}
    (top : m.stack = .running op target (.perform e next) :: below) : ¬ e.Outside := by
  have asked := run.traced
    (fun op _ => ∀ offset, op.Asks offset → RegisterFile.InWindow offset) resting
    fun _ _ admitted => admitted.2.2
  rw [top] at asked
  have reaches := run.allowed Operation.reaches resting Operation.reaches_only top
  rintro ⟨offset, outside, access⟩
  have reached : op.Asks offset ∨ Register.Listed offset ∨
      Register.SlotWord target.tableSize offset := by
    rcases access with rfl | ⟨value, rfl⟩ <;> exact reaches
  rcases reached with asks | listed | word
  · exact outside (asked.1.1 offset asks)
  · exact outside listed.inWindow
  · exact outside (word.inWindow target.tableSize_le)

omit free in
/-- The interrupt handler cannot fail, whoever holds the lock. -/
theorem handler_unfailing (run : Run Admits start history m) {target : Target} {e : Effect}
    {next : e.Answer → Task} {below : List Frame} {cause : Fault}
    (top : m.stack = .running .interrupt target (.perform e next) :: below) :
    m.station.apply e ≠ .error cause := by
  intro applied
  have acting := run.acting resting (lockLaw.obeyed fun _ _ admitted => admitted.1) top
  rcases Station.apply_error applied with rfl | ⟨_, takes⟩ | ⟨_, outside⟩
  · have reaches := run.allowed Operation.reaches resting Operation.reaches_only top
    cases reaches.1
  · have may : (lockLaw.state below.length history).takes = true := by
      have permitted := acting.permitted
      rcases takes with rfl | rfl | ⟨direction, rfl⟩ <;> exact permitted.1
    obtain ⟨op, called, takesLock⟩ := takes_of_state may
    rw [acting.called] at called
    cases called
    cases takesLock
  · exact run.not_outside resting top outside

theorem caught (run : Run Admits start history m) (patient : history.Patient) {op : Operation}
    {target : Target} {e : Effect} {next : e.Answer → Task} {below : List Frame} {cause : Fault}
    (top : m.stack = .running op target (.perform e next) :: below)
    (applied : m.station.apply e = .error cause) :
    Caught history m.station below.length op cause := by
  rcases Station.apply_error applied with rfl | ⟨held, takes⟩ | ⟨_, outside⟩
  · obtain ⟨rfl, direction, rfl⟩ :=
      run.allowed Operation.reaches resting Operation.reaches_only top
    have stage : exitLaw.state below.length history = .caught direction := by
      have permitted := (run.exit_acting resting top).permitted
      rw [exitLaw.permits_eq] at permitted
      cases shape : exitLaw.state below.length history with
      | caught other =>
        rw [shape] at permitted
        cases permitted
        rfl
      | _ =>
        rw [shape] at permitted
        exact permitted.elim
    have fits := run.exits resting free patient below.length
    obtain ⟨deeds, follows, untouched, active⟩ := exitLaw.left_of_stage (by rw [stage]; rintro ⟨⟩)
    rw [stage] at fits active
    exact ⟨rfl, ⟨direction, rfl, fits.2.2⟩, fits.1, fits.2.1, deeds, follows,
      active (by rintro ⟨⟩), untouched⟩
  · exact absurd (run.granted resting (fun _ _ admitted => admitted.1)
      (fun _ _ admitted => admitted.2.1) free patient top takes) held
  · exact absurd outside (run.not_outside resting top)

/-- Who is not enclosed finds the lock free. -/
theorem free_outside (run : Run Admits start history m) {step : Step} {below : List Frame}
    (awaits : Awaits step m.stack below) (outside : ¬ Enclosed m.stack.length history) :
    m.station.interrupt.lock = .free := by
  have inService : ∀ m op, Admits m (.operation op) → op.InService := fun _ _ admitted => admitted.1
  refine (run.single resting inService free).free_of_none fun holder holds => ?_
  rcases Nat.lt_or_ge holder m.stack.length with under | above
  · exact outside ((run.gated resting inService).enclosed holds under
      ((run.latest_opening resting awaits).below holder under))
  · unfold Holding at holds
    rw [(run.opening resting (lockLaw.obeyed inService) awaits).above holder above] at holds
    cases holds

/-- As long as nothing that takes the lock happens in an enclosed place, nothing fails but a call that
leaves the working state while a queue is registered, and it fails once the device is inactive with an
empty mask. The interrupt handler never does; a link callback may take the lock if its worker may; and
a call that has left the working state found no queue registered. -/
theorem fails_only_leaving (run : Run Admits start history m) :
    (history.Patient → ∀ op target e next below cause,
      m.stack = .running op target (.perform e next) :: below → m.station.apply e = .error cause →
      Caught history m.station below.length op cause) ∧
    (∀ target e next below cause, m.stack = .running .interrupt target (.perform e next) :: below →
      m.station.apply e ≠ .error cause) ∧
    (∀ worker step below, Awaits step m.stack below → Calling history worker m.stack.length →
      ¬ Enclosed worker history →
      m.station.interrupt.lock = .free ∧ (Entry.begun m.stack.length step).Patient history) ∧
    ∀ target below, m.stack = .running .leaveWorking target (.done (.finished .ok)) :: below →
      ∃ deeds, trail.state below.length history = some (.leaveWorking, deeds) ∧
        ∀ direction, (⟨.armed direction, false⟩ : Deed) ∈ deeds := by
  refine ⟨fun patient op target e next below cause top applied =>
      run.caught resting free patient top applied,
    fun target e next below cause top => run.handler_unfailing resting top,
    fun worker step below awaits calling outside => ?_, fun target below top => ?_⟩
  · have unenclosed := calling.not_enclosed outside
    refine ⟨run.free_outside resting free awaits unenclosed, ?_⟩
    cases step with
    | operation op => exact fun _ _ => unenclosed
    | _ => trivial
  · obtain ⟨deeds, present, follows, course⟩ := run.round_course
      (fun _ target => target ≠ .noDevice) resting (fun _ _ admitted => admitted.2.1) top
    refine ⟨deeds, follows, ?_⟩
    cases target with
    | device adapter =>
      obtain ⟨result, leaving, answered⟩ := (course_once ..).mp course
      cases result with
      | ok => exact unarmed_of_leaving leaving
      | error => cases answered
    | _ => cases course.2

end Run

def registeredDevice : Machine where
  station :=
    { registers := { cell := fun _ => 0 }
      target := .device ⟨0, ⟨0, 0, 0, 0, 0⟩, .ofWidth .bits32, .zero, .zero⟩
      active := true
      interrupt :=
        { wanted := .receiveOnly
          queue := fun direction => if direction = .receive then some ⟨"rx"⟩ else none } }

theorem Run.fails_only_leaving_registeredDevice :
    ∃ (history : History) (m : Machine) (target : Target) (e : Effect) (next : e.Answer → Task),
      m.stack = [.running .leaveWorking target (.perform e next)] ∧
      m.station.apply e = .error (.queueRegistered .receive) ∧
      Caught history m.station 0 .leaveWorking (.queueRegistered .receive) := by
  have begun : Run Misuse.Admits registeredDevice _
      (registeredDevice.begin (.operation .leaveWorking)) :=
    Run.refl.begin rfl ⟨trivial, by rintro ⟨⟩, by rintro _ ⟨⟩⟩
  have checked := begun.advances 9 ⟨rfl, by rintro _ (_ | ⟨_, ⟨⟩⟩) _ ⟨⟩⟩
  have patient : History.Patient ((registeredDevice.begin (.operation .leaveWorking)).entries 9 ++
      [.begun 0 (.operation .leaveWorking)]) :=
    History.patient_of_level (by decide)
  have caught := (checked.fails_only_leaving rfl rfl).1 patient
  exact ⟨_, _, _, _, _, rfl, rfl, caught _ _ _ _ _ _ rfl rfl⟩

end EthernetMac
