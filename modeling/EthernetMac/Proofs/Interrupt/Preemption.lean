import EthernetMac.Proofs.Call
import EthernetMac.Proofs.Interlude
import EthernetMac.Proofs.Interrupt.Handled

/-! Interrupts in the middle of an operation on the device. The handler neither takes the lock nor
touches a register, the mask or a handle that the operation uses, so that it can as well run when the
operation is over. -/

namespace EthernetMac

open Program

def Operation.Control : Operation → Prop
  | enable _ | disable _ | register _ _ | filter _ _ | leaveWorking => True
  | _ => False

namespace Effect

theorem Elsewhere.load {offset : Nat} (here : offset = Register.macConfiguration) :
    (Effect.load offset).Elsewhere := here

theorem Elsewhere.store {offset : Nat} {value : Word} (link : offset ≠ Register.macInterruptStatus)
    (channel : offset ≠ Register.channelStatus) : (Effect.store offset value).Elsewhere :=
  ⟨link, channel⟩

theorem elsewhere_of_section (e : Effect) (inside : sectionActions e) : e.Elsewhere := by
  cases e with
  | store offset value =>
    rcases inside with rfl | rfl <;> exact .store (by decide) (by decide)
  | load | merge | drain | attach | detach => exact inside.elim
  | _ => trivial

theorem elsewhere_of_filter {tableSize : Nat} (small : tableSize < 32) (e : Effect)
    (inside : filterActions tableSize e) : e.Elsewhere := by
  cases e with
  | store offset value =>
    rcases inside with rfl | ⟨slot, less, either⟩
    · exact .store (by decide) (by decide)
    · have low : slot < 32 := by omega
      have table : 0x300 ≤ offset ∧ offset < 0x400 := by
        simp only [Register.addressHigh, Register.addressLow, Register.addressTable,
          Register.addressStride] at either
        omega
      have link : Register.macInterruptStatus < 0x300 := by decide
      have channel : 0x400 < Register.channelStatus := by decide
      exact .store (by omega) (by omega)
  | load | merge | drain | attach | detach => exact inside.elim
  | _ => trivial

theorem Elsewhere.target_eq {e : Effect} (elsewhere : e.Elsewhere) (target : Target) :
    e.target target = target := by
  cases e <;> first | rfl | exact elsewhere.elim

end Effect

theorem Adapter.leaveWorking_elsewhere : Adapter.leaveWorking.Only Effect.Elsewhere := by
  refine leaveWorking_only.mono fun e inside => ?_
  cases e with
  | load offset => exact .load inside
  | store offset value =>
    rcases inside with rfl | mask
    · exact .store (by decide) (by decide)
    · exact Effect.elsewhere_of_section _ (sectionActions_of_mask _ mask)
  | merge | drain | attach | detach => exact inside.elim
  | _ => trivial

/-- No control operation sees what a handler does, or changes what it sees. -/
theorem Operation.Control.only {op : Operation} (control : op.Control) (target : Target) :
    (op.task target).Only Effect.Elsewhere := by
  have once {p : Program Unit} {answer : Unit → Answer} (only : p.Only sectionActions) :
      (Task.once p answer).Only Effect.Elsewhere :=
    (only.mono Effect.elsewhere_of_section).bind fun _ => .pure _
  have inService : op.InService := by cases op <;> trivial
  have work := op.work inService target
  generalize op.task target = task at work
  cases work with
  | nothing => exact .pure _
  | register direction queue => exact once (Interrupt.register_only direction queue)
  | enable bits => exact once (Interrupt.enable_only bits)
  | disable bits => exact once (Interrupt.disable_only bits)
  | filter a flags multicast =>
    have only := applyFilter_only a.features.addressCount a.current flags multicast
    have small := a.features.addressCount_lt
    exact (only.mono (Effect.elsewhere_of_filter small)).bind fun _ => .pure _
  | leaveWorking => exact Adapter.leaveWorking_elsewhere.bind fun _ => .pure _
  | _ => exact control.elim

/-- `t` is what interrupts that answer `answers`, the latest first, make of `s`. -/
def Interrupted (s : Station) : List Bool → Station → Prop
  | [], t => t = s
  | answer :: earlier, t =>
    ∃ before, Interrupted s earlier before ∧ Interrupt.handle.run before = (.ok answer, t)

def Handles (s : Station) : List Bool → Station → Prop
  | [], t => t = s
  | answer :: earlier, t =>
    ∃ before, Handles s earlier before ∧ answer = before.raised ∧ t = before.handled

namespace Handles

variable {s t after : Station} {answers : List Bool} {e : Effect}

theorem backing (handles : Handles s answers t) : t.registers.backing = s.registers.backing := by
  induction answers generalizing t with
  | nil => exact congrArg (·.registers.backing) handles
  | cons answer earlier ih =>
    obtain ⟨before, handles, _, rfl⟩ := handles
    have kept := ih handles
    exact kept

theorem target (handles : Handles s answers t) : t.target = s.target := by
  induction answers generalizing t with
  | nil => exact congrArg Station.target handles
  | cons answer earlier ih =>
    obtain ⟨before, handles, _, rfl⟩ := handles
    have kept := ih handles
    exact kept

theorem retrace (handles : Handles s answers t) (trace : List Event) :
    Handles { s with trace } answers { t with trace } := by
  induction answers generalizing t with
  | nil =>
    cases handles
    rfl
  | cons answer earlier ih =>
    obtain ⟨before, handles, answered, rfl⟩ := handles
    exact ⟨{ before with trace }, ih handles, answered, rfl⟩

/-- An action elsewhere can as well come before the interrupts. -/
theorem apply_ok (handles : Handles s answers t) (device : s.registers.backing = .device)
    (elsewhere : e.Elsewhere) {answer : e.Answer} (applied : s.apply e = .ok (answer, after)) :
    ∃ last, t.apply e = .ok (answer, last) ∧ Handles after answers last := by
  induction answers generalizing t with
  | nil =>
    cases handles
    exact ⟨after, applied, rfl⟩
  | cons latest earlier ih =>
    obtain ⟨before, handles, rfl, rfl⟩ := handles
    obtain ⟨last, swapped, onward⟩ := ih handles
    have stays := handles.backing.trans device
    refine ⟨last.handled, ?_, last, onward, ?_, rfl⟩
    · rw [Station.apply_handled stays elsewhere, swapped]
      rfl
    · exact (Station.apply_causes elsewhere swapped).1.symm

theorem apply_error (handles : Handles s answers t) (device : s.registers.backing = .device)
    (elsewhere : e.Elsewhere) {cause : Fault} (applied : s.apply e = .error cause) :
    t.apply e = .error cause := by
  induction answers generalizing t with
  | nil =>
    cases handles
    exact applied
  | cons latest earlier ih =>
    obtain ⟨before, handles, rfl, rfl⟩ := handles
    rw [Station.apply_handled (handles.backing.trans device) elsewhere, ih handles]
    rfl

theorem interrupted (handles : Handles s answers t) (device : s.registers.backing = .device) :
    ∃ trace, Interrupted s answers { t with trace } := by
  induction answers generalizing t with
  | nil =>
    cases handles
    exact ⟨s.trace, rfl⟩
  | cons latest earlier ih =>
    obtain ⟨before, handles, rfl, rfl⟩ := handles
    obtain ⟨trace, interrupted⟩ := ih handles
    have stays : ({ before with trace } : Station).registers.backing = .device :=
      handles.backing.trans device
    obtain ⟨trace', ran⟩ := Interrupt.handle_run stays
    exact ⟨trace', _, interrupted, ran⟩

end Handles

def Entry.ownEvent? : Entry → Option Event
  | .acted 0 _ e answer => e.event? answer
  | _ => none

def ownEvents (history : History) : List Event := history.filterMap Entry.ownEvent?

def Station.afterCall (s : Station) : Except Fault Answer → Station
  | .ok _ => s
  | .error _ => s.unlocked

namespace Preemption

def Admits (m : Machine) (step : Step) : Prop :=
  step = .operation .interrupt ∧ FreeOf .interrupt m.stack

/-- The call of `op` would be where it is, or at its end, without the interrupts, and those could as
well come now. -/
inductive Deferrable (start : Station) (op : Operation) : History → Station → List Frame → Prop where
  | going {history : History} {alone last s : Station} {rest : Task} {above : List Frame}
      (own : rest.run alone = (op.task start.target).run { start with trace := [] })
      (only : rest.Only Effect.Elsewhere) (device : alone.registers.backing = .device)
      (target : alone.target = start.target) (shown : alone.trace = ownEvents history)
      (handles : Handles alone (handlerAnswers history) last)
      (same : ∃ trace, s = { last with trace })
      (waiting : ∀ frame ∈ above, ∃ steps, frame = .steps steps)
      (unfinished : ∀ outcome, history.head? ≠ some (op.over outcome)) :
      Deferrable start op history s (above ++ [.running op start.target rest])
  | settled {inner : History} {outcome : Except Fault Answer} {alone last s : Station}
      (own : (op.task start.target).run { start with trace := [] } =
        (outcome.map .finished, alone))
      (device : alone.registers.backing = .device) (target : alone.target = start.target)
      (shown : alone.trace = ownEvents inner)
      (handles : Handles alone (handlerAnswers inner) last)
      (same : ∃ trace, s = { last.afterCall outcome with trace }) :
      Deferrable start op (op.over outcome :: inner) s []

section Moves

variable {start s after : Station} {op : Operation} {history : History} {stack : List Frame}

theorem ownEvents_acted (op : Operation) (e : Effect) (answer : e.Answer) :
    ownEvents (.acted 0 op e answer :: history) =
      (e.event? answer).toList ++ ownEvents history := by
  unfold ownEvents
  rw [List.filterMap_cons, show (Entry.acted 0 op e answer).ownEvent? = e.event? answer from rfl]
  cases e.event? answer <;> rfl

theorem Deferrable.own {alone last : Station} {rest : Task} {trace : List Event}
    {entry : Option Entry} (control : op.Control)
    (own : rest.run alone = (op.task start.target).run { start with trace := [] })
    (only : rest.Only Effect.Elsewhere) (device : alone.registers.backing = .device)
    (target : alone.target = start.target) (shown : alone.trace = ownEvents history)
    (handles : Handles alone (handlerAnswers history) last)
    (move : Move { last with trace } [.running op start.target rest] entry after stack) :
    Deferrable start op (entry.toList ++ history) after stack := by
  cases move with
  | surround awaits => cases awaits
  | operate awaits => cases awaits
  | @act _ _ e next _ pushed answer _ applied lets =>
    rw [Station.apply_trace] at applied
    cases alike : alone.apply e with
    | error cause =>
      rw [handles.apply_error device only.1 alike] at applied
      cases applied
    | ok reply =>
      obtain ⟨result, onward⟩ := reply
      obtain ⟨last', swapped, handles⟩ := handles.apply_ok device only.1 alike
      rw [swapped] at applied
      cases applied
      have onwards := (Program.run_next alike alone.trace).symm.trans own
      have target' : onward.target = start.target := by
        rw [(Station.apply_target alike).1, ← target]
        exact only.1.target_eq alone.target
      have goes : Deferrable start op (.acted 0 op e result :: history) { last' with trace }
          (pushed ++ [.running op start.target (next result)]) := by
        refine .going onwards (only.2 result).2 ((Station.apply_backing alike).trans device) target'
          ?_ (handles.retrace _) ⟨trace, rfl⟩ (Frame.steps_of_let lets) ?_
        · rw [ownEvents_acted, ← shown]
        · intro outcome same
          cases outcome <;> cases same
      exact goes
  | renew =>
    obtain ⟨deeds, course, _⟩ := Program.run_eq_ok_iff.mp own.symm
    rw [Operation.again_only course] at control
    exact control.elim
  | @finish _ _ answer =>
    have ended : Deferrable start op (op.over (.ok answer) :: history) { last with trace } [] :=
      .settled own.symm device target shown handles ⟨trace, rfl⟩
    exact ended
  | @abort _ _ e _ _ cause applied =>
    rw [Station.apply_trace] at applied
    cases alike : alone.apply e with
    | ok reply =>
      obtain ⟨_, swapped, _⟩ := handles.apply_ok device only.1 alike
      rw [swapped] at applied
      cases applied
    | error other =>
      rw [handles.apply_error device only.1 alike] at applied
      cases applied
      have stopped := (Program.run_fault alike alone.trace).symm.trans own
      have ended : Deferrable start op (op.over (.error cause) :: history)
          (Station.unlocked { last with trace }) [] :=
        .settled stopped.symm device target shown handles ⟨trace, rfl⟩
      exact ended

theorem Deferrable.steady (kept : Deferrable start op history s stack) : s.target = start.target := by
  cases kept with
  | going _ _ _ target _ handles same =>
    obtain ⟨_, rfl⟩ := same
    exact handles.target.trans target
  | @settled _ outcome _ _ _ _ _ target _ handles same =>
    obtain ⟨_, rfl⟩ := same
    cases outcome <;> exact handles.target.trans target

theorem Deferrable.retrace (kept : Deferrable start op history s stack) (trace : List Event) :
    Deferrable start op history { s with trace } stack := by
  cases kept with
  | going own only device target shown handles same waiting unfinished =>
    obtain ⟨_, rfl⟩ := same
    exact .going own only device target shown handles ⟨trace, rfl⟩ waiting unfinished
  | settled own device target shown handles same =>
    obtain ⟨_, rfl⟩ := same
    exact .settled own device target shown handles ⟨trace, rfl⟩

theorem Deferrable.other {m : Machine} {entry : Option Entry} (control : op.Control)
    (kept : Deferrable start op history m.station m.stack)
    (move : Move m.station m.stack entry after stack)
    (admitted : ∀ depth step, entry = some (.begun depth step) →
      Inside Admits m step ∧ step ≠ .operation .interrupt) :
    Deferrable start op (entry.toList ++ history) after stack := by
  have nothing {depth : Nat} {step : Step} : entry ≠ some (.begun depth step) := by
    intro begun
    obtain ⟨⟨_, same, _⟩, other⟩ := admitted depth step begun
    exact other same
  generalize m.stack = levels at move kept
  generalize m.station = s at move kept
  cases kept with
  | @going _ alone last _ rest above own only device target shown handles same waiting unfinished =>
    obtain ⟨trace, rfl⟩ := same
    cases above with
    | nil => exact .own control own only device target shown handles move
    | cons frame above =>
      obtain ⟨⟨steps, rfl⟩, lower⟩ := List.forall_mem_cons.mp waiting
      cases move with
      | surround => exact absurd rfl nothing
      | operate => exact absurd rfl nothing
      | leave => exact .going own only device target shown handles ⟨trace, rfl⟩ lower unfinished
  | settled =>
    cases move with
    | surround => exact absurd rfl nothing
    | operate => exact absurd rfl nothing

theorem Deferrable.opens {m : Machine} {below : List Frame} (busy : m.stack ≠ [])
    (awaits : Awaits (.operation .interrupt) m.stack below)
    (kept : Deferrable start op history m.station m.stack) :
    Deferrable start op (.begun m.stack.length (.operation .interrupt) :: history) m.station
      below := by
  generalize m.stack = levels at awaits kept busy
  generalize m.station = s at kept
  cases kept with
  | @going _ alone last _ rest above own only device target shown handles same waiting unfinished =>
    cases above with
    | nil => cases awaits
    | cons frame above =>
      obtain ⟨_, lower⟩ := List.forall_mem_cons.mp waiting
      cases awaits with
      | @nested later =>
        have still : ∀ frame ∈ Frame.steps later :: above, ∃ steps, frame = .steps steps :=
          List.forall_mem_cons.mpr ⟨⟨later, rfl⟩, lower⟩
        have goes (depth : Nat) : Deferrable start op
            (.begun depth (.operation .interrupt) :: history) s
            (.steps later :: above ++ [.running op start.target rest]) := by
          refine .going own only device target shown handles same still ?_
          intro outcome same
          cases outcome <;> cases same
        exact goes _
  | settled => exact absurd rfl busy

end Moves

/-- What a handler does shows neither as an answer nor at top level. -/
theorem quiet_acts {acts history : History} {depth : Nat} (inner : 0 < depth)
    (own : ∀ entry ∈ acts, ∃ e answer, entry = .acted depth .interrupt e answer) :
    handlerAnswers (acts ++ history) = handlerAnswers history ∧
      ownEvents (acts ++ history) = ownEvents history := by
  have unanswered : acts.filterMap Entry.handlerAnswer? = [] :=
    History.filterMap_acts own fun _ _ => rfl
  have unshown : acts.filterMap Entry.ownEvent? = [] := by
    obtain ⟨depth, rfl⟩ := Nat.exists_eq_succ_of_ne_zero (Nat.ne_of_gt inner)
    exact History.filterMap_acts own fun _ _ => rfl
  unfold handlerAnswers ownEvents
  rw [List.filterMap_append, List.filterMap_append, unanswered, unshown]
  exact ⟨rfl, rfl⟩

section Handler

variable {start s after : Station} {op : Operation} {history acts : History} {below : List Frame}
  {adapter : Adapter} (prepared : start.target = .device adapter)
  (kept : Deferrable start op history s below) (opened : history.Opens below.length .interrupt)

include prepared kept opened

/-- A handler that is done could as well come after the operation. -/
theorem Deferrable.round {round : Round Answer}
    (own : ∀ entry ∈ acts, ∃ e answer, entry = .acted below.length .interrupt e answer)
    (ran : (Operation.interrupt.task start.target).run { s with trace := [] } = (.ok round, after)) :
    Deferrable start op (round.entry below.length .interrupt :: (acts ++ history)) after below := by
  cases kept with
  | @going _ alone last _ rest above owns only device target shown handles same waiting unfinished =>
    obtain ⟨trace, rfl⟩ := same
    have found : last.registers.backing = .device := handles.backing.trans device
    obtain ⟨trace', handled⟩ := Interrupt.once_run (s := { last with trace := [] }) found
    rw [prepared] at ran
    obtain ⟨same, rfl⟩ := Prod.mk.inj (ran.symm.trans handled)
    cases same
    have inner : 0 < (above ++ [Frame.running op start.target rest]).length := by simp
    obtain ⟨answers, events⟩ := @quiet_acts acts history _ inner own
    have later : Handles alone (last.raised :: handlerAnswers (acts ++ history)) last.handled := by
      rw [answers]
      exact ⟨last, handles, rfl, rfl⟩
    refine .going owns only device target (shown.trans events.symm) later ⟨trace', rfl⟩ waiting ?_
    · intro outcome same
      cases outcome with
      | ok =>
        obtain ⟨level, _⟩ := Entry.ended.inj (Option.some.inj same)
        exact absurd level (Nat.ne_of_gt inner)
      | error => cases same
  | @settled inner outcome =>
    rcases opened with same | same <;> cases outcome <;> cases same

theorem Deferrable.unfailing {cause : Fault}
    (ran : (Operation.interrupt.task start.target).run { s with trace := [] } =
      (.error cause, after)) : False := by
  cases kept with
  | @going _ alone last _ rest above owns only device target shown handles same =>
    obtain ⟨trace, rfl⟩ := same
    have found : last.registers.backing = .device := handles.backing.trans device
    obtain ⟨trace', handled⟩ := Interrupt.once_run (s := { last with trace := [] }) found
    rw [prepared] at ran
    cases ran.symm.trans handled
  | @settled inner outcome =>
    rcases opened with same | same <;> cases outcome <;> cases same

end Handler

theorem interludes {m : Machine} {start : Station} {op : Operation} {adapter : Adapter}
    (control : op.Control) (prepared : start.target = .device adapter) :
    Interludes (Inside Admits) m .interrupt start.target (Deferrable start op) where
  alone _ _ admitted := admitted.2.2
  steady kept := kept.steady
  blind trace kept := kept.retrace trace
  other _ _ move admitted kept := kept.other control move admitted
  opens _ admitted awaits kept := kept.opens admitted.1 awaits
  round kept opened own ran _ := kept.round prepared opened own ran
  fault kept opened _ ran _ := (kept.unfailing prepared opened ran).elim

end Preemption

open Preemption (Admits Deferrable)

/-- A control operation that interrupts preempt does what it does alone, access by access, and comes
to the same result or stops at the same fault. The interrupts answer and leave what they do when they
follow it. -/
theorem Call.preempted {start m : Machine} {op : Operation} {outcome : Except Fault Answer}
    {inner : History} {adapter : Adapter} (control : op.Control)
    (device : start.station.registers.backing = .device)
    (prepared : start.station.target = .device adapter)
    (call : Call Admits start op outcome inner m) :
    ∃ alone last,
      (op.task start.station.target).run { start.station with trace := [] } =
        (outcome.map .finished, alone) ∧
      alone.trace = ownEvents inner ∧
      Interrupted alone (handlerAnswers inner) last ∧
      ∃ trace, m.station = { last.afterCall outcome with trace } := by
  have begun : (start.begin (.operation op)).stack =
      [.running op start.station.target (op.task start.station.target)] := by
    simp [Machine.begin, Machine.issue, Machine.start, call.resting]
  have initial : Deferrable start.station op [] (start.begin (.operation op)).station
      (start.begin (.operation op)).stack := by
    rw [begun]
    have goes : Deferrable start.station op [] { start.station with trace := [] }
        ([] ++ [.running op start.station.target (op.task start.station.target)]) :=
      .going rfl (control.only _) device rfl rfl rfl ⟨[], rfl⟩ (List.forall_mem_nil _) (by simp)
    exact goes
  have free : FreeOf .interrupt (start.begin (.operation op)).stack := by
    rw [begun]
    refine FreeOf.cons ?_ (List.forall_mem_nil _)
    rintro ⟨⟩
    exact control
  have stands := (Preemption.interludes control prepared).holds free initial call.run
  generalize whole : op.over outcome :: inner = history at stands
  generalize m.stack = stack at stands
  cases stands with
  | apart _ kept =>
    cases kept with
    | going _ _ _ _ _ _ _ _ unfinished => exact absurd (congrArg List.head? whole.symm) (unfinished outcome)
    | @settled _ other alone last _ own device target shown handles same =>
      obtain ⟨ended, rfl⟩ := List.cons.inj whole
      obtain rfl : outcome = other := by
        cases outcome <;> cases other <;> cases ended <;> rfl
      obtain ⟨trace, interrupted⟩ := handles.interrupted device
      obtain ⟨_, same⟩ := same
      exact ⟨alone, _, own, shown, interrupted, _, by
        cases outcome <;> exact same⟩
  | @inside earlier acts _ _ _ pushed _ _ _ opened own =>
    cases acts with
    | nil =>
      rw [List.nil_append] at whole
      subst whole
      rcases opened with same | same <;> cases outcome <;> cases same
    | cons entry acts =>
      obtain ⟨⟨_, _, rfl⟩, _⟩ := List.forall_mem_cons.mp own
      cases outcome <;> cases (List.cons.inj whole).1

def interruptedWrite : Machine where
  station :=
    { registers :=
        { cell := fun offset =>
            if offset = Register.macInterruptStatus then 1
            else if offset = Register.channelStatus then 0x40 else 0 }
      target := .device ⟨0, ⟨0, 0, 0, 0, 0⟩, .ofWidth .bits32, .zero, .zero⟩
      active := true }
  hooks := [(.write Register.macInterruptEnable, [.operation .interrupt, .operation .interrupt])]

theorem Call.preempted_interruptedWrite :
    ∃ (m : Machine) (inner : History) (alone last : Station),
      Call Admits interruptedWrite (.enable .all) (.ok .ok) inner m ∧
      handlerAnswers inner = [false, true] ∧
      ((Operation.enable .all).task interruptedWrite.station.target).run
        { interruptedWrite.station with trace := [] } = (.ok (.finished .ok), alone) ∧
      alone.trace = ownEvents inner ∧ Interrupted alone (handlerAnswers inner) last ∧
      ∃ trace, m.station = { last with trace } := by
  have above (later : List Step) (rest : Task) : FreeOf .interrupt
      [.steps later, .running (.enable .all) interruptedWrite.station.target rest] :=
    FreeOf.cons nofun (FreeOf.cons nofun (List.forall_mem_nil _))
  have call : Call Admits interruptedWrite (.enable .all) (.ok .ok) _ _ :=
    .letting 60 rfl (List.forall_mem_cons.mpr ⟨⟨nofun, rfl, above _ _⟩,
      List.forall_mem_singleton.mpr ⟨nofun, rfl, above _ _⟩⟩) rfl
  have control : (Operation.enable .all).Control := trivial
  obtain ⟨alone, last, ran, shown, interrupted, same⟩ := call.preempted control rfl rfl
  exact ⟨_, _, alone, last, call, rfl, ran, shown, interrupted, same⟩

end EthernetMac
