import EthernetMac.Proofs.Interlude
import EthernetMac.Proofs.Interrupt.Served

/-! When the worker runs does not matter. The handler does not see it, and what is pending is served
all at once or word by word with the same result. -/

namespace EthernetMac

open Program

def Entry.stimulus? : Entry → Option Step
  | .begun _ (.raiseChannel bits) => some (.raiseChannel bits)
  | .begun _ .raiseLink => some .raiseLink
  | .begun _ (.operation .interrupt) => some (.operation .interrupt)
  | _ => none

def stimuli (history : History) : List Step := history.filterMap Entry.stimulus?

def shown (history : History) : List Event := history.filterMap Entry.event?

def Event.notified? : Event → Option QueueHandle
  | .notify queue => some queue
  | _ => none

def notified (trace : List Event) : List QueueHandle := trace.filterMap Event.notified?

namespace Station

def stimulated (s : Station) : List Step → Station
  | [] => s
  | .operation .interrupt :: earlier => (s.stimulated earlier).handled
  | step :: earlier => (s.stimulated earlier).meet step

def answering (s : Station) : List Step → List Bool
  | [] => []
  | .operation .interrupt :: earlier => (s.stimulated earlier).raised :: s.answering earlier
  | _ :: earlier => s.answering earlier

def withdrawn (s t : Station) : List QueueHandle :=
  [Direction.transmit, .receive].flatMap fun direction =>
    if t.interrupt.queue direction = none then (s.interrupt.queue direction).toList else []

end Station

/-- `s` is `t` but for the worker, which has served the causes `done`. -/
structure Behind (done : Word) (t s : Station) : Prop where
  device : t.registers.backing = .device
  target : t.target = .interrupts
  free : t.interrupt.lock = .free
  same : ∃ pending counters trace, done ||| pending.word = t.interrupt.pending.word ∧
    s = ((t.served (.ofWord done)).noting counters trace).mapInterrupt ({ · with pending })

structure Told (s : Station) (done : Word) (trace : List Event) : Prop where
  queues : (notified trace).Perm (s.hearing (.ofWord done))
  link : .linkChanged ∈ trace ↔ (Causes.ofWord done).link = true

theorem Station.served_raise {s : Station} {step : Step}
    (raises : step = .raiseLink ∨ ∃ bits, step = .raiseChannel bits) (c : Causes) :
    (s.served c).meet step = (s.meet step).served c := by
  let new := s.interrupt.wanted.difference c.queues
  have past (offset : Nat) (apart : ∀ other, RegisterFile.Enables other → other ≠ offset)
      (update : Word → Word) :
      (s.enabling new).set offset (update ((s.enabling new).cell offset)) =
        { s with registers := s.registers.set offset (update (s.registers.cell offset)) }.enabling new := by
    have mac := apart _ (.inl rfl)
    have channel := apart _ (.inr rfl)
    unfold enabling
    dsimp only
    split
    · rfl
    · rw [RegisterFile.cell_set_of_ne _ _ channel.symm, RegisterFile.cell_set_of_ne _ _ mac.symm,
        RegisterFile.set_set_of_ne _ channel, RegisterFile.set_set_of_ne _ mac]
  rcases raises with rfl | ⟨bits, rfl⟩
  · have raised := past Register.macInterruptStatus (by rintro _ (rfl | rfl) <;> decide)
      (MacInterruptStatus.linkStatus.assign true)
    exact congrArg ({ s.served c with registers := · }) raised
  · have raised := past Register.channelStatus (by rintro _ (rfl | rfl) <;> decide) (· ||| bits)
    exact congrArg ({ s.served c with registers := · }) raised

namespace Behind

variable {done : Word} {t s after : Station} {e : Effect} {answer : e.Answer}

theorem meet (behind : Behind done t s) {step : Step}
    (raises : step = .raiseLink ∨ ∃ bits, step = .raiseChannel bits) :
    Behind done (t.meet step) (s.meet step) := by
  obtain ⟨device, target, free, pending, counters, trace, due, rfl⟩ := behind
  have same := t.served_raise raises (.ofWord done)
  rcases raises with rfl | ⟨bits, rfl⟩
  · refine ⟨device, target, free, pending, counters, trace, due, ?_⟩
    rw [← same]
    rfl
  · refine ⟨device, target, free, pending, counters, trace, due, ?_⟩
    rw [← same]
    rfl

theorem act (behind : Behind done t s) (inside : handlerActions e)
    (applied : s.apply e = .ok (answer, after)) :
    ∃ next, t.apply e = .ok (answer, next) ∧ Behind done next after := by
  obtain ⟨device, target, free, pending, counters, trace, due, same⟩ := behind
  let mask := t.interrupt.wanted.difference (Causes.ofWord done).queues
  have registers : s.registers = t.enabling mask := congrArg Station.registers same
  cases e with
  | load offset =>
    have past := t.read?_enabling mask inside device
    simp only [Station.apply, registers, past] at applied
    cases found : t.registers.read? offset with
    | none =>
      rw [found] at applied
      cases applied
    | some reply =>
      rw [found] at applied
      cases applied
      have alike : t.apply (.load offset) = .ok (reply.1, { t with registers := reply.2 }) := by
        simp only [Station.apply, found]
      have still := (Station.apply_backing alike).trans device
      refine ⟨_, alike, still, target, free, pending, counters, trace, due, ?_⟩
      rw [same]
      rfl
  | store offset word =>
    have past := t.write?_enabling mask inside device
    simp only [Station.apply, registers, past] at applied
    cases found : t.registers.write? offset word with
    | none =>
      rw [found] at applied
      cases applied
    | some registers =>
      rw [found] at applied
      cases applied
      have alike : t.apply (.store offset word) = .ok ((), { t with registers }) := by
        simp only [Station.apply, found]
      have still := (Station.apply_backing alike).trans device
      refine ⟨_, alike, still, target, free, pending, counters, trace, due, ?_⟩
      rw [same]
      rfl
  | merge causes =>
    subst same
    cases applied
    have more : done ||| (pending.merge causes).word = (t.interrupt.pending.merge causes).word := by
      change done ||| (pending.word ||| causes) = t.interrupt.pending.word ||| causes
      rw [← due, BitVec.or_assoc]
    exact ⟨_, rfl, device, target, free, pending.merge causes, counters, trace, more, rfl⟩
  | schedule =>
    subst same
    cases applied
    exact ⟨t, rfl, device, target, free, pending, counters, trace, due, rfl⟩
  | count counter =>
    subst same
    cases applied
    exact ⟨_, rfl, device, target, free, pending, counters.bump counter, trace, due, rfl⟩
  | _ => exact inside.elim

theorem serve (behind : Behind done t s) (counters : Counters) (trace : List Event) :
    Behind (done ||| s.interrupt.pending.word) t
      (((s.served (.ofWord s.interrupt.pending.word)).noting counters trace).mapInterrupt
        ({ · with pending := .empty })) := by
  obtain ⟨device, target, free, pending, _, _, due, rfl⟩ := behind
  have due : done ||| pending.word ||| Pending.empty.word = t.interrupt.pending.word := by
    rw [due]
    exact BitVec.or_zero
  refine ⟨device, target, free, .empty, counters, trace, due, ?_⟩
  rw [← Station.served_served]
  rfl

theorem unique {u : Station} (behind : Behind done t s) (other : Behind done t u) :
    s.interrupt.wanted = u.interrupt.wanted ∧ s.interrupt.queue = u.interrupt.queue ∧
      s.registers = u.registers := by
  obtain ⟨_, _, _, _, _, _, _, rfl⟩ := behind
  obtain ⟨_, _, _, _, _, _, _, rfl⟩ := other
  exact ⟨rfl, rfl, rfl⟩

theorem due (behind : Behind done t s) :
    done ||| s.interrupt.pending.word = t.interrupt.pending.word := by
  obtain ⟨_, _, _, _, _, _, due, rfl⟩ := behind
  exact due

theorem queue_eq (behind : Behind done t s) (direction : Direction) : s.interrupt.queue direction =
    if (Causes.ofWord done).has direction then none else t.interrupt.queue direction := by
  obtain ⟨_, _, _, _, _, _, _, rfl⟩ := behind
  rfl

theorem steady (behind : Behind done t s) :
    s.registers.backing = .device ∧ s.target = .interrupts ∧ s.interrupt.lock = .free := by
  obtain ⟨device, target, free, _, _, _, _, rfl⟩ := behind
  refine ⟨?_, target, free⟩
  change (t.enabling _).backing = .device
  unfold Station.enabling
  split <;> exact device

theorem retrace (behind : Behind done t s) (one other : List Event) :
    Behind done { t with trace := one } { s with trace := other } := by
  obtain ⟨device, target, free, pending, counters, _, due, rfl⟩ := behind
  exact ⟨device, target, free, pending, counters, other, due, rfl⟩

end Behind

theorem notified_eq_services (trace : List Event) :
    notified trace = (services trace).filterMap Event.notified? := by
  unfold notified services
  rw [List.filterMap_filterMap]
  congr 1
  funext event
  cases event <;> rfl

theorem linkChanged_mem_services (trace : List Event) :
    .linkChanged ∈ services trace ↔ .linkChanged ∈ trace := by
  unfold services
  rw [List.mem_filterMap]
  constructor
  · rintro ⟨event, member, told⟩
    cases event <;> cases told
    exact member
  · exact fun member => ⟨_, member, rfl⟩

/-- Each queue hears of its first cause only. -/
theorem Station.hearing_or {s t : Station} {done : Word} (more : Word)
    (left : ∀ direction, s.interrupt.queue direction =
      if (Causes.ofWord done).has direction then none else t.interrupt.queue direction) :
    (s.hearing (.ofWord more) ++ t.hearing (.ofWord done)).Perm
      (t.hearing (.ofWord (done ||| more))) := by
  unfold hearing
  simp only [List.flatMap_cons, List.flatMap_nil, List.append_nil, left, Causes.has_or]
  rw [List.perm_iff_count]
  intro queue
  cases (Causes.ofWord done).has .transmit <;> cases (Causes.ofWord more).has .transmit <;>
    cases (Causes.ofWord done).has .receive <;> cases (Causes.ofWord more).has .receive <;>
    simp [Nat.add_comm]

theorem Station.withdrawn_eq {s t : Station} {c : Causes}
    (left : ∀ direction, t.interrupt.queue direction =
      if c.has direction then none else s.interrupt.queue direction) :
    s.withdrawn t = s.hearing c := by
  unfold withdrawn hearing
  congr 1
  funext direction
  rw [left]
  cases c.has direction <;> cases s.interrupt.queue direction <;> simp

theorem Told.quiet {t : Station} {done : Word} {trace new : List Event} (told : Told t done trace)
    (silent : services new = []) : Told t done (new ++ trace) := by
  constructor
  · have both : notified (new ++ trace) = notified new ++ notified trace := List.filterMap_append
    rw [both, notified_eq_services new, silent]
    exact told.queues
  · rw [List.mem_append, ← linkChanged_mem_services new, silent, told.link]
    simp

theorem Told.serve {s t : Station} {done more : Word} {trace new : List Event}
    (told : Told t done trace)
    (left : ∀ direction, s.interrupt.queue direction =
      if (Causes.ofWord done).has direction then none else t.interrupt.queue direction)
    (served : services new = (s.hearing (.ofWord more)).map .notify ++
      ((if (Causes.ofWord more).link then [.linkChanged] else []) ++ [])) :
    Told t (done ||| more) (new ++ trace) := by
  constructor
  · have heard : notified new = s.hearing (.ofWord more) := by
      rw [notified_eq_services, served]
      cases (Causes.ofWord more).link <;>
        simp [List.filterMap_append, List.filterMap_map, Function.comp_def, Event.notified?]
    have both : notified (new ++ trace) = notified new ++ notified trace := List.filterMap_append
    rw [both, heard]
    exact (told.queues.append_left _).trans (Station.hearing_or more left)
  · rw [List.mem_append, told.link, ← linkChanged_mem_services new, served, Causes.link_or]
    cases (Causes.ofWord more).link <;> cases (Causes.ofWord done).link <;> simp

namespace Coalescing

/-- Causes and interrupts one after the other, and the worker at any time that it is not at work. -/
def Admits (m : Machine) : Step → Prop
  | .raiseChannel _ | .raiseLink | .operation .interrupt | .hook _ _ => m.stack = []
  | .operation .deferred => FreeOf .deferred m.stack
  | _ => False

theorem Admits.alone {m : Machine} {step : Step} (admitted : Admits m step) :
    FreeOf .deferred m.stack := by
  have rests (resting : m.stack = []) : FreeOf .deferred m.stack := by
    rw [resting]
    exact List.forall_mem_nil _
  unfold Admits at admitted
  split at admitted
  case h_5 => exact admitted
  case h_6 => exact admitted.elim
  all_goals exact rests admitted

theorem Admits.above {m : Machine} {step : Step} (admitted : Admits m step) (busy : m.stack ≠ []) :
    step = .operation .deferred := by
  unfold Admits at admitted
  split at admitted
  case h_5 => rfl
  case h_6 => exact admitted.elim
  all_goals exact absurd admitted busy

def Drained (history : History) : Prop := history.head? = some (.ended 0 .deferred .ok)

/-- The station is behind the one without a worker, between two stimuli or in the middle of a
handler. -/
inductive Coalesced (start : Station) : History → Station → List Frame → Prop where
  | resting {history : History} {s : Station} (done : Word)
      (behind : Behind done (start.stimulated (stimuli history)) s)
      (answers : handlerAnswers history = start.answering (stimuli history))
      (told : Told start done (shown history))
      (idle : Drained history → s.interrupt.pending.word = 0) :
      Coalesced start history s []
  | handling {history : History} {t s : Station} {rest : Task} {before : List Step}
      {above : List Frame} (done : Word) (current : stimuli history = .operation .interrupt :: before)
      (own : rest.run t = (Task.once Interrupt.handle .truth).run (start.stimulated before))
      (only : rest.Only handlerActions) (behind : Behind done t s)
      (queue : t.interrupt.queue = start.interrupt.queue)
      (answers : handlerAnswers history = start.answering before)
      (told : Told start done (shown history))
      (waiting : ∀ frame ∈ above, ∃ steps, frame = .steps steps)
      (busy : ¬ Drained history) :
      Coalesced start history s (above ++ [.running .interrupt .interrupts rest])

section Moves

variable {start s after : Station} {history : History} {stack : List Frame}

theorem stimulated_steady (start : Station) (steps : List Step) :
    (start.stimulated steps).interrupt.queue = start.interrupt.queue ∧
      (start.stimulated steps).registers.backing = start.registers.backing := by
  fun_induction Station.stimulated start steps with
  | case1 => exact ⟨rfl, rfl⟩
  | case2 earlier ih => exact ih
  | case3 step earlier _ ih => cases step <;> exact ih

theorem shown_acted (depth : Nat) (op : Operation) (e : Effect) (answer : e.Answer) :
    shown (.acted depth op e answer :: history) = (e.event? answer).toList ++ shown history := by
  unfold shown
  rw [List.filterMap_cons, show (Entry.acted depth op e answer).event? = e.event? answer from rfl]
  cases e.event? answer <;> rfl

theorem services_of_handler {e : Effect} (inside : handlerActions e) (answer : e.Answer) :
    services (e.event? answer).toList = [] := by
  cases e <;> first | rfl | exact inside.elim

theorem Coalesced.own {t : Station} {rest : Task} {before : List Step} {done : Word}
    {entry : Option Entry} (device : start.registers.backing = .device)
    (current : stimuli history = .operation .interrupt :: before)
    (own : rest.run t = (Task.once Interrupt.handle .truth).run (start.stimulated before))
    (only : rest.Only handlerActions) (behind : Behind done t s)
    (queue : t.interrupt.queue = start.interrupt.queue)
    (answers : handlerAnswers history = start.answering before)
    (told : Told start done (shown history))
    (move : Move s [.running .interrupt .interrupts rest] entry after stack) :
    Coalesced start (entry.toList ++ history) after stack := by
  have found := (stimulated_steady start before).2.trans device
  obtain ⟨trace, handled⟩ := Interrupt.once_run found
  cases move with
  | surround awaits => cases awaits
  | operate awaits => cases awaits
  | @act _ _ e next _ pushed answer _ applied lets =>
    obtain ⟨later, alike, behind⟩ := behind.act only.1 applied
    have onward := (Program.run_next alike t.trace).symm.trans own
    have kept : later.interrupt.queue = t.interrupt.queue := by
      have inside := only.1
      rw [Station.apply_interrupt alike]
      cases e <;> first | rfl | exact inside.elim
    have heard := told.quiet (services_of_handler only.1 answer)
    rw [← shown_acted 0 .interrupt e answer] at heard
    have goes : Coalesced start (.acted 0 .interrupt e answer :: history) after
        (pushed ++ [.running .interrupt .interrupts (next answer)]) :=
      .handling done current onward (only.2 answer).2 (behind.retrace _ after.trace)
        (kept.trans queue) answers heard (Frame.steps_of_let lets) nofun
    exact goes
  | renew => cases own.trans handled
  | @finish _ _ answer =>
    obtain ⟨same, rfl⟩ := Prod.mk.inj (own.trans handled)
    cases same
    have ended : Coalesced start
        (.ended 0 .interrupt (.truth (start.stimulated before).raised) :: history) s [] := by
      refine .resting done ?_ ?_ told nofun
      · change Behind done (start.stimulated (stimuli history)) s
        rw [current]
        exact behind.retrace _ s.trace
      · change (start.stimulated before).raised :: handlerAnswers history = start.answering (stimuli history)
        rw [current, answers]
        rfl
    exact ended
  | abort applied =>
    rcases Station.apply_error applied with rfl | ⟨_, rfl | rfl | ⟨_, rfl⟩⟩ | ⟨memory, _⟩
    · exact only.1.elim
    · exact only.1.elim
    · exact only.1.elim
    · exact only.1.elim
    · cases memory.symm.trans behind.steady.1

theorem Coalesced.steady {below : List Frame} (kept : Coalesced start history s below) :
    s.registers.backing = .device ∧ s.target = .interrupts ∧ s.interrupt.lock = .free := by
  cases kept with
  | resting _ behind => exact behind.steady
  | handling _ _ _ _ behind => exact behind.steady

theorem Coalesced.forward {later : History} {below : List Frame}
    (kept : Coalesced start history s below) (steps : stimuli later = stimuli history)
    (answered : handlerAnswers later = handlerAnswers history)
    (served : ∀ {done t}, Behind done t s → t.interrupt.queue = start.interrupt.queue →
      Told start done (shown history) →
      ∃ more, Behind more t after ∧ Told start more (shown later))
    (idle : Drained later → below = [] ∧ after.interrupt.pending.word = 0) :
    Coalesced start later after below := by
  cases kept with
  | resting done behind answers told =>
    have queue := (stimulated_steady start (stimuli history)).1
    obtain ⟨more, behind, told⟩ := served behind queue told
    rw [← steps] at behind
    refine .resting more behind ?_ told fun drained => (idle drained).2
    rw [answered, steps, answers]
  | handling done current own only behind queue answers told waiting =>
    obtain ⟨more, behind, told⟩ := served behind queue told
    refine .handling more (steps.trans current) own only behind queue (answered.trans answers) told
      waiting fun drained => ?_
    have nowhere := (idle drained).1
    exact List.append_ne_nil_of_right_ne_nil _ (List.cons_ne_nil _ _) nowhere

/-- A round of the worker serves what is pending. -/
theorem Coalesced.round {below : List Frame} {acts : History} {round : Round Answer}
    (kept : Coalesced start history s below)
    (own : ∀ entry ∈ acts, ∃ e answer, entry = .acted below.length .deferred e answer)
    (ran : (Operation.deferred.task .interrupts).run { s with trace := [] } = (.ok round, after))
    (trace : shown acts = after.trace) :
    Coalesced start (round.entry below.length .deferred :: (acts ++ history)) after below := by
  have steps : stimuli (acts ++ history) = stimuli history := by
    unfold stimuli
    rw [List.filterMap_append, History.filterMap_acts own fun _ _ => rfl]
    rfl
  have answered : handlerAnswers (acts ++ history) = handlerAnswers history := by
    unfold handlerAnswers
    rw [List.filterMap_append, History.filterMap_acts own fun _ _ => rfl]
    rfl
  have events : shown (acts ++ history) = after.trace ++ shown history := by
    rw [← trace]
    exact List.filterMap_append
  by_cases empty : s.interrupt.pending.word = 0
  · obtain ⟨same, rfl⟩ := Prod.mk.inj (ran.symm.trans (deferred_run_idle empty))
    cases same
    refine kept.forward steps answered (fun {done t} behind _ told => ⟨done, ?_, ?_⟩) ?_
    · exact behind.retrace t.trace []
    · change Told start done (shown (acts ++ history))
      rw [events]
      exact told
    · intro drained
      obtain ⟨level, _⟩ := Entry.ended.inj (Option.some.inj drained)
      exact ⟨List.length_eq_zero_iff.mp level, empty⟩
  · obtain ⟨device, _, free⟩ := kept.steady
    obtain ⟨counters, new, served, told⟩ := deferred_run (s := { s with trace := [] }) device free empty
    obtain ⟨same, rfl⟩ := Prod.mk.inj (ran.symm.trans served)
    cases same
    refine kept.forward steps answered (fun {done t} behind queue before => ?_) nofun
    have left (direction : Direction) := behind.queue_eq direction
    rw [queue] at left
    have heard := before.serve left told
    change ∃ more, _ ∧ Told start more (shown (acts ++ history))
    rw [events]
    exact ⟨_, behind.serve counters new, heard⟩

theorem Coalesced.rest {done : Word} {m : Machine} {entry : Option Entry}
    (behind : Behind done (start.stimulated (stimuli history)) s)
    (answers : handlerAnswers history = start.answering (stimuli history))
    (told : Told start done (shown history)) (move : Move s [] entry after stack)
    (admitted : ∀ depth step, entry = some (.begun depth step) →
      Admits m step ∧ step ≠ .operation .deferred) :
    Coalesced start (entry.toList ++ history) after stack := by
  cases move with
  | @surround step _ _ awaits surrounds =>
    have allowed := (admitted _ _ rfl).1
    cases awaits
    cases step with
    | raiseChannel bits => exact .resting done (behind.meet (.inr ⟨bits, rfl⟩)) answers told nofun
    | raiseLink => exact .resting done (behind.meet (.inl rfl)) answers told nofun
    | hook => exact .resting done behind answers told nofun
    | operation op => exact absurd rfl (surrounds op)
    | set | get | busy | host => exact allowed.elim
  | @operate op _ _ awaits =>
    obtain ⟨allowed, other⟩ := admitted _ _ rfl
    cases awaits
    cases op with
    | interrupt =>
      have only := Interrupt.interrupt_only .interrupts
      have queue := (stimulated_steady start (stimuli history)).1
      have goes : Coalesced start (.begun 0 (.operation .interrupt) :: history) _
          ([] ++ [.running .interrupt .interrupts (Task.once Interrupt.handle .truth)]) :=
        .handling done rfl rfl only behind queue answers told (List.forall_mem_nil _) nofun
      rw [behind.steady.2.1]
      exact goes
    | deferred => exact absurd rfl other
    | _ => exact allowed.elim

theorem Coalesced.other {m : Machine} {entry : Option Entry}
    (device : start.registers.backing = .device) (kept : Coalesced start history m.station m.stack)
    (move : Move m.station m.stack entry after stack)
    (admitted : ∀ depth step, entry = some (.begun depth step) →
      Admits m step ∧ step ≠ .operation .deferred) :
    Coalesced start (entry.toList ++ history) after stack := by
  generalize here : m.stack = levels at move kept
  generalize m.station = s at move kept
  cases kept with
  | resting done behind answers told => exact .rest behind answers told move admitted
  | @handling _ t rest before above done current own only behind queue answers told waiting busy =>
    cases above with
    | nil => exact .own device current own only behind queue answers told move
    | cons frame above =>
      obtain ⟨⟨steps, rfl⟩, lower⟩ := List.forall_mem_cons.mp waiting
      have occupied : m.stack ≠ [] := here ▸ List.cons_ne_nil _ _
      cases move with
      | surround =>
        obtain ⟨allowed, other⟩ := admitted _ _ rfl
        exact absurd (allowed.above occupied) other
      | operate =>
        obtain ⟨allowed, other⟩ := admitted _ _ rfl
        exact absurd (allowed.above occupied) other
      | leave => exact .handling done current own only behind queue answers told lower busy

theorem Coalesced.opens {m : Machine} {below : List Frame}
    (kept : Coalesced start history m.station m.stack)
    (awaits : Awaits (.operation .deferred) m.stack below) :
    Coalesced start (.begun m.stack.length (.operation .deferred) :: history) m.station below := by
  generalize m.stack = levels at awaits kept
  generalize m.station = s at kept
  cases kept with
  | resting done behind answers told =>
    cases awaits
    exact .resting done behind answers told nofun
  | @handling _ t rest before above done current own only behind queue answers told waiting =>
    cases above with
    | nil => cases awaits
    | cons frame above =>
      obtain ⟨_, lower⟩ := List.forall_mem_cons.mp waiting
      cases awaits with
      | @nested later =>
        have still : ∀ frame ∈ Frame.steps later :: above, ∃ steps, frame = .steps steps :=
          List.forall_mem_cons.mpr ⟨⟨later, rfl⟩, lower⟩
        have goes (depth : Nat) : Coalesced start
            (.begun depth (.operation .deferred) :: history) s
            (.steps later :: above ++ [.running .interrupt .interrupts rest]) :=
          .handling done current own only behind queue answers told still nofun
        exact goes _

theorem Coalesced.unfailing {below : List Frame} {cause : Fault}
    (kept : Coalesced start history s below)
    (ran : (Operation.deferred.task .interrupts).run { s with trace := [] } = (.error cause, after)) :
    False := by
  by_cases empty : s.interrupt.pending.word = 0
  · cases ran.symm.trans (deferred_run_idle empty)
  · obtain ⟨device, _, free⟩ := kept.steady
    obtain ⟨_, _, served, _⟩ := deferred_run (s := { s with trace := [] }) device free empty
    cases ran.symm.trans served

end Moves

theorem interludes {m : Machine} {start : Station} (device : start.registers.backing = .device) :
    Interludes Admits m .deferred .interrupts (Coalesced start) where
  alone _ _ := Admits.alone
  steady kept := kept.steady.2.1
  blind trace kept := by
    cases kept with
    | resting done behind answers told idle =>
      exact .resting done (behind.retrace _ trace) answers told idle
    | handling done current own only behind queue answers told waiting busy =>
      exact .handling done current own only (behind.retrace _ trace) queue answers told waiting busy
  other _ _ move admitted kept := kept.other device move admitted
  opens _ _ awaits kept := kept.opens awaits
  round kept _ own ran trace := kept.round own ran trace
  fault kept _ _ ran _ := (kept.unfailing ran).elim

end Coalescing

open Coalescing (Admits Drained Coalesced)

/-- What a run comes to when nothing is pending any more: all that was raised is served. -/
theorem Run.settles {start m : Machine} {history : History} (resting : start.stack = [])
    (device : start.station.registers.backing = .device) (target : start.station.target = .interrupts)
    (free : start.station.interrupt.lock = .free) (empty : start.station.interrupt.pending = .empty)
    (run : Run Admits start history m) (drained : Drained history) :
    Behind (start.station.stimulated (stimuli history)).interrupt.pending.word
      (start.station.stimulated (stimuli history)) m.station ∧
    handlerAnswers history = start.station.answering (stimuli history) ∧
    Told start.station (start.station.stimulated (stimuli history)).interrupt.pending.word
      (shown history) := by
  have nothing : (Causes.ofWord 0).queues.isEmpty = true := by decide
  obtain ⟨unserved, unheard⟩ := Interrupt.served_of_empty (s := start.station) nothing
  have behind : Behind 0 start.station start.station := by
    refine ⟨device, target, free, .empty, start.station.interrupt.counters, start.station.trace, ?_, ?_⟩
    · rw [empty]
      rfl
    · rw [unserved, ← empty]
      rfl
  have told : Told start.station 0 [] := by
    constructor
    · rw [unheard]
      exact .refl _
    · decide
  have initial : Coalesced start.station [] start.station start.stack := by
    rw [resting]
    exact .resting 0 behind rfl told nofun
  have free : FreeOf .deferred start.stack := by
    rw [resting]
    exact List.forall_mem_nil _
  have stands := (Coalescing.interludes device).holds free initial run
  generalize m.station = s at stands
  generalize m.stack = stack at stands
  cases stands with
  | apart _ kept =>
    cases kept with
    | resting done behind answers told idle =>
      have emptied := idle drained
      have whole : done = (start.station.stimulated (stimuli history)).interrupt.pending.word := by
        rw [← behind.due, emptied]
        exact BitVec.or_zero.symm
      rw [← whole]
      exact ⟨behind, answers, told⟩
    | handling _ _ _ _ _ _ _ _ _ busy => exact absurd drained busy
  | @inside earlier acts _ _ _ _ _ _ _ opened own =>
    cases acts with
    | nil => rcases opened with same | same <;> cases same.symm.trans drained
    | cons entry acts =>
      obtain ⟨⟨_, _, rfl⟩, _⟩ := List.forall_mem_cons.mp own
      cases drained

/-- It does not matter when the worker runs. Two runs with the same causes and interrupts, in which
the worker runs where it likes and has the last word, leave the same mask, handles and enable
registers, answer the interrupts alike and notify the same queues, each that lost its handle once; and
the host hears of a link change in both or in neither. -/
theorem Run.coalesced {start other m n : Machine} {history record : History}
    (resting : start.stack = []) (rests : other.stack = []) (same : start.station = other.station)
    (device : start.station.registers.backing = .device) (target : start.station.target = .interrupts)
    (free : start.station.interrupt.lock = .free) (empty : start.station.interrupt.pending = .empty)
    (run : Run Admits start history m) (drained : Drained history)
    (later : Run Admits other record n) (finished : Drained record)
    (alike : stimuli history = stimuli record) :
    m.station.interrupt.wanted = n.station.interrupt.wanted ∧
    m.station.interrupt.queue = n.station.interrupt.queue ∧
    m.station.registers = n.station.registers ∧
    handlerAnswers history = handlerAnswers record ∧
    (notified (shown history)).Perm (notified (shown record)) ∧
    (notified (shown history)).Perm (start.station.withdrawn m.station) ∧
    (.linkChanged ∈ shown history ↔ .linkChanged ∈ shown record) := by
  -- Both runs come to what their stimuli make of the station without a worker.
  obtain ⟨behind, answers, told⟩ := run.settles resting device target free empty drained
  rw [same] at device target free empty
  obtain ⟨behind', answers', told'⟩ := later.settles rests device target free empty finished
  rw [← same, ← alike] at behind' answers' told'
  obtain ⟨wanted, queues, registers⟩ := behind.unique behind'
  have left (direction : Direction) := behind.queue_eq direction
  rw [(Coalescing.stimulated_steady start.station (stimuli history)).1] at left
  have each := told.queues
  rw [← Station.withdrawn_eq left] at each
  exact ⟨wanted, queues, registers, answers.trans answers'.symm, told.queues.trans told'.queues.symm,
    each, told.link.trans told'.link.symm⟩

def eagerWorker : Machine where
  station :=
    { registers := { cell := fun offset => if offset = Register.channelStatus then 0x40 else 0 }
      target := .interrupts
      interrupt :=
        { wanted := .all
          queue := fun
            | .receive => some ⟨"rx"⟩
            | .transmit => some ⟨"tx"⟩ } }
  hooks := [(.schedule, [.operation .deferred])]

def lazyWorker : Machine := { eagerWorker with hooks := [] }

theorem Run.coalesced_eagerWorker :
    ∃ (m n : Machine) (history record : History),
      Run Admits eagerWorker history m ∧ Run Admits lazyWorker record n ∧
      Drained history ∧ Drained record ∧ stimuli history = stimuli record ∧
      handlerAnswers history = [true, true] ∧ notified (shown history) = [⟨"rx"⟩] ∧
      m.station.interrupt.wanted = n.station.interrupt.wanted ∧
      m.station.interrupt.queue = n.station.interrupt.queue ∧
      m.station.registers = n.station.registers ∧
      handlerAnswers history = handlerAnswers record ∧
      (notified (shown history)).Perm (notified (shown record)) ∧
      (notified (shown history)).Perm (eagerWorker.station.withdrawn m.station) ∧
      (.linkChanged ∈ shown history ↔ .linkChanged ∈ shown record) := by
  have above (later : List Step) (rest : Task) :
      FreeOf .deferred [.steps later, .running .interrupt .interrupts rest] :=
    FreeOf.cons nofun (FreeOf.cons nofun (List.forall_mem_nil _))
  have alone : FreeOf .deferred [] := List.forall_mem_nil _
  have none : ∀ opening ∈ ([] : List (Machine × Step)), Admits opening.1 opening.2 :=
    List.forall_mem_nil _
  have eager := (@Run.refl Admits eagerWorker).performs (.operation .interrupt) rfl rfl 40
    (List.forall_mem_singleton.mpr (by exact above _ _))
  have eager := eager.performs .raiseLink rfl rfl 40 none
  have eager := eager.performs (.operation .interrupt) rfl rfl 40 none
  have eager := eager.performs (.operation .deferred) rfl alone 40 none
  have idle := (@Run.refl Admits lazyWorker).performs (.operation .interrupt) rfl rfl 40 none
  have idle := idle.performs .raiseLink rfl rfl 40 none
  have idle := idle.performs (.operation .interrupt) rfl rfl 40 none
  have idle := idle.performs (.operation .deferred) rfl alone 40 none
  have rests : lazyWorker.stack = [] := rfl
  have same : eagerWorker.station = lazyWorker.station := rfl
  have outcome := eager.coalesced rfl rests same rfl rfl rfl rfl rfl idle rfl rfl
  exact ⟨_, _, _, _, eager, idle, rfl, rfl, rfl, rfl, rfl, outcome⟩

end EthernetMac
