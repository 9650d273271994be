import EthernetMac.Proofs.Determined
import EthernetMac.Proofs.Reach

/-! Every machine comes to rest. Each step that begins was waiting, on the stack or for a point; what
is left of a program gets shorter with each action; and between two steps a worker goes on to another
round at most twice, for nobody but a handler refills the pending word. -/

namespace EthernetMac

open Program

theorem Step.size_pos (step : Step) : 0 < step.size := by
  cases step with
  | hook point steps => exact Nat.lt_of_lt_of_le Nat.one_pos (Nat.le_add_right 1 _)
  | _ => exact Nat.one_pos

namespace Hooks

theorem size_append (first rest : Hooks) : Hooks.size (first ++ rest) = first.size + rest.size := by
  induction first with
  | nil => simp [size]
  | cons wait first ih =>
    obtain ⟨point, steps⟩ := wait
    simp [size, ih, Nat.add_assoc]

theorem size_of_take? {hooks others : Hooks} {point : Point} {steps : List Step}
    (found : hooks.take? point = some (steps, others)) :
    hooks.size = Step.size.sizes steps + others.size ∧ hooks.length = others.length + 1 := by
  induction hooks generalizing others with
  | nil => simp [take?] at found
  | cons wait rest ih =>
    obtain ⟨here, waiting⟩ := wait
    rw [take?] at found
    split at found
    · simp only [Option.some.injEq, Prod.mk.injEq] at found
      obtain ⟨rfl, rfl⟩ := found
      exact ⟨rfl, rfl⟩
    · obtain ⟨⟨later, remaining⟩, taken, same⟩ := Option.map_eq_some_iff.mp found
      simp only [Prod.mk.injEq] at same
      obtain ⟨rfl, rfl⟩ := same
      obtain ⟨sizes, lengths⟩ := ih taken
      simp only [size, List.length_cons]
      omega

end Hooks

def stepsLeft : List Frame → Nat
  | [] => 0
  | .steps later :: below => Step.size.sizes later + stepsLeft below
  | .running _ _ _ :: below => stepsLeft below

/-- What is left at a level comes to an end: only a worker goes on to another round, and no worker
merges. -/
def Frame.Ending : Frame → Prop
  | .steps _ => True
  | .running op _ rest =>
    (op = .deferred → rest.Only op.actions) ∧ ∀ deeds, rest.Course deeds .again → op = .deferred

theorem Operation.deferred_only (target : Target) : (deferred.task target).Only deferred.actions :=
  task_only (show deferred.InService from trivial) target

theorem Frame.ending_task (op : Operation) (target : Target) :
    (Frame.running op target (op.task target)).Ending := by
  refine ⟨?_, fun deeds => Operation.again_only⟩
  rintro rfl
  exact Operation.deferred_only target

theorem Frame.Ending.next {op : Operation} {target : Target} {e : Effect} {next : e.Answer → Task}
    (ending : (Frame.running op target (.perform e next)).Ending) (answer : e.Answer) :
    (Frame.running op target (next answer)).Ending := by
  obtain ⟨only, again⟩ := ending
  refine ⟨fun worker => ((only worker).2 answer).2, fun deeds course => ?_⟩
  exact again (⟨e, answer⟩ :: deeds) ⟨answer, deeds, rfl, course⟩

theorem Operation.deferred_looks (target : Target) :
    deferred.task target = .done (.finished .noDevice) ∨
      ∃ next : Word → Task, deferred.task target = .perform .drain next ∧
        next 0 = .done (.finished .ok) := by
  cases target with
  | noDevice => exact .inl rfl
  | interrupts => exact .inr ⟨_, rfl, rfl⟩
  | device a => exact .inr ⟨_, rfl, rfl⟩

namespace Machine

def waiting (m : Machine) : Nat := m.hooks.size + stepsLeft m.stack

def Rests (m : Machine) : Prop := ∃ limit, (advanceFor limit m).stack = []

variable {m : Machine}

theorem Rests.of_resting (resting : m.stack = []) : m.Rests := ⟨0, resting⟩

theorem Rests.of_advance (rests : m.advance.Rests) : m.Rests := by
  by_cases resting : m.stack = []
  · exact .of_resting resting
  · obtain ⟨limit, rests⟩ := rests
    have busy : ¬ m.stack.isEmpty := by simpa using resting
    refine ⟨limit + 1, ?_⟩
    rw [advanceFor, if_neg busy]
    exact rests

theorem finish_waiting (m : Machine) (answer : Answer) : (m.finish answer).waiting = m.waiting := by
  rw [waiting, waiting, finish_stack, finish_hooks]

theorem issue_waiting (m : Machine) (step : Step) :
    (m.issue step).waiting + 1 ≤ m.waiting + step.size := by
  have positive := step.size_pos
  cases step with
  | hook point steps =>
    rw [issue, finish_waiting]
    simp only [waiting, Hooks.size_append, Hooks.size, Step.size]
    omega
  | operation op =>
    simp only [issue, start, waiting, stepsLeft, Step.size]
    omega
  | _ =>
    rw [issue, finish_waiting]
    exact Nat.add_le_add_left positive _

theorem issue_ending {step : Step} (ending : ∀ frame ∈ m.stack, frame.Ending) :
    ∀ frame ∈ (m.issue step).stack, frame.Ending := by
  cases step with
  | operation op => exact List.forall_mem_cons.mpr ⟨Frame.ending_task _ _, ending⟩
  | _ =>
    rw [issue, finish_stack]
    exact ending

structure Poised (weight points : Nat) (levels : List Frame) (m : Machine) : Prop where
  stack : m.stack = levels
  ending : ∀ frame ∈ levels, frame.Ending
  weight : m.waiting = weight
  points : m.hooks.length = points

section Levels

variable {weight points : Nat} {op : Operation} {target : Target} {below : List Frame}

theorem Poised.running {rest onward : Task} (station : Station)
    (poised : m.Poised weight points (.running op target rest :: below))
    (ending : (Frame.running op target onward).Ending) :
    ({ m with station, stack := .running op target onward :: below } : Machine).Poised weight points
      (.running op target onward :: below) := by
  refine ⟨rfl, List.forall_mem_cons.mpr ⟨ending, (List.forall_mem_cons.mp poised.ending).2⟩, ?_,
    poised.points⟩
  rw [← poised.weight, waiting, waiting, poised.stack]
  rfl

theorem Poised.finished {answer : Answer}
    (poised : m.Poised weight points (.running op target (.done (.finished answer)) :: below)) :
    m.advance.Poised weight points below := by
  obtain ⟨advanced, _⟩ := advance_finish poised.stack
  rw [advanced]
  refine ⟨finish_stack _ _, (List.forall_mem_cons.mp poised.ending).2, ?_, ?_⟩
  · rw [← poised.weight, finish_waiting, waiting, waiting, poised.stack]
    simp [stepsLeft]
  · rw [finish_hooks]
    exact poised.points

theorem Poised.renewed
    (poised : m.Poised weight points (.running op target (.done .again) :: below)) :
    m.advance.Poised weight points (.running op target (op.task target) :: below) ∧
      m.advance.station = m.station := by
  obtain ⟨advanced, _⟩ := advance_renew poised.stack
  rw [advanced]
  exact ⟨poised.running m.station (Frame.ending_task op target), rfl⟩

/-- Machines that come to rest: fewer steps wait in them, or fewer points are waited for. -/
def Lighter (weight points : Nat) : Prop :=
  ∀ m : Machine, (∀ frame ∈ m.stack, frame.Ending) →
    m.waiting < weight ∨ m.waiting = weight ∧ m.hooks.length < points → m.Rests

variable (lighter : Lighter weight points) (popped : ∀ m : Machine, m.Poised weight points below → m.Rests)

include lighter

theorem Poised.act {e : Effect} {next : e.Answer → Task}
    (poised : m.Poised weight points (.running op target (.perform e next) :: below))
    (onward : ∀ answer after trace, m.station.apply e = .ok (answer, after) →
      ({ m with station := { after with trace },
                stack := .running op target (next answer) :: below } : Machine).Poised weight points
        (.running op target (next answer) :: below) →
      ({ m with station := { after with trace },
                stack := .running op target (next answer) :: below } : Machine).Rests) :
    m.Rests := by
  refine .of_advance ?_
  have ending := poised.ending _ (.head _)
  cases applied : m.station.apply e with
  | error cause =>
    rw [(advance_abort poised.stack applied).1]
    exact .of_resting rfl
  | ok reply =>
    obtain ⟨answer, after⟩ := reply
    rw [(advance_act poised.stack applied).1]
    have goes := poised.running
      { after with trace := (e.event? answer).toList ++ m.station.trace } (ending.next answer)
    cases e.point? with
    | none => exact onward answer after _ applied goes
    | some point =>
      unfold passed pass
      cases found : m.hooks.take? point with
      | none => simpa only [found] using onward answer after _ applied goes
      | some waited =>
        obtain ⟨steps, others⟩ := waited
        obtain ⟨sizes, lengths⟩ := Hooks.size_of_take? found
        simp only [found]
        refine lighter _ (List.forall_mem_cons.mpr ⟨trivial, goes.ending⟩) (.inr ⟨?_, ?_⟩)
        · rw [← goes.weight]
          simp only [waiting, stepsLeft, sizes]
          omega
        · have same := poised.points
          simp only
          omega

include popped

/-- An operation that keeps `P` comes to its end, if it does from the end of the round. -/
theorem Rests.of_program {P : Station → Prop} {allowed : Effect → Prop} {rest : Task}
    (keeps : ∀ s e answer after, allowed e → s.apply e = .ok (answer, after) → P s →
      ∀ trace, P { after with trace })
    (again : op = .deferred → ∀ m : Machine, P m.station →
      m.Poised weight points (.running op target (.done .again) :: below) → m.Rests)
    (only : rest.Only allowed) {m : Machine} (holds : P m.station)
    (poised : m.Poised weight points (.running op target rest :: below)) : m.Rests := by
  induction rest generalizing m with
  | done round =>
    cases round with
    | again =>
      have worker := (poised.ending _ (.head _)).2 [] ⟨rfl, rfl⟩
      exact again worker m holds poised
    | finished answer => exact .of_advance (popped _ poised.finished)
  | perform e next ih =>
    refine poised.act lighter fun answer after trace applied goes => ?_
    exact ih answer (only.2 answer).2 (keeps _ e answer after only.1 applied holds trace) goes

theorem Rests.of_empty {m : Machine} (empty : m.station.interrupt.pending.word = 0)
    (poised : m.Poised weight points
      (.running .deferred target (Operation.deferred.task target) :: below)) : m.Rests := by
  rcases Operation.deferred_looks target with idle | ⟨next, looks, ends⟩
  · rw [idle] at poised
    exact .of_advance (popped _ poised.finished)
  · rw [looks] at poised
    refine poised.act lighter fun word after trace applied goes => ?_
    have handed : word = 0 := (Station.apply_reads applied).trans empty
    rw [handed, ends] at goes ⊢
    exact .of_advance (popped _ goes.finished)

/-- A round takes all that is pending, and leaves nothing for the next one. -/
theorem Rests.of_round {m : Machine}
    (poised : m.Poised weight points
      (.running .deferred target (Operation.deferred.task target) :: below)) : m.Rests := by
  rcases Operation.deferred_looks target with idle | ⟨next, looks, _⟩
  · rw [idle] at poised
    exact .of_advance (popped _ poised.finished)
  · rw [looks] at poised
    refine poised.act lighter fun word after trace applied goes => ?_
    have emptied : after.interrupt.pending.word = 0 := by
      rw [Station.apply_interrupt applied]
      rfl
    refine Rests.of_program lighter popped (P := fun s => s.interrupt.pending.word = 0) ?_ ?_
      ((goes.ending _ (.head _)).1 rfl) emptied goes
    · intro s e answer after own applied empty trace
      change after.interrupt.pending.word = 0
      rw [Station.apply_interrupt applied]
      cases e with
      | merge => cases own
      | drain | attach => rfl
      | _ => exact empty
    · intro _ m empty poised
      obtain ⟨begun, same⟩ := poised.renewed
      exact .of_advance (Rests.of_empty lighter popped (same ▸ empty) begun)

omit popped in
theorem Rests.of_levels (stack : List Frame) :
    ∀ m : Machine, m.Poised weight points stack → m.Rests := by
  induction stack with
  | nil => exact fun m poised => .of_resting poised.stack
  | cons frame below ih =>
    intro m poised
    cases frame with
    | running op target rest =>
      refine Rests.of_program lighter ih (P := fun _ => True) (fun _ _ _ _ _ _ _ _ => trivial) ?_
        rest.only_true trivial poised
      rintro rfl m _ poised
      exact .of_advance (Rests.of_round lighter ih poised.renewed.1)
    | steps later =>
      obtain ⟨_, lower⟩ := List.forall_mem_cons.mp poised.ending
      refine .of_advance ?_
      cases later with
      | nil =>
        refine ih _ ?_
        rw [(advance_leave poised.stack).1]
        refine ⟨rfl, lower, ?_, poised.points⟩
        rw [← poised.weight, waiting, waiting, poised.stack]
        simp [stepsLeft, Step.size.sizes]
      | cons step later =>
        rw [(advance_issue poised.stack).1]
        refine lighter _ (issue_ending (List.forall_mem_cons.mpr ⟨trivial, lower⟩)) (.inl ?_)
        generalize lowered : ({ m with stack := .steps later :: below } : Machine) = rest
        calc (rest.issue step).waiting
          _ < (rest.issue step).waiting + 1 := Nat.lt_succ_self _
          _ ≤ rest.waiting + step.size := rest.issue_waiting step
          _ = m.waiting := by
            rw [← lowered, waiting, waiting, poised.stack]
            simp only [stepsLeft, Step.size.sizes]
            omega
          _ = weight := poised.weight

omit popped in
theorem Lighter.succ : Lighter weight (points + 1) := by
  intro m ending less
  by_cases same : m.waiting = weight ∧ m.hooks.length = points
  · exact Rests.of_levels lighter m.stack m ⟨rfl, ending, same.1, same.2⟩
  · exact lighter m ending (by omega)

end Levels

/-- Whatever is in progress, whatever is pending and whatever waits to be nested, the machine comes to
rest. -/
theorem rests (m : Machine) (ending : ∀ frame ∈ m.stack, frame.Ending) : m.Rests := by
  suffices all : ∀ weight points, Lighter weight points from
    all (m.waiting + 1) 0 m ending (.inl (Nat.lt_succ_self _))
  -- By induction on what is waiting to begin, and then on the points that are still waited for: a step
  -- that begins lowers the first, and a point that is passed lowers the second only.
  intro weight
  induction weight with
  | zero =>
    intro points
    induction points with
    | zero => exact fun m _ less => absurd less (by omega)
    | succ points lighter => exact lighter.succ
  | succ weight heavy =>
    intro points
    induction points with
    | zero =>
      intro m ending less
      exact heavy (m.hooks.length + 1) m ending (by omega)
    | succ points lighter => exact lighter.succ

end Machine

namespace Run

variable {admits : Machine → Step → Prop} {start m : Machine} {history : History}

theorem ending_stack (resting : start.stack = []) (run : Run admits start history m) :
    ∀ frame ∈ m.stack, frame.Ending := by
  have traced := run.traced (fun _ _ => True) resting fun _ _ _ => trivial
  have within := run.within (fun op _ e => op = .deferred → op.actions e) resting fun op target => by
    by_cases worker : op = .deferred
    · subst worker
      exact (Operation.deferred_only target).mono fun _ inside _ => inside
    · exact (op.task target).only_true.mono fun _ _ same => absurd same worker
  generalize m.stack = levels at traced within
  induction levels with
  | nil => exact List.forall_mem_nil _
  | cons frame below ih =>
    obtain ⟨inside, lower⟩ := List.forall_mem_cons.mp within
    cases frame with
    | steps later => exact List.forall_mem_cons.mpr ⟨trivial, ih traced lower⟩
    | running op target rest =>
      obtain ⟨⟨_, deeds, _, leads⟩, under⟩ := traced
      refine List.forall_mem_cons.mpr ⟨⟨fun worker => ?_, fun more course => ?_⟩, ih under lower⟩
      · exact inside.1.mono fun e own => own worker
      · exact Operation.again_only (leads more .again course)

theorem rests (resting : start.stack = []) (run : Run admits start history m) : m.Rests :=
  m.rests (run.ending_stack resting)

theorem begun_top (run : Run admits start history m) :
    ∀ depth op earlier, history = .begun depth (.operation op) :: earlier →
      ∃ below, m.stack = .running op m.station.target (op.task m.station.target) :: below ∧
        below.length = depth := by
  refine Run.keeps (P := fun history s stack => ∀ depth op earlier,
    history = .begun depth (.operation op) :: earlier →
    ∃ below, stack = .running op s.target (op.task s.target) :: below ∧ below.length = depth)
    nofun (fun _ kept => kept) ?_ run
  intro history m entry after stack _ move _ kept depth op earlier last
  generalize m.stack = levels at move kept
  cases move with
  | surround _ surrounds =>
    cases last
    exact absurd rfl (surrounds op)
  | operate awaits =>
    cases last
    exact ⟨_, rfl, awaits.length_eq⟩
  | leave =>
    obtain ⟨below, shape, _⟩ := kept depth op earlier last
    cases shape
  | _ => cases last

end Run

def Entry.Closes (depth : Nat) : Entry → Prop
  | .ended d _ _ => d = depth
  | .faulted _ => True
  | _ => False

def Task.Answers (P : Answer → Prop) (task : Task) : Prop :=
  ∀ deeds answer, task.Course deeds (.finished answer) → P answer

def Open (P : Answer → Prop) (op : Operation) (target : Target) (below stack : List Frame) : Prop :=
  ∃ above rest, stack = above ++ .running op target rest :: below ∧ rest.Answers P

section Level

variable {P : Answer → Prop} {op : Operation} {target : Target} {below : List Frame}

theorem Move.level {s after : Station} {stack next : List Frame} {entry : Option Entry}
    (move : Move s stack entry after next) (begun : (op.task target).Answers P)
    (goesOn : Open P op target below stack) :
    (Open P op target below next ∧ ∀ shown ∈ entry, ¬ shown.Closes below.length) ∨
      ∃ closing ∈ entry, (∃ answer, closing = .ended below.length op answer ∧ P answer) ∨
        ∃ cause, closing = .faulted cause := by
  obtain ⟨above, rest, shape, answers⟩ := goesOn
  cases above with
  | nil =>
    subst shape
    cases move with
    | surround awaits | operate awaits => exact (awaits.not_running rfl).elim
    | @act _ _ e _ _ pushed answer =>
      refine .inl ⟨⟨pushed, _, rfl, fun deeds final course => ?_⟩, by rintro _ ⟨⟩ ⟨⟩⟩
      exact answers (⟨e, answer⟩ :: deeds) final ⟨answer, deeds, rfl, course⟩
    | renew => exact .inl ⟨⟨[], _, rfl, begun⟩, by rintro _ ⟨⟩ ⟨⟩⟩
    | @finish _ _ answer => exact .inr ⟨_, rfl, .inl ⟨answer, rfl, answers [] answer ⟨rfl, rfl⟩⟩⟩
    | abort => exact .inr ⟨_, rfl, .inr ⟨_, rfl⟩⟩
  | cons frame above =>
    rw [List.cons_append] at shape
    generalize levels : above ++ .running op target rest :: below = lower at shape
    subst shape
    have higher : below.length < lower.length := by
      rw [← levels, List.length_append, List.length_cons]
      omega
    have under (pushed : List Frame) : Open P op target below (pushed ++ lower) :=
      ⟨pushed ++ above, rest, by rw [← levels, List.append_assoc], answers⟩
    cases move with
    | @surround step _ _ awaits =>
      cases awaits
      exact .inl ⟨under [.steps _], by rintro _ ⟨⟩ ⟨⟩⟩
    | operate awaits =>
      cases awaits
      exact .inl ⟨under [.running _ _ _, .steps _], by rintro _ ⟨⟩ ⟨⟩⟩
    | leave => exact .inl ⟨under [], by rintro _ ⟨⟩⟩
    | @act acting its e next _ pushed answer =>
      refine .inl ⟨?_, by rintro _ ⟨⟩ ⟨⟩⟩
      have goesOn := under (pushed ++ [.running acting its (next answer)])
      rwa [List.append_assoc] at goesOn
    | renew => exact .inl ⟨under [.running _ _ _], by rintro _ ⟨⟩ ⟨⟩⟩
    | finish =>
      refine .inl ⟨under [], ?_⟩
      rintro _ ⟨⟩ same
      exact Nat.ne_of_gt higher same
    | abort => exact .inr ⟨_, rfl, .inr ⟨_, rfl⟩⟩

theorem Machine.Rests.closes {m : Machine} (rests : m.Rests) (begun : (op.task target).Answers P)
    (goesOn : Open P op target below m.stack) :
    ∃ limit inner closing, m.entries limit = closing :: inner ∧
      (∀ entry ∈ inner, ¬ entry.Closes below.length) ∧
      ((∃ answer, closing = .ended below.length op answer ∧ P answer) ∨
        ∃ cause, closing = .faulted cause) := by
  obtain ⟨limit, resting⟩ := rests
  induction limit generalizing m with
  | zero =>
    obtain ⟨above, rest, shape, _⟩ := goesOn
    cases (List.append_eq_nil_iff.mp (shape.symm.trans resting)).2
  | succ limit ih =>
    have busy : ¬ m.stack.isEmpty := by
      obtain ⟨above, rest, shape, _⟩ := goesOn
      rw [shape]
      simp
    rw [Machine.advanceFor, if_neg busy] at resting
    obtain ⟨after, trace, move, _⟩ := Machine.advance_reached (m := m) (by simpa using busy)
    rcases move.level begun goesOn with ⟨stays, silent⟩ | ⟨closing, shown, concludes⟩
    · obtain ⟨count, inner, closing, entries, quiet, concludes⟩ := ih stays resting
      refine ⟨count + 1, inner ++ m.entry?.toList, closing, ?_, ?_, concludes⟩
      · rw [Machine.entries, if_neg busy, entries, List.cons_append]
      · intro entry member
        rcases List.mem_append.mp member with later | first
        · exact quiet entry later
        · exact silent entry (Option.mem_toList.mp first)
    · refine ⟨1, [], closing, ?_, List.forall_mem_nil _, concludes⟩
      rw [Machine.entries, if_neg busy, Option.mem_def.mp shown]
      rfl

end Level

end EthernetMac
