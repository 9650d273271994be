import EthernetMac.Proofs.Solo

/-! Operations that let nothing in. While one of them is in progress no step begins, so that a round of
it comes to the same as its program run on its own. -/

namespace EthernetMac

open Program

def Entry.event? : Entry → Option Event
  | .acted _ _ e answer => e.event? answer
  | _ => none

def Round.entry (depth : Nat) (op : Operation) : Round Answer → Entry
  | .again => .renewed depth op
  | .finished answer => .ended depth op answer

def History.Opens (history : History) (depth : Nat) (op : Operation) : Prop :=
  history.head? = some (.begun depth (.operation op)) ∨ history.head? = some (.renewed depth op)

theorem History.filterMap_acts {β : Type} {f : Entry → Option β} {depth : Nat} {op : Operation}
    {acts : History} (own : ∀ entry ∈ acts, ∃ e answer, entry = .acted depth op e answer)
    (silent : ∀ e answer, f (.acted depth op e answer) = none) : acts.filterMap f = [] := by
  refine List.filterMap_eq_nil_iff.mpr fun entry member => ?_
  obtain ⟨e, answer, rfl⟩ := own entry member
  exact silent e answer

def FreeOf (op : Operation) (stack : List Frame) : Prop :=
  ∀ frame ∈ stack, frame.operation? ≠ some op

namespace FreeOf

variable {op : Operation} {frame : Frame} {stack below : List Frame}

theorem cons (head : frame.operation? ≠ some op) (free : FreeOf op below) :
    FreeOf op (frame :: below) :=
  List.forall_mem_cons.mpr ⟨head, free⟩

theorem tail (free : FreeOf op (frame :: below)) : FreeOf op below :=
  (List.forall_mem_cons.mp free).2

theorem head (free : FreeOf op (frame :: below)) : frame.operation? ≠ some op :=
  (List.forall_mem_cons.mp free).1

theorem of_awaits {step : Step} (free : FreeOf op stack) (awaits : Awaits step stack below) :
    FreeOf op below := by
  cases awaits with
  | resting => exact free
  | nested => exact free.tail.cons nofun

/-- A move brings in no operation but the one that begins. -/
theorem move {s after : Station} {entry : Option Entry} (free : FreeOf op stack)
    (move : Move s stack entry after below)
    (other : ∀ depth, entry ≠ some (.begun depth (.operation op))) : FreeOf op below := by
  cases move with
  | surround awaits => exact free.of_awaits awaits
  | operate awaits =>
    refine (free.of_awaits awaits).cons ?_
    intro same
    cases same
    exact other _ rfl
  | leave => exact free.tail
  | @act acting target _ next lower _ answer _ _ lets =>
    have onward : FreeOf op (.running acting target (next answer) :: lower) :=
      free.tail.cons free.head
    rcases lets with rfl | ⟨_, steps, rfl⟩
    · exact onward
    · exact onward.cons nofun
  | renew => exact free.tail.cons free.head
  | finish => exact free.tail
  | abort => exact List.forall_mem_nil _

end FreeOf

theorem Frame.steps_of_let {e : Effect} {pushed : List Frame}
    (lets : pushed = [] ∨ e.point?.isSome ∧ ∃ steps, pushed = [.steps steps]) :
    ∀ frame ∈ pushed, ∃ steps, frame = .steps steps := by
  rcases lets with rfl | ⟨_, steps, rfl⟩
  · exact List.forall_mem_nil _
  · exact List.forall_mem_singleton.mpr ⟨steps, rfl⟩

theorem Move.of_operation {s after : Station} {stack levels : List Frame} {depth : Nat} {op : Operation}
    (move : Move s stack (some (.begun depth (.operation op))) after levels) :
    ∃ below, Awaits (.operation op) stack below ∧ depth = stack.length ∧ after = s ∧
      levels = .running op s.target (op.task s.target) :: below := by
  cases move with
  | surround _ surrounds => exact absurd rfl (surrounds op)
  | operate awaits => exact ⟨_, awaits, rfl, rfl, rfl⟩

/-- Where a run stands as to `lone`, which works on `target`: it is not in progress and `P` holds, or
it is and `P` held when its present round began. -/
inductive Interlude (lone : Operation) (target : Target)
    (P : History → Station → List Frame → Prop) : History → Station → List Frame → Prop where
  | apart {history : History} {s : Station} {stack : List Frame} (free : FreeOf lone stack)
      (kept : P history s stack) : Interlude lone target P history s stack
  | inside {earlier acts : History} {before s : Station} {rest : Task} {pushed below : List Frame}
      (free : FreeOf lone below) (kept : P earlier before below)
      (opened : earlier.Opens below.length lone)
      (own : ∀ entry ∈ acts, ∃ e answer, entry = .acted below.length lone e answer)
      (onward : rest.run { s with trace := acts.filterMap Entry.event? } =
        (lone.task target).run { before with trace := [] })
      (lets : pushed = [] ∨ ∃ steps, pushed = [.steps steps]) :
      Interlude lone target P (acts ++ earlier) s (pushed ++ .running lone target rest :: below)

theorem Interlude.begins {lone : Operation} {target : Target}
    {P : History → Station → List Frame → Prop} {history : History} {s : Station}
    {below : List Frame} (free : FreeOf lone below) (kept : P history s below)
    (opened : history.Opens below.length lone) :
    Interlude lone target P history s (.running lone target (lone.task target) :: below) := by
  have begun : Interlude lone target P ([] ++ history) s
      ([] ++ .running lone target (lone.task target) :: below) :=
    .inside free kept opened (List.forall_mem_nil _) rfl (.inl rfl)
  exact begun

/-- What keeps `P` in a run when every round of `lone` is one move. -/
structure Interludes (admits : Machine → Step → Prop) (start : Machine) (lone : Operation)
    (target : Target) (P : History → Station → List Frame → Prop) : Prop where
  alone : ∀ m step, admits m step → FreeOf lone m.stack
  steady : ∀ {history s stack}, P history s stack → s.target = target
  blind : ∀ {history s stack} trace, P history s stack → P history { s with trace } stack
  other : ∀ {history m entry after stack}, Run admits start history m → FreeOf lone m.stack →
    Move m.station m.stack entry after stack →
    (∀ depth step, entry = some (.begun depth step) → admits m step ∧ step ≠ .operation lone) →
    P history m.station m.stack → P (entry.toList ++ history) after stack
  opens : ∀ {history m below}, Run admits start history m → admits m (.operation lone) →
    Awaits (.operation lone) m.stack below → P history m.station m.stack →
    P (.begun m.stack.length (.operation lone) :: history) m.station below
  round : ∀ {history s below acts round after}, P history s below →
    history.Opens below.length lone →
    (∀ entry ∈ acts, ∃ e answer, entry = .acted below.length lone e answer) →
    (lone.task target).run { s with trace := [] } = (.ok round, after) →
    acts.filterMap Entry.event? = after.trace →
    P (round.entry below.length lone :: (acts ++ history)) after below
  fault : ∀ {history s below acts cause after}, P history s below →
    history.Opens below.length lone →
    (∀ entry ∈ acts, ∃ e answer, entry = .acted below.length lone e answer) →
    (lone.task target).run { s with trace := [] } = (.error cause, after) →
    acts.filterMap Entry.event? = after.trace →
    P (.faulted cause :: (acts ++ history)) after.unlocked []

theorem Station.apply_trace (s : Station) (trace : List Event) (e : Effect) :
    ({ s with trace } : Station).apply e =
      (s.apply e).map fun reply => (reply.1, { reply.2 with trace }) := by
  cases e with
  | load offset =>
    simp only [apply]
    cases s.registers.read? offset <;> rfl
  | store offset value =>
    simp only [apply]
    cases s.registers.write? offset value <;> rfl
  | acquire =>
    simp only [apply]
    cases s.interrupt.lock.write? <;> rfl
  | wanted | armed =>
    simp only [apply]
    cases s.interrupt.lock.read? <;> rfl
  | _ => rfl

namespace Program

variable {α : Type} {e : Effect} {next : e.Answer → Program α} {s after : Station}

theorem run_next {answer : e.Answer} (applied : s.apply e = .ok (answer, after))
    (trace : List Event) :
    (perform e next).run { s with trace } =
      (next answer).run { after with trace := (e.event? answer).toList ++ trace } := by
  have performed : Station.perform { s with trace } e =
      .ok (answer, { after with trace := (e.event? answer).toList ++ trace }) := by
    rw [Station.perform_eq, Station.apply_trace, applied]
    rfl
  unfold Program.run
  rw [interpret, performed]

theorem run_fault {cause : Fault} (applied : s.apply e = .error cause) (trace : List Event) :
    (perform e next).run { s with trace } = (.error cause, { s with trace }) := by
  have performed : Station.perform { s with trace } e = .error cause := by
    rw [Station.perform_eq, Station.apply_trace, applied]
    rfl
  unfold Program.run
  rw [interpret, performed]

end Program

namespace Interludes

variable {admits : Machine → Step → Prop} {start m : Machine} {lone : Operation} {target : Target}
  {P : History → Station → List Frame → Prop} {history : History}

theorem apart (interludes : Interludes admits start lone target P)
    (run : Run admits start history m) {entry : Option Entry} {after : Station}
    {stack : List Frame} (free : FreeOf lone m.stack)
    (move : Move m.station m.stack entry after stack)
    (admitted : ∀ depth step, entry = some (.begun depth step) → admits m step)
    (kept : P history m.station m.stack) :
    Interlude lone target P (entry.toList ++ history) after stack := by
  by_cases opens : ∃ depth, entry = some (.begun depth (.operation lone))
  · obtain ⟨depth, rfl⟩ := opens
    obtain ⟨below, awaits, rfl, rfl, rfl⟩ := move.of_operation
    have opened := interludes.opens run (admitted _ _ rfl) awaits kept
    rw [interludes.steady opened]
    refine .begins (free.of_awaits awaits) opened (.inl ?_)
    rw [awaits.length_eq]
    rfl
  · have other (depth : Nat) : entry ≠ some (.begun depth (.operation lone)) :=
      fun same => opens ⟨depth, same⟩
    refine .apart (free.move move other) (interludes.other run free move ?_ kept)
    intro depth step begun
    refine ⟨admitted depth step begun, ?_⟩
    rintro rfl
    exact other depth begun

/-- The round in progress goes on, or it is over. -/
theorem inside (interludes : Interludes admits start lone target P) {earlier acts : History}
    {before s after : Station} {rest : Task} {below stack : List Frame} {entry : Option Entry}
    (free : FreeOf lone below) (kept : P earlier before below)
    (opened : earlier.Opens below.length lone)
    (own : ∀ entry ∈ acts, ∃ e answer, entry = .acted below.length lone e answer)
    (onward : rest.run { s with trace := acts.filterMap Entry.event? } =
      (lone.task target).run { before with trace := [] })
    (move : Move s (.running lone target rest :: below) entry after stack) :
    Interlude lone target P (entry.toList ++ (acts ++ earlier)) after stack := by
  have concluded {round : Round Answer} (last : rest = .done round) :
      P (round.entry below.length lone :: (acts ++ earlier)) s below := by
    subst last
    have ended := interludes.round kept opened own onward.symm rfl
    have restored := interludes.blind s.trace ended
    exact restored
  cases move with
  | surround awaits => cases awaits
  | operate awaits => cases awaits
  | @act _ _ e next _ pushed answer _ applied lets =>
    rw [run_next applied] at onward
    have shown : (Entry.acted below.length lone e answer :: acts).filterMap Entry.event? =
        (e.event? answer).toList ++ acts.filterMap Entry.event? := by
      rw [List.filterMap_cons, show (Entry.acted below.length lone e answer).event? = e.event? answer
        from rfl]
      cases e.event? answer <;> rfl
    have goes : Interlude lone target P ((.acted below.length lone e answer :: acts) ++ earlier) after
        (pushed ++ .running lone target (next answer) :: below) :=
      .inside free kept opened (List.forall_mem_cons.mpr ⟨⟨e, answer, rfl⟩, own⟩) (shown ▸ onward)
        (lets.imp_right And.right)
    exact goes
  | renew => exact .begins free (concluded rfl) (.inr rfl)
  | finish => exact .apart free (concluded rfl)
  | @abort _ _ e _ _ cause applied =>
    rw [run_fault applied] at onward
    have stopped := interludes.fault kept opened own onward.symm rfl
    have restored := interludes.blind s.trace stopped
    exact .apart (List.forall_mem_nil _) restored

theorem holds (interludes : Interludes admits start lone target P) (free : FreeOf lone start.stack)
    (initial : P [] start.station start.stack) (run : Run admits start history m) :
    Interlude lone target P history m.station m.stack := by
  refine Run.keeps (P := Interlude lone target P) ?initial ?blind ?move run
  case initial => exact .apart free initial
  case blind =>
    intro history s stack trace kept
    cases kept with
    | apart free kept => exact .apart free (interludes.blind trace kept)
    | inside free kept opened own onward lets => exact .inside free kept opened own onward lets
  case move =>
    intro history m entry after stack run move admitted kept
    generalize here : m.stack = levels at move kept
    cases kept with
    | apart free kept =>
      subst here
      exact interludes.apart run free move admitted kept
    | @inside earlier acts before _ rest pushed below free kept opened own onward lets =>
      rcases lets with rfl | ⟨steps, rfl⟩
      · exact interludes.inside free kept opened own onward move
      · -- Nothing begins above the round, so all that is left is to go on with it.
        have busy (step : Step) : ¬ admits m step := by
          intro allowed
          have free := interludes.alone m step allowed
          rw [here] at free
          exact free.tail.head rfl
        cases move with
        | surround => exact absurd (admitted _ _ rfl) (busy _)
        | operate => exact absurd (admitted _ _ rfl) (busy _)
        | leave =>
          have goes : Interlude lone target P (acts ++ earlier) m.station
              ([] ++ .running lone target rest :: below) :=
            .inside free kept opened own onward (.inl rfl)
          exact goes

end Interludes

end EthernetMac
