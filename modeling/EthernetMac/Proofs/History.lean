import EthernetMac.Session.Run

/-! Runs of the machine, one move at a time, and the history of what happened in them. Hooks and
steps are arbitrary, so the runs are the ways in which operations, nested operations and hardware
changes can follow each other. -/

namespace EthernetMac

/-- One thing that happened. Its depth is the number of levels below the one it happened at. -/
inductive Entry where
  | begun (depth : Nat) (step : Step)
  | acted (depth : Nat) (op : Operation) (effect : Effect) (answer : effect.Answer)
  | renewed (depth : Nat) (op : Operation)
  | ended (depth : Nat) (op : Operation) (answer : Answer)
  | faulted (cause : Fault)

def Entry.fault? : Entry → Option Fault
  | faulted cause => some cause
  | _ => none

def Entry.begun? : Entry → Option Step
  | begun _ step => some step
  | _ => none

def Entry.ended? : Entry → Option (Nat × Operation × Answer)
  | ended depth op answer => some (depth, op, answer)
  | _ => none

abbrev History := List Entry

theorem History.not_faulted {history : History} (faultless : history.filterMap Entry.fault? = [])
    (cause : Fault) : .faulted cause ∉ history := by
  intro member
  have found : cause ∈ history.filterMap Entry.fault? := List.mem_filterMap.mpr ⟨_, member, rfl⟩
  rw [faultless] at found
  cases found

namespace Machine

def entry? (m : Machine) : Option Entry :=
  match m.stack with
  | .steps (step :: _) :: _ => some (.begun m.stack.length step)
  | .running op _ (.done (.finished answer)) :: below => some (.ended below.length op answer)
  | .running op _ (.done .again) :: below => some (.renewed below.length op)
  | .running op _ (.perform effect _) :: below =>
    match m.station.apply effect with
    | .ok (answer, _) => some (.acted below.length op effect answer)
    | .error cause => some (.faulted cause)
  | _ => none

theorem entry?_acted {m : Machine} {depth : Nat} {op : Operation} {e : Effect} {answer : e.Answer}
    (shown : m.entry? = some (.acted depth op e answer)) :
    ∃ (target : Target) (next : e.Answer → Task) (below : List Frame) (after : Station),
      m.stack = .running op target (.perform e next) :: below ∧ below.length = depth ∧
      m.station.apply e = .ok (answer, after) := by
  unfold entry? at shown
  split at shown
  case h_4 performer target effect next below top =>
    cases applied : m.station.apply effect with
    | error cause => simp [applied] at shown
    | ok both =>
      simp only [applied, Option.some.injEq, Entry.acted.injEq] at shown
      obtain ⟨deep, rfl, rfl, same⟩ := shown
      cases same
      exact ⟨target, next, below, both.2, top, deep, applied⟩
  all_goals simp at shown

theorem entry?_ended {m : Machine} {depth : Nat} {op : Operation} {answer : Answer}
    (shown : m.entry? = some (.ended depth op answer)) :
    ∃ (target : Target) (below : List Frame),
      m.stack = .running op target (.done (.finished answer)) :: below ∧ below.length = depth := by
  unfold entry? at shown
  split at shown
  case h_2 performer target given below top =>
    simp only [Option.some.injEq, Entry.ended.injEq] at shown
    obtain ⟨deep, rfl, rfl⟩ := shown
    exact ⟨target, below, top, deep⟩
  case h_4 => split at shown <;> simp at shown
  all_goals simp at shown

theorem entry?_faulted {m : Machine} {cause : Fault}
    (shown : m.entry? = some (.faulted cause)) :
    ∃ (op : Operation) (target : Target) (e : Effect) (next : e.Answer → Task) (below : List Frame),
      m.stack = .running op target (.perform e next) :: below ∧ m.station.apply e = .error cause := by
  unfold entry? at shown
  split at shown
  case h_4 op target e next below top =>
    cases applied : m.station.apply e with
    | ok both => simp [applied] at shown
    | error other =>
      simp only [applied, Option.some.injEq, Entry.faulted.injEq] at shown
      exact ⟨op, target, e, next, below, top, by rw [applied, shown]⟩
  all_goals simp at shown

def begin (m : Machine) (step : Step) : Machine :=
  { m with answer := none, station := { m.station with trace := [] } }.issue step

end Machine

/-- The moves from `start` on, when `admits` allows every step that begins. -/
inductive Run (admits : Machine → Step → Prop) (start : Machine) : History → Machine → Prop where
  | refl : Run admits start [] start
  | begin {history : History} {m : Machine} {step : Step} (run : Run admits start history m)
      (resting : m.stack = []) (admitted : admits m step) :
      Run admits start (.begun 0 step :: history) (m.begin step)
  | advance {history : History} {m : Machine} (run : Run admits start history m)
      (busy : m.stack ≠ [])
      (admitted : ∀ depth step, m.entry? = some (.begun depth step) → admits m step) :
      Run admits start (m.entry?.toList ++ history) m.advance

namespace Station

def meet (s : Station) : Step → Station
  | .set offset value => { s with registers := s.registers.set offset value }
  | .raiseChannel bits => { s with registers := s.registers.raiseChannel bits }
  | .raiseLink => { s with registers := s.registers.raiseLink }
  | .busy polls => { s with registers := { s.registers with busy := polls } }
  | .host change => { s with host := s.host.change change }
  | _ => s

def unlocked (s : Station) : Station := s.mapInterrupt ({ · with lock := .free })

theorem meet_trace (s : Station) (trace : List Event) (step : Step) :
    ({ s with trace } : Station).meet step = { s.meet step with trace } := by
  cases step <;> rfl

theorem perform_eq (s : Station) (e : Effect) :
    s.perform e = (s.apply e).map fun reply =>
      (reply.1, { reply.2 with trace := (e.event? reply.1).toList ++ reply.2.trace }) := by
  unfold perform
  cases s.apply e with
  | error cause => rfl
  | ok reply =>
    obtain ⟨answer, applied⟩ := reply
    cases shown : e.event? answer <;>
      simp [bind, Except.bind, pure, Except.pure, Except.map, record, shown]

theorem perform_ok {s : Station} {e : Effect} {answer : e.Answer} {after : Station}
    (performed : s.perform e = .ok (answer, after)) :
    ∃ applied trace, s.apply e = .ok (answer, applied) ∧ after = { applied with trace } := by
  rw [perform_eq] at performed
  cases reply : s.apply e with
  | error cause =>
    rw [reply] at performed
    cases performed
  | ok both =>
    rw [reply] at performed
    cases performed
    exact ⟨both.2, _, rfl, rfl⟩

theorem perform_error {s : Station} {e : Effect} {cause : Fault}
    (performed : s.perform e = .error cause) : s.apply e = .error cause := by
  rw [perform_eq] at performed
  cases reply : s.apply e with
  | error other =>
    rw [reply] at performed
    cases performed
    rfl
  | ok both =>
    rw [reply] at performed
    cases performed

end Station

/-- `step` is next to begin, and will stand on top of the levels that remain. -/
inductive Awaits (step : Step) : List Frame → List Frame → Prop where
  | resting : Awaits step [] []
  | nested {later : List Step} {below : List Frame} :
      Awaits step (.steps (step :: later) :: below) (.steps later :: below)

namespace Awaits

variable {step : Step} {stack below : List Frame}

theorem length_eq (awaits : Awaits step stack below) : below.length = stack.length := by
  cases awaits <;> rfl

theorem not_running (awaits : Awaits step stack below) {op : Operation} {target : Target}
    {rest : Task} {lower : List Frame} : stack ≠ .running op target rest :: lower := by
  cases awaits <;> exact nofun

end Awaits

/-- What one move does to a station, its trace apart, and to the levels of nesting. Which steps a
point lets in is left open. -/
inductive Move (s : Station) : List Frame → Option Entry → Station → List Frame → Prop where
  | surround {step : Step} {stack below : List Frame} (awaits : Awaits step stack below)
      (surrounds : ∀ op, step ≠ .operation op) :
      Move s stack (some (.begun stack.length step)) (s.meet step) below
  | operate {op : Operation} {stack below : List Frame}
      (awaits : Awaits (.operation op) stack below) :
      Move s stack (some (.begun stack.length (.operation op))) s
        (.running op s.target (op.task s.target) :: below)
  | leave {below : List Frame} : Move s (.steps [] :: below) none s below
  | act {op : Operation} {target : Target} {e : Effect} {next : e.Answer → Task}
      {below pushed : List Frame} {answer : e.Answer} {after : Station}
      (applied : s.apply e = .ok (answer, after))
      (lets : pushed = [] ∨ e.point?.isSome ∧ ∃ steps, pushed = [.steps steps]) :
      Move s (.running op target (.perform e next) :: below)
        (some (.acted below.length op e answer)) after
        (pushed ++ .running op target (next answer) :: below)
  | renew {op : Operation} {target : Target} {below : List Frame} :
      Move s (.running op target (.done .again) :: below) (some (.renewed below.length op)) s
        (.running op target (op.task target) :: below)
  | finish {op : Operation} {target : Target} {answer : Answer} {below : List Frame} :
      Move s (.running op target (.done (.finished answer)) :: below)
        (some (.ended below.length op answer)) s below
  | abort {op : Operation} {target : Target} {e : Effect} {next : e.Answer → Task}
      {below : List Frame} {cause : Fault} (applied : s.apply e = .error cause) :
      Move s (.running op target (.perform e next) :: below) (some (.faulted cause)) s.unlocked []

namespace Machine

def Reached (m : Machine) (s : Station) (stack : List Frame) (entry : Option Entry) : Prop :=
  ∃ after trace, Move s stack entry after m.stack ∧ m.station = { after with trace }

theorem finish_stack (m : Machine) (answer : Answer) : (m.finish answer).stack = m.stack := by
  unfold finish
  split <;> rfl

theorem finish_station (m : Machine) (answer : Answer) :
    ∃ trace, (m.finish answer).station = { m.station with trace } := by
  unfold finish
  split
  · exact ⟨m.station.trace, rfl⟩
  · exact ⟨_, rfl⟩

theorem issue_eq_finish (m : Machine) {step : Step} (surrounds : ∀ op, step ≠ .operation op) :
    ∃ (n : Machine) (answer : Answer), m.issue step = n.finish answer ∧ n.stack = m.stack ∧
      n.station = m.station.meet step := by
  cases step with
  | operation op => exact absurd rfl (surrounds op)
  | _ => exact ⟨_, _, rfl, rfl, rfl⟩

theorem issue_reached {m : Machine} {s : Station} {step : Step} {stack : List Frame}
    (trace : List Event) (awaits : Awaits step stack m.stack) (same : m.station = { s with trace }) :
    (m.issue step).Reached s stack (some (.begun stack.length step)) := by
  by_cases surrounds : ∀ op, step ≠ .operation op
  · obtain ⟨n, answer, issued, kept, met⟩ := issue_eq_finish m surrounds
    obtain ⟨shown, station⟩ := finish_station n answer
    refine ⟨s.meet step, shown, ?_, ?_⟩
    · rw [issued, finish_stack, kept]
      exact .surround awaits surrounds
    · rw [issued, station, met, same, Station.meet_trace]
  · obtain ⟨op, rfl⟩ : ∃ op, step = .operation op := by simpa using surrounds
    refine ⟨s, trace, ?_, same⟩
    have begun := Move.operate (s := s) awaits
    simpa only [issue, start, same] using begun

theorem begin_reached {m : Machine} (step : Step) (resting : m.stack = []) :
    (m.begin step).Reached m.station m.stack (some (.begun 0 step)) := by
  have awaits : Awaits step m.stack m.stack := by rw [resting]; exact .resting
  have reached := issue_reached
    (m := { m with answer := none, station := { m.station with trace := [] } }) [] awaits rfl
  simpa only [begin, resting, List.length_nil] using reached

theorem pass_reached {m : Machine} {s : Station} {stack : List Frame} {entry : Option Entry}
    {point : Point} {after : Station} (trace : List Event)
    (move : ∀ pushed, pushed = [] ∨ (∃ steps, pushed = [.steps steps]) →
      Move s stack entry after (pushed ++ m.stack))
    (same : m.station = { after with trace }) :
    (m.pass point).Reached s stack entry := by
  unfold pass
  split
  · exact ⟨after, trace, move [] (.inl rfl), same⟩
  · refine ⟨after, .hook point :: trace, move [_] (.inr ⟨_, rfl⟩), ?_⟩
    simp only [Station.record, same]

theorem advance_reached {m : Machine} (busy : m.stack ≠ []) :
    m.advance.Reached m.station m.stack m.entry? := by
  unfold advance entry?
  cases shape : m.stack with
  | nil => contradiction
  | cons frame below =>
    cases frame with
    | steps later =>
      cases later with
      | nil => exact ⟨m.station, _, .leave, rfl⟩
      | cons step later => exact issue_reached m.station.trace .nested rfl
    | running op target rest =>
      cases rest with
      | done round =>
        cases round with
        | again => exact ⟨m.station, m.station.trace, .renew, rfl⟩
        | finished answer =>
          obtain ⟨trace, station⟩ := finish_station { m with stack := below } answer
          refine ⟨m.station, trace, ?_, station⟩
          dsimp only
          rw [finish_stack]
          exact .finish
      | perform e next =>
        dsimp only
        cases performed : m.station.perform e with
        | error cause =>
          have applied := Station.perform_error performed
          simp only [applied]
          exact ⟨m.station.unlocked, m.station.trace, .abort applied, rfl⟩
        | ok reply =>
          obtain ⟨applied, trace, eq, same⟩ := Station.perform_ok performed
          simp only [eq]
          have move : ∀ pushed, pushed = [] ∨ e.point?.isSome ∧ (∃ steps, pushed = [.steps steps]) →
              Move m.station (.running op target (.perform e next) :: below)
                (some (.acted below.length op e reply.1)) applied
                (pushed ++ .running op target (next reply.1) :: below) :=
            fun pushed lets => .act eq lets
          cases lets : e.point? with
          | none => exact ⟨applied, trace, move [] (.inl rfl), same⟩
          | some point =>
            refine pass_reached trace (fun pushed shape => move pushed ?_) same
            exact shape.imp_right fun steps => ⟨by rw [lets]; rfl, steps⟩

end Machine

namespace Run

variable {admits : Machine → Step → Prop} {start : Machine}

/-- What holds at the start and is kept by every move holds all along. -/
theorem keeps {P : History → Station → List Frame → Prop} (initial : P [] start.station start.stack)
    (blind : ∀ {history s stack} trace, P history s stack → P history { s with trace } stack)
    (move : ∀ {history m entry after stack}, Run admits start history m →
      Move m.station m.stack entry after stack →
      (∀ depth step, entry = some (.begun depth step) → admits m step) →
      P history m.station m.stack → P (entry.toList ++ history) after stack)
    {history : History} {m : Machine} (run : Run admits start history m) :
    P history m.station m.stack := by
  induction run with
  | refl => exact initial
  | @begin history m step run resting admitted ih =>
    obtain ⟨after, trace, moved, same⟩ := Machine.begin_reached step resting
    have kept := move run moved (by rintro _ _ ⟨⟩; exact admitted) ih
    rw [same]
    exact blind trace kept
  | @advance history m run busy admitted ih =>
    obtain ⟨after, trace, moved, same⟩ := Machine.advance_reached busy
    have kept := move run moved admitted ih
    rw [same]
    exact blind trace kept

theorem account {P : History → Station → Prop} (initial : P [] start.station)
    (blind : ∀ {history s} trace, P history s → P history { s with trace })
    (surround : ∀ {history m step below}, Run admits start history m → admits m step →
      Awaits step m.stack below → (∀ op, step ≠ .operation op) → P history m.station →
      P (.begun m.stack.length step :: history) (m.station.meet step))
    (operate : ∀ {history m op below}, Run admits start history m → admits m (.operation op) →
      Awaits (.operation op) m.stack below → P history m.station →
      P (.begun m.stack.length (.operation op) :: history) m.station)
    (act : ∀ {history m op target e next below answer after}, Run admits start history m →
      m.stack = .running op target (.perform e next) :: below →
      m.station.apply e = .ok (answer, after) → P history m.station →
      P (.acted below.length op e answer :: history) after)
    (renew : ∀ {history m op target below}, Run admits start history m →
      m.stack = .running op target (.done .again) :: below → P history m.station →
      P (.renewed below.length op :: history) m.station)
    (finish : ∀ {history m op target answer below}, Run admits start history m →
      m.stack = .running op target (.done (.finished answer)) :: below → P history m.station →
      P (.ended below.length op answer :: history) m.station)
    (abort : ∀ {history m op target e next below cause}, Run admits start history m →
      m.stack = .running op target (.perform e next) :: below →
      m.station.apply e = .error cause → P history m.station →
      P (.faulted cause :: history) m.station.unlocked)
    {history : History} {m : Machine} (run : Run admits start history m) : P history m.station := by
  refine keeps (P := fun history s _ => P history s) initial blind ?_ run
  intro history m entry after stack run move admitted kept
  generalize shape : m.stack = levels at move
  cases move with
  | surround awaits surrounds =>
    subst shape
    exact surround run (admitted _ _ rfl) awaits surrounds kept
  | operate awaits =>
    subst shape
    exact operate run (admitted _ _ rfl) awaits kept
  | leave => exact kept
  | act applied lets => exact act run shape applied kept
  | renew => exact renew run shape kept
  | finish => exact finish run shape kept
  | abort applied => exact abort run shape applied kept

theorem before {m : Machine} {later earlier : History} {entry : Entry}
    (run : Run admits start (later ++ entry :: earlier) m) :
    ∃ before, Run admits start earlier before ∧
      ((∃ step, entry = .begun 0 step ∧ before.stack = [] ∧ admits before step) ∨
        before.stack ≠ [] ∧ before.entry? = some entry ∧
          ∀ depth step, entry = .begun depth step → admits before step) := by
  generalize whole : later ++ entry :: earlier = history at run
  induction run generalizing later with
  | refl => simp at whole
  | @begin _ m step run resting admitted ih =>
    cases later with
    | nil =>
      obtain ⟨rfl, rfl⟩ := List.cons.inj whole
      exact ⟨m, run, .inl ⟨step, rfl, resting, admitted⟩⟩
    | cons first newer => exact ih (List.cons.inj whole).2
  | @advance history m run busy admitted ih =>
    cases shown : m.entry? with
    | none => exact ih (by simpa [shown] using whole)
    | some latest =>
      rw [shown] at whole
      cases later with
      | cons first newer => exact ih (List.cons.inj whole).2
      | nil =>
        obtain ⟨rfl, rfl⟩ := List.cons.inj whole
        refine ⟨m, run, .inr ⟨busy, shown, fun depth step same => admitted depth step ?_⟩⟩
        rw [shown, same]

theorem trans {history record : History} {m n : Machine} (run : Run admits start history m)
    (onward : Run admits m record n) : Run admits start (record ++ history) n := by
  induction onward with
  | refl => exact run
  | begin _ resting admitted ih => exact ih.begin resting admitted
  | advance _ busy admitted ih =>
    rw [List.append_assoc]
    exact ih.advance busy admitted

/-- Where every step that began was one of those `allowed`, so was the run. -/
theorem narrow {narrower : Machine → Step → Prop} {allowed : Step → Prop} {history : History}
    {m : Machine} (run : Run admits start history m)
    (le : ∀ m step, admits m step → allowed step → narrower m step)
    (all : ∀ step ∈ history.filterMap Entry.begun?, allowed step) :
    Run narrower start history m := by
  induction run with
  | refl => exact .refl
  | begin run resting admitted ih =>
    obtain ⟨last, earlier⟩ := List.forall_mem_cons.mp all
    exact (ih earlier).begin resting (le _ _ admitted last)
  | @advance history m run busy admitted ih =>
    rw [List.filterMap_append] at all
    obtain ⟨last, earlier⟩ := List.forall_mem_append.mp all
    refine (ih earlier).advance busy fun depth step shown => ?_
    rw [shown] at last
    exact le _ _ (admitted depth step shown) (last step (.head _))

/-- Where an action stands in the history, it was the next one of the innermost operation. -/
theorem acted {m : Machine} {later earlier : History} {depth : Nat} {op : Operation} {e : Effect}
    {answer : e.Answer}
    (run : Run admits start (later ++ .acted depth op e answer :: earlier) m) :
    ∃ (before : Machine) (target : Target) (next : e.Answer → Task) (below : List Frame)
      (after : Station), Run admits start earlier before ∧
      before.stack = .running op target (.perform e next) :: below ∧ below.length = depth ∧
      before.station.apply e = .ok (answer, after) := by
  obtain ⟨before, run, ⟨_, ⟨⟩, _⟩ | ⟨_, shown, _⟩⟩ := run.before
  obtain ⟨target, next, below, after, top, deep, applied⟩ := Machine.entry?_acted shown
  exact ⟨before, target, next, below, after, run, top, deep, applied⟩

/-- Running a top-level step to its end is a stretch of a run. -/
theorem execute (all : ∀ m step, admits m step) {history : History} {m : Machine} {step : Step}
    (run : Run admits start history m) (resting : m.stack = []) :
    ∃ later, Run admits start (later ++ history) (m.execute step) := by
  have goes : ∀ limit {history m}, Run admits start history m →
      ∃ later, Run admits start (later ++ history) (Machine.advanceFor limit m) := by
    intro limit
    induction limit with
    | zero => exact fun run => ⟨[], run⟩
    | succ limit ih =>
      intro history m run
      unfold Machine.advanceFor
      split
      · exact ⟨[], run⟩
      · rename_i busy
        obtain ⟨later, run⟩ :=
          ih (run.advance (by simpa using busy) fun _ step _ => all m step)
        exact ⟨later ++ m.entry?.toList, by simpa only [List.append_assoc] using run⟩
  obtain ⟨later, run⟩ := goes (m.budget step) (run.begin resting (all m step))
  exact ⟨later ++ [.begun 0 step], by rw [List.append_assoc]; exact run⟩

end Run

namespace Machine

structure Calm (m : Machine) : Prop where
  hooks : m.hooks = []
  stack : ∀ frame ∈ m.stack, ∀ steps, frame ≠ .steps steps

def entries : Nat → Machine → History
  | 0, _ => []
  | limit + 1, m => if m.stack.isEmpty then [] else entries limit m.advance ++ m.entry?.toList

theorem finish_hooks (m : Machine) (answer : Answer) : (m.finish answer).hooks = m.hooks := by
  unfold finish
  split <;> rfl

theorem Calm.advance {m : Machine} (calm : m.Calm) : m.advance.Calm := by
  unfold Machine.advance
  cases shape : m.stack with
  | nil => exact calm
  | cons frame below =>
    have under : ∀ other ∈ below, ∀ steps, other ≠ .steps steps := fun other member =>
      calm.stack other (by rw [shape]; exact .tail _ member)
    cases frame with
    | steps later => exact absurd rfl (calm.stack (.steps later) (by rw [shape]; exact .head _) later)
    | running op target rest =>
      have onward (task : Task) :
          ∀ other ∈ Frame.running op target task :: below, ∀ steps, other ≠ .steps steps := by
        intro other member steps
        rcases List.mem_cons.mp member with rfl | member
        · exact nofun
        · exact under other member steps
      cases rest with
      | done round =>
        cases round with
        | again => exact ⟨calm.hooks, onward _⟩
        | finished answer =>
          dsimp only
          refine ⟨(finish_hooks _ answer).trans calm.hooks, ?_⟩
          rw [finish_stack]
          exact under
      | perform e next =>
        dsimp only
        cases m.station.perform e with
        | error cause => exact ⟨calm.hooks, List.forall_mem_nil _⟩
        | ok reply =>
          dsimp only
          split
          · unfold pass
            rw [calm.hooks]
            exact ⟨rfl, onward _⟩
          · exact ⟨calm.hooks, onward _⟩

theorem Calm.entry? {m : Machine} (calm : m.Calm) {depth : Nat} {step : Step}
    (shown : m.entry? = some (.begun depth step)) : False := by
  unfold Machine.entry? at shown
  split at shown
  case h_1 later below shape =>
    exact calm.stack _ (by rw [shape]; exact .head _) _ rfl
  case h_4 => split at shown <;> simp at shown
  all_goals simp at shown

end Machine

theorem Run.advances {admits : Machine → Step → Prop} {start m : Machine} {history : History}
    (limit : Nat) (calm : m.Calm) (run : Run admits start history m) :
    Run admits start (m.entries limit ++ history) (Machine.advanceFor limit m) := by
  induction limit generalizing m history with
  | zero => exact run
  | succ limit ih =>
    unfold Machine.entries Machine.advanceFor
    by_cases empty : m.stack.isEmpty
    · rw [if_pos empty, if_pos empty]
      exact run
    · rw [if_neg empty, if_neg empty, List.append_assoc]
      exact ih calm.advance
        (run.advance (by simpa using empty) fun _ _ shown => (calm.entry? shown).elim)

def Machine.beginnings : Nat → Machine → List (Machine × Step)
  | 0, _ => []
  | limit + 1, m =>
    match m.stack with
    | [] => []
    | .steps (step :: _) :: _ => (m, step) :: beginnings limit m.advance
    | _ => beginnings limit m.advance

/-- Moves can be made as long as the steps that begin in them are allowed. -/
theorem Run.goesOn {admits : Machine → Step → Prop} {start m : Machine} {history : History}
    (limit : Nat) (allowed : ∀ opening ∈ m.beginnings limit, admits opening.1 opening.2)
    (run : Run admits start history m) :
    Run admits start (m.entries limit ++ history) (Machine.advanceFor limit m) := by
  induction limit generalizing m history with
  | zero => exact run
  | succ limit ih =>
    unfold Machine.entries Machine.advanceFor
    unfold Machine.beginnings at allowed
    by_cases empty : m.stack.isEmpty
    · rw [if_pos empty, if_pos empty]
      exact run
    · have busy : m.stack ≠ [] := by simpa using empty
      rw [if_neg empty, if_neg empty, List.append_assoc]
      split at allowed
      · contradiction
      · rename_i step later below shape
        obtain ⟨first, rest⟩ := List.forall_mem_cons.mp allowed
        refine ih rest (run.advance busy fun depth other shown => ?_)
        simp only [Machine.entry?, shape, Option.some.injEq, Entry.begun.injEq] at shown
        exact shown.2 ▸ first
      · rename_i shape
        refine ih allowed (run.advance busy fun depth other shown => ?_)
        unfold Machine.entry? at shown
        split at shown
        · rename_i here
          exact absurd here (shape _ _ _)
        case h_4 => split at shown <;> cases shown
        all_goals cases shown

theorem Run.performs {admits : Machine → Step → Prop} {start m : Machine} {history : History}
    (run : Run admits start history m) (step : Step) (resting : m.stack = []) (admitted : admits m step)
    (limit : Nat) (allowed : ∀ opening ∈ (m.begin step).beginnings limit, admits opening.1 opening.2) :
    Run admits start ((m.begin step).entries limit ++ .begun 0 step :: history)
      (Machine.advanceFor limit (m.begin step)) :=
  (run.begin resting admitted).goesOn limit allowed

end EthernetMac
