import EthernetMac.Proofs.Interlude

/-! The steps at top level determine a run: everything else follows from where it starts. -/

namespace EthernetMac

open Program

namespace Machine

variable {m : Machine} {op : Operation} {target : Target} {below : List Frame}

theorem advance_leave (top : m.stack = .steps [] :: below) :
    m.advance = { m with stack := below } ∧ m.entry? = none := by
  unfold advance entry?
  rw [top]
  exact ⟨rfl, rfl⟩

theorem advance_issue {step : Step} {later : List Step} (top : m.stack = .steps (step :: later) :: below) :
    m.advance = { m with stack := .steps later :: below }.issue step ∧
      m.entry? = some (.begun (below.length + 1) step) := by
  unfold advance entry?
  rw [top]
  exact ⟨rfl, rfl⟩

theorem advance_finish {answer : Answer}
    (top : m.stack = .running op target (.done (.finished answer)) :: below) :
    m.advance = { m with stack := below }.finish answer ∧
      m.entry? = some (.ended below.length op answer) := by
  unfold advance entry?
  rw [top]
  exact ⟨rfl, rfl⟩

theorem advance_renew (top : m.stack = .running op target (.done .again) :: below) :
    m.advance = { m with stack := .running op target (op.task target) :: below } ∧
      m.entry? = some (.renewed below.length op) := by
  unfold advance entry?
  rw [top]
  exact ⟨rfl, rfl⟩

theorem advance_abort {e : Effect} {next : e.Answer → Task} {cause : Fault}
    (top : m.stack = .running op target (.perform e next) :: below)
    (applied : m.station.apply e = .error cause) :
    m.advance = m.abort cause ∧ m.entry? = some (.faulted cause) := by
  have performed : m.station.perform e = .error cause := by
    rw [Station.perform_eq, applied]
    rfl
  unfold advance entry?
  simp only [top, performed, applied, and_self]

def passed (m : Machine) : Option Point → Machine
  | none => m
  | some point => m.pass point

theorem advance_act {e : Effect} {next : e.Answer → Task} {answer : e.Answer} {after : Station}
    (top : m.stack = .running op target (.perform e next) :: below)
    (applied : m.station.apply e = .ok (answer, after)) :
    m.advance = { m with
      station := { after with trace := (e.event? answer).toList ++ m.station.trace }
      stack := .running op target (next answer) :: below }.passed e.point? ∧
    m.entry? = some (.acted below.length op e answer) := by
  have performed : m.station.perform e =
      .ok (answer, { after with trace := (e.event? answer).toList ++ m.station.trace }) := by
    rw [Station.perform_eq, applied, ← (Station.apply_aside applied).1]
    rfl
  unfold advance entry?
  simp only [top, performed, applied]
  cases e.point? <;> exact ⟨rfl, trivial⟩

theorem passed_unwaited {point? : Option Point}
    (unwaited : ∀ point, point? = some point → m.hooks.take? point = none) :
    m.passed point? = m := by
  cases point? with
  | none => rfl
  | some point =>
    unfold passed pass
    simp only [unwaited point rfl]

end Machine

def Entry.top? : Entry → Option Step
  | .begun 0 step => some step
  | _ => none

def tops (history : History) : List Step := history.filterMap Entry.top?

theorem tops_append (later earlier : History) : tops (later ++ earlier) = tops later ++ tops earlier :=
  List.filterMap_append

/-- What is still to be done at top level, and what has happened. -/
structure Play where
  script : List Step
  history : History
  machine : Machine

namespace Play

def next (p : Play) : Play :=
  match p.machine.stack, p.script with
  | [], [] => p
  | [], step :: rest => ⟨rest, .begun 0 step :: p.history, p.machine.begin step⟩
  | _ :: _, script => ⟨script, p.machine.entry?.toList ++ p.history, p.machine.advance⟩

def nextFor (p : Play) : Nat → Play
  | 0 => p
  | count + 1 => (p.nextFor count).next

def Over (p : Play) : Prop := p.machine.stack = [] ∧ p.script = []

theorem Over.next_eq {p : Play} (finished : p.Over) : p.next = p := by
  unfold next
  rw [finished.1, finished.2]

theorem nextFor_of_over {p : Play} {count : Nat} (ends : (p.nextFor count).Over) (more : Nat) :
    p.nextFor (count + more) = p.nextFor count := by
  induction more with
  | zero => rfl
  | succ more ih =>
    change (p.nextFor (count + more)).next = p.nextFor count
    rw [ih]
    exact ends.next_eq

theorem nextFor_unique {p : Play} {one other : Nat} (ends : (p.nextFor one).Over)
    (ends' : (p.nextFor other).Over) : p.nextFor one = p.nextFor other := by
  rcases Nat.le_total one other with less | less
  · obtain ⟨more, rfl⟩ := Nat.le.dest less
    exact (nextFor_of_over ends more).symm
  · obtain ⟨more, rfl⟩ := Nat.le.dest less
    exact nextFor_of_over ends' more

end Play

/-- What happens in the middle of a step does not begin one at top level. -/
theorem Machine.tops_entry? (m : Machine) : tops m.entry?.toList = [] := by
  cases shown : m.entry? with
  | none => rfl
  | some entry =>
    cases entry with
    | begun depth step =>
      have busy : m.stack ≠ [] := by
        intro resting
        unfold entry? at shown
        rw [resting] at shown
        cases shown
      have deep : depth = m.stack.length := by
        unfold entry? at shown
        split at shown
        case h_1 => exact (Entry.begun.inj (Option.some.inj shown)).1.symm
        case h_4 => split at shown <;> cases shown
        all_goals cases shown
      have positive : m.stack.length ≠ 0 := fun none => busy (List.length_eq_zero_iff.mp none)
      cases depth with
      | zero => exact absurd deep.symm positive
      | succ => rfl
    | _ => rfl

namespace Run

variable {admits other : Machine → Step → Prop} {start m n : Machine} {history record : History}

theorem plays (run : Run admits start history m) (more : List Step) :
    ∃ count, Play.nextFor ⟨(tops history).reverse ++ more, [], start⟩ count =
      ⟨more, history, m⟩ := by
  -- By induction on the run, for every continuation of the script, as a step that begins was the next
  -- one in it.
  induction run generalizing more with
  | refl => exact ⟨0, rfl⟩
  | @begin history m step run resting admitted ih =>
    obtain ⟨count, plays⟩ := ih (step :: more)
    have script : (tops (.begun 0 step :: history)).reverse ++ more =
        (tops history).reverse ++ step :: more := by
      change (step :: tops history).reverse ++ more = _
      rw [List.reverse_cons, List.append_assoc]
      rfl
    refine ⟨count + 1, ?_⟩
    rw [script, Play.nextFor, plays]
    unfold Play.next
    simp only [resting]
  | @advance history m run busy admitted ih =>
    obtain ⟨count, plays⟩ := ih more
    have script : tops (m.entry?.toList ++ history) = tops history := by
      rw [tops_append, m.tops_entry?]
      rfl
    refine ⟨count + 1, ?_⟩
    rw [script, Play.nextFor, plays]
    unfold Play.next
    cases shape : m.stack with
    | nil => exact absurd shape busy
    | cons => rfl

/-- Runs from one machine with the same steps at top level are the same. -/
theorem determined (run : Run admits start history m) (rests : m.stack = [])
    (again : Run other start record n) (rests' : n.stack = []) (same : tops history = tops record) :
    history = record ∧ m = n := by
  obtain ⟨one, first⟩ := run.plays []
  obtain ⟨two, second⟩ := again.plays []
  rw [same] at first
  have finished : (Play.nextFor ⟨(tops record).reverse ++ [], [], start⟩ one).Over := by
    rw [first]
    exact ⟨rests, rfl⟩
  have finished' : (Play.nextFor ⟨(tops record).reverse ++ [], [], start⟩ two).Over := by
    rw [second]
    exact ⟨rests', rfl⟩
  have unique := Play.nextFor_unique finished finished'
  rw [first, second] at unique
  exact ⟨congrArg Play.history unique, congrArg Play.machine unique⟩

end Run

/-- Where no steps wait at its points, a program comes to its result with nothing in between. -/
theorem Run.carries {α : Type} {admits : Machine → Step → Prop} {start m : Machine}
    {history : History} {allowed : Effect → Prop} {op : Operation} {target : Target}
    {p : Program α} {f : α → Task} {below : List Frame} {value : α} {after : Station}
    (run : Run admits start history m) (only : p.Only allowed)
    (unwaited : ∀ e point, allowed e → e.point? = some point → m.hooks.take? point = none)
    (top : m.stack = .running op target (p >>= f) :: below)
    (ran : p.run m.station = (.ok value, after)) :
    ∃ acts n, Run admits start (acts ++ history) n ∧
      n.stack = .running op target (f value) :: below ∧ n.station = after ∧ n.hooks = m.hooks ∧
      ∀ entry ∈ acts, ∃ e answer, allowed e ∧ entry = .acted below.length op e answer := by
  induction p generalizing m history with
  | done result =>
    cases ran
    exact ⟨[], m, run, top, rfl, rfl, List.forall_mem_nil _⟩
  | perform e next ih =>
    have busy : m.stack ≠ [] := by
      rw [top]
      exact List.cons_ne_nil _ _
    cases applied : m.station.apply e with
    | error cause =>
      have faults : (perform e next).run m.station = (.error cause, m.station) :=
        Program.run_fault applied m.station.trace
      cases faults.symm.trans ran
    | ok reply =>
      have goes : (perform e next).run m.station = _ := Program.run_next applied m.station.trace
      obtain ⟨advanced, entry⟩ := Machine.advance_act top applied
      have advanced := advanced.trans
        (Machine.passed_unwaited fun point here => unwaited e point only.1 here)
      have onward := run.advance busy (by rw [entry]; exact nofun)
      rw [advanced, entry] at onward
      obtain ⟨acts, n, later, stack, station, hooks, own⟩ :=
        ih reply.1 onward (only.2 reply.1).2 unwaited rfl (goes.symm.trans ran)
      refine ⟨acts ++ [.acted below.length op e reply.1], n, ?_, stack, station, hooks, ?_⟩
      · rw [List.append_assoc]
        exact later
      · intro entry member
        rcases List.mem_append.mp member with old | new
        · exact own entry old
        · exact ⟨e, reply.1, only.1, List.mem_singleton.mp new⟩

end EthernetMac
