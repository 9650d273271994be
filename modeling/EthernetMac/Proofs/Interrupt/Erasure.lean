import EthernetMac.Proofs.Determined
import EthernetMac.Proofs.Interrupt.Coalescing
import EthernetMac.Proofs.Interrupt.Edits
import EthernetMac.Proofs.Interrupt.Heeded

/-! Ignored bits make no difference. A run is shadowed by the run in which the hardware raises only the
bits that the worker acts upon: handlers leave the same but for ignored bits, and rounds in which the
worker only counts have no counterpart. -/

namespace EthernetMac

open Program

namespace Erasure

/-- Causes, operations on interrupt handling, and steps that wait for points outside of handlers. -/
def Admits (_ : Machine) : Step → Prop
  | .raiseChannel _ | .raiseLink => True
  | .hook point _ => ¬ point.OfHandler
  | .operation op => op.Coordinating
  | _ => False

def Settled : Frame → Prop
  | .steps _ => True
  | .running op target rest => target = .interrupts ∧ op.Coordinating ∧ op ≠ .interrupt ∧
      (rest.Only Effect.Heeded ∨ op = .deferred ∧ rest = Operation.deferred.task .interrupts)

structure Shared (m n : Machine) : Prop where
  hooks : n.hooks = Hooks.heed m.hooks
  outside : ∀ wait ∈ m.hooks, ¬ wait.1.OfHandler
  device : m.station.registers.backing = .device
  target : m.station.target = .interrupts

/-- `n` is the shadow of `m`: it stands at the same place, or before the handler or the round that `m`
is in the middle of. -/
inductive Shadows (m n : Machine) : Prop where
  | level (station : Heeds m.station n.station) (stack : n.stack = m.stack.map Frame.heed)
      (settled : ∀ frame ∈ m.stack, Settled frame)
  | handling {before : Station} {rest : Task} {below : List Frame}
      (station : Heeds before n.station) (device : before.registers.backing = .device)
      (top : m.stack = .running .interrupt .interrupts rest :: below)
      (stack : n.stack = .running .interrupt .interrupts (.once Interrupt.handle .truth) ::
        below.map Frame.heed)
      (settled : ∀ frame ∈ below, Settled frame) (only : rest.Only Effect.Ignored)
      (own : ∃ trace, rest.run { m.station with trace } = (Task.once Interrupt.handle .truth).run before)
  | counting {word : Word} {counters : List Counter} {below : List Frame}
      (station : Heeds (m.station.mapInterrupt ({ · with pending := ⟨word⟩ })) n.station)
      (empty : m.station.interrupt.pending = .empty)
      (top : m.stack = .running .deferred .interrupts
        (Interrupt.count counters >>= fun _ => Interrupt.round (Causes.ofWord word).quiet) :: below)
      (stack : n.stack = .running .deferred .interrupts (Operation.deferred.task .interrupts) ::
        below.map Frame.heed)
      (settled : ∀ frame ∈ below, Settled frame) (ignored : ∀ counter ∈ counters, ¬ counter.Heeded)
      (more : counters ≠ [] ∨ word &&& heeded = 0)

def Catches (n : Machine) (entries : History) (after : Machine) : Prop :=
  ∃ acts next, Run (fun _ _ => True) n acts next ∧ tops acts = [] ∧
    heededOf acts = heededOf entries ∧ Shared after next ∧ Shadows after next

theorem Shared.kept {m n m' n' : Machine} (shared : Shared m n) (hooks : m'.hooks = m.hooks)
    (others : n'.hooks = n.hooks)
    (backing : m'.station.registers.backing = m.station.registers.backing)
    (target : m'.station.target = m.station.target) : Shared m' n' := by
  refine ⟨?_, ?_, backing.trans shared.device, target.trans shared.target⟩
  · rw [others, hooks]
    exact shared.hooks
  · rw [hooks]
    exact shared.outside

theorem Shared.act {m n next : Machine} {e : Effect} {answer : e.Answer} {after : Station}
    (shared : Shared m n) (acts : e.Heeded ∨ e.Ignored)
    (applied : m.station.apply e = .ok (answer, after)) (trace : List Event) (stack : List Frame)
    (hooks : next.hooks = n.hooks) :
    Shared { m with station := { after with trace }, stack } next := by
  have backing := Station.apply_backing applied
  have kept := (Station.apply_target applied).1
  refine shared.kept rfl hooks backing ?_
  cases e with
  | attach | detach => exact (acts.elim id id).elim
  | _ => exact kept

/-- No steps wait for what a handler does. -/
theorem Shared.unwaited {m n : Machine} (shared : Shared m n) {e : Effect} {point : Point}
    (ignored : e.Ignored) (here : e.point? = some point) :
    m.hooks.take? point = none ∧ n.hooks.take? point = none := by
  cases found : m.hooks.take? point with
  | some both =>
    exact absurd (ignored.point here) (shared.outside _ (Hooks.mem_of_take? found).1)
  | none =>
    rw [shared.hooks, Hooks.take?_heed, found]
    exact ⟨rfl, rfl⟩

theorem settled_task (op : Operation) (coordinating : op.Coordinating) (handler : op ≠ .interrupt) :
    Settled (.running op .interrupts (op.task .interrupts)) := by
  refine ⟨rfl, coordinating, handler, ?_⟩
  by_cases worker : op = .deferred
  · subst worker
    exact .inr ⟨rfl, rfl⟩
  · exact .inl (coordinating.heeded handler worker)

section Level

variable {m n : Machine} (shared : Shared m n) (station : Heeds m.station n.station)
  (stack : n.stack = m.stack.map Frame.heed) (settled : ∀ frame ∈ m.stack, Settled frame)

include shared station stack settled

theorem finish (one other : Answer) :
    Shared (m.finish one) (n.finish other) ∧ Shadows (m.finish one) (n.finish other) := by
  obtain ⟨trace, mine⟩ := m.finish_station one
  obtain ⟨trace', its⟩ := n.finish_station other
  constructor
  · refine shared.kept (m.finish_hooks one) (n.finish_hooks other) ?_ ?_
    · rw [mine]
    · rw [mine]
  · refine .level ?_ ?_ ?_
    · rw [mine, its]
      exact station.retrace trace trace'
    · rw [Machine.finish_stack, Machine.finish_stack]
      exact stack
    · rw [Machine.finish_stack]
      exact settled

theorem passed (point? : Option Point) :
    Shared (m.passed point?) (n.passed point?) ∧ Shadows (m.passed point?) (n.passed point?) := by
  cases point? with
  | none => exact ⟨shared, .level station stack settled⟩
  | some point =>
    change Shared (m.pass point) (n.pass point) ∧ Shadows (m.pass point) (n.pass point)
    have found := Hooks.take?_heed m.hooks point
    rw [← shared.hooks] at found
    unfold Machine.pass
    cases mine : m.hooks.take? point with
    | none =>
      rw [mine] at found
      rw [found]
      exact ⟨shared, .level station stack settled⟩
    | some both =>
      rw [mine] at found
      rw [found]
      have kept := (Hooks.mem_of_take? mine).2
      have outside (wait : Point × List Step) (member : wait ∈ both.2) : ¬ wait.1.OfHandler :=
        shared.outside wait (kept wait member)
      have heeds := station.retrace (.hook point :: m.station.trace) (.hook point :: n.station.trace)
      refine ⟨⟨rfl, outside, shared.device, shared.target⟩, .level heeds ?_ ?_⟩
      · exact congrArg (Frame.steps (both.1.map Step.heed) :: ·) stack
      · exact List.forall_mem_cons.mpr ⟨trivial, settled⟩

theorem start {op : Operation} (coordinating : op.Coordinating) :
    Shared (m.start op) (n.start op) ∧ Shadows (m.start op) (n.start op) := by
  refine ⟨shared.kept rfl rfl rfl rfl, ?_⟩
  have here := shared.target
  have there := station.target.trans here
  by_cases handler : op = .interrupt
  · subst handler
    have top : (m.start .interrupt).stack =
        .running .interrupt .interrupts (.once Interrupt.handle .truth) :: m.stack := by
      unfold Machine.start
      rw [here]
      rfl
    have waits : (n.start .interrupt).stack =
        .running .interrupt .interrupts (.once Interrupt.handle .truth) :: m.stack.map Frame.heed := by
      unfold Machine.start
      rw [there, stack]
      rfl
    have only : (Task.once Interrupt.handle .truth).Only Effect.Ignored :=
      Interrupt.handle_ignored.bind fun _ => .pure _
    exact .handling station shared.device top waits settled only ⟨m.station.trace, rfl⟩
  · have ready := settled_task op coordinating handler
    refine .level station ?_ ?_
    · unfold Machine.start
      rw [here, there, stack]
      rfl
    · unfold Machine.start
      rw [here]
      exact List.forall_mem_cons.mpr ⟨ready, settled⟩

theorem issue {step : Step} (admitted : Admits m step) :
    Shared (m.issue step) (n.issue step.heed) ∧ Shadows (m.issue step) (n.issue step.heed) := by
  have raised (one other : RegisterFile) (device : one.backing = .device)
      (heeds : Heeds { m.station with registers := one } { n.station with registers := other }) :
      Shared ((m.mapRegisters fun _ => one).finish .ok) ((n.mapRegisters fun _ => other).finish .ok) ∧
        Shadows ((m.mapRegisters fun _ => one).finish .ok)
          ((n.mapRegisters fun _ => other).finish .ok) :=
    finish (m := m.mapRegisters fun _ => one) (n := n.mapRegisters fun _ => other)
      ⟨shared.hooks, shared.outside, device, shared.target⟩ heeds stack settled .ok .ok
  cases step with
  | raiseChannel bits => exact raised _ _ shared.device (station.raiseChannel bits)
  | raiseLink => exact raised _ _ shared.device station.raiseLink
  | hook point steps =>
    have hooks : n.hooks ++ [(point, Step.heed.all steps)] =
        Hooks.heed (m.hooks ++ [(point, steps)]) := by
      rw [shared.hooks, Step.heed_all]
      unfold Hooks.heed
      rw [List.map_append]
      rfl
    have outside : ∀ wait ∈ m.hooks ++ [(point, steps)], ¬ wait.1.OfHandler := by
      intro wait member
      rcases List.mem_append.mp member with old | new
      · exact shared.outside wait old
      · rw [List.mem_singleton.mp new]
        exact admitted
    exact finish (m := { m with hooks := m.hooks ++ [(point, steps)] })
      (n := { n with hooks := n.hooks ++ [(point, Step.heed.all steps)] })
      ⟨hooks, outside, shared.device, shared.target⟩ station stack settled .ok .ok
  | operation op => exact start shared station stack settled admitted
  | _ => exact admitted.elim

end Level

theorem advance_drain {m : Machine} {below : List Frame}
    (top : m.stack = .running .deferred .interrupts (Operation.deferred.task .interrupts) :: below) :
    m.advance = { m with
      station := m.station.mapInterrupt ({ · with pending := .empty })
      stack := .running .deferred .interrupts
        (Interrupt.onward m.station.interrupt.pending.word) :: below } ∧
    m.entry? = some (.acted below.length .deferred .drain m.station.interrupt.pending.word) := by
  rw [Operation.deferred_task] at top
  exact Machine.advance_act (e := .drain) top rfl

theorem matters_acted {depth : Nat} {op : Operation} {e : Effect} {answer : e.Answer}
    (ignored : e.Ignored) : ¬ (Entry.acted depth op e answer).matters := by
  cases e with
  | load | merge | schedule | drain => exact Bool.false_ne_true
  | store offset value =>
    intro matters
    exact of_decide_eq_true matters ignored
  | count counter =>
    intro matters
    exact ignored (of_decide_eq_true matters)
  | _ => exact ignored.elim

theorem heededOf_acts {acts : History} {depth : Nat} {op : Operation}
    (own : ∀ entry ∈ acts, ∃ e answer, e.Ignored ∧ entry = .acted depth op e answer) :
    heededOf acts = [] := by
  refine List.filter_eq_nil_iff.mpr fun entry member => ?_
  obtain ⟨e, answer, ignored, rfl⟩ := own entry member
  exact matters_acted ignored

theorem tops_acts {acts : History} {depth : Nat} {op : Operation}
    (own : ∀ entry ∈ acts, ∃ e answer, e.Ignored ∧ entry = .acted depth op e answer) :
    tops acts = [] := by
  refine List.filterMap_eq_nil_iff.mpr fun entry member => ?_
  obtain ⟨e, answer, _, rfl⟩ := own entry member
  rfl

namespace Catches

variable {m n after : Machine} {entries : History}

theorem waiting (silent : heededOf entries = []) (shared : Shared after n) (shadows : Shadows after n) :
    Catches n entries after :=
  ⟨[], n, .refl, rfl, silent.symm, shared, shadows⟩

theorem once {frame : Frame} {below : List Frame} (top : n.stack = frame :: below)
    (alike : heededOf n.entry?.toList = heededOf entries)
    (both : Shared after n.advance ∧ Shadows after n.advance) : Catches n entries after := by
  have busy : n.stack ≠ [] := by
    rw [top]
    exact List.cons_ne_nil _ _
  have run := (@Run.refl (fun _ _ => True) n).advance busy fun _ _ _ => trivial
  rw [List.append_nil] at run
  exact ⟨_, _, run, n.tops_entry?, alike, both⟩

end Catches

section Advance

variable {m n : Machine} {below : List Frame} (shared : Shared m n)
  (settled : ∀ frame ∈ below, Settled frame)

include shared settled

theorem catches_steps {steps : List Step} (station : Heeds m.station n.station)
    (admitted : ∀ depth step, m.entry? = some (.begun depth step) → Admits m step)
    (top : m.stack = .steps steps :: below)
    (stack : n.stack = .steps (steps.map Step.heed) :: below.map Frame.heed) :
    Catches n m.entry?.toList m.advance := by
  cases steps with
  | nil =>
    obtain ⟨mine, nothing⟩ := Machine.advance_leave top
    obtain ⟨its, nothing'⟩ := Machine.advance_leave stack
    refine .once stack (by rw [nothing, nothing']) ?_
    rw [mine, its]
    exact ⟨shared.kept rfl rfl rfl rfl, .level station rfl settled⟩
  | cons step rest =>
    obtain ⟨mine, begun⟩ := Machine.advance_issue top
    obtain ⟨its, begun'⟩ := Machine.advance_issue stack
    refine .once stack ?_ ?_
    · rw [begun, begun']
      rfl
    · rw [mine, its]
      exact issue (m := { m with stack := .steps rest :: below })
        (n := { n with stack := .steps (rest.map Step.heed) :: below.map Frame.heed })
        (shared.kept rfl rfl rfl rfl) station rfl
        (List.forall_mem_cons.mpr ⟨trivial, settled⟩) (admitted _ _ begun)

theorem catches_finish {op : Operation} {target : Target} {answer : Answer}
    (station : Heeds m.station n.station)
    (top : m.stack = .running op target (.done (.finished answer)) :: below)
    (stack : n.stack = .running op target (.done (.finished answer)) :: below.map Frame.heed) :
    Catches n m.entry?.toList m.advance := by
  obtain ⟨mine, ended⟩ := Machine.advance_finish top
  obtain ⟨its, ended'⟩ := Machine.advance_finish stack
  refine .once stack ?_ ?_
  · rw [ended, ended', List.length_map]
  · rw [mine, its]
    exact finish (m := { m with stack := below }) (n := { n with stack := below.map Frame.heed })
      (shared.kept rfl rfl rfl rfl) station rfl settled answer answer

theorem catches_renew {op : Operation} (station : Heeds m.station n.station)
    (coordinating : op.Coordinating) (handler : op ≠ .interrupt)
    (top : m.stack = .running op .interrupts (.done .again) :: below)
    (stack : n.stack = .running op .interrupts (.done .again) :: below.map Frame.heed) :
    Catches n m.entry?.toList m.advance := by
  obtain ⟨mine, renewed⟩ := Machine.advance_renew top
  obtain ⟨its, renewed'⟩ := Machine.advance_renew stack
  have ready := settled_task op coordinating handler
  refine .once stack ?_ ?_
  · rw [renewed, renewed']
    rfl
  · rw [mine, its]
    exact ⟨shared.kept rfl rfl rfl rfl,
      .level station rfl (List.forall_mem_cons.mpr ⟨ready, settled⟩)⟩

theorem catches_act {op : Operation} {e : Effect} {next : e.Answer → Task}
    (station : Heeds m.station n.station) (coordinating : op.Coordinating) (handler : op ≠ .interrupt)
    (only : (Program.perform e next).Only Effect.Heeded)
    (top : m.stack = .running op .interrupts (.perform e next) :: below)
    (stack : n.stack = .running op .interrupts (.perform e next) :: below.map Frame.heed) :
    Catches n m.entry?.toList m.advance := by
  cases applied : m.station.apply e with
  | error cause =>
    have applied' := station.apply_error shared.device only.1 applied
    obtain ⟨mine, faulted⟩ := Machine.advance_abort top applied
    obtain ⟨its, faulted'⟩ := Machine.advance_abort stack applied'
    refine .once stack (by rw [faulted, faulted']) ?_
    rw [mine, its]
    exact ⟨shared.kept rfl rfl rfl rfl,
      .level station.unlocked rfl (List.forall_mem_nil _)⟩
  | ok reply =>
    obtain ⟨after, applied', heeds⟩ := station.apply_ok shared.device only.1 applied
    obtain ⟨mine, acted⟩ := Machine.advance_act top applied
    obtain ⟨its, acted'⟩ := Machine.advance_act stack applied'
    have ready : Settled (.running op .interrupts (next reply.1)) :=
      ⟨rfl, coordinating, handler, .inl (only.2 reply.1).2⟩
    refine .once stack ?_ ?_
    · rw [acted, acted', List.length_map]
    · rw [mine, its]
      have settled' := List.forall_mem_cons.mpr ⟨ready, settled⟩
      refine passed ?_ (heeds.retrace _ _) rfl settled' e.point?
      exact shared.act (.inl only.1) applied _ _ rfl

/-- Once the worker has counted all but `counters`, the shadow takes what is pending when nothing is
left to be counted and there is something to act upon. -/
theorem catches_counting {entries : History} {word : Word} {counters : List Counter}
    (station : Heeds (m.station.mapInterrupt ({ · with pending := ⟨word⟩ })) n.station)
    (empty : m.station.interrupt.pending = .empty)
    (top : m.stack = .running .deferred .interrupts
      (Interrupt.count counters >>= fun _ => Interrupt.round (Causes.ofWord word).quiet) :: below)
    (stack : n.stack = .running .deferred .interrupts (Operation.deferred.task .interrupts) ::
      below.map Frame.heed)
    (ignored : ∀ counter ∈ counters, ¬ counter.Heeded) (silent : heededOf entries = []) :
    Catches n entries m := by
  by_cases more : counters ≠ [] ∨ word &&& heeded = 0
  · exact .waiting silent shared (.counting station empty top stack settled ignored more)
  · have counted : counters = [] := Classical.byContradiction fun left => more (.inl left)
    have some : word &&& heeded ≠ 0 := fun none => more (.inr none)
    subst counted
    -- The shadow took nothing so far: its drain finds `word` without the ignored bits, and the round
    -- that it begins is what is left of the one in progress.
    obtain ⟨its, drained⟩ := advance_drain stack
    have here : m.station.mapInterrupt (fun i => { i with pending := .empty }) = m.station := by
      rw [← empty]
      rfl
    have heeds : Heeds m.station (n.station.mapInterrupt ({ · with pending := .empty })) := by
      rw [← here]
      exact station.drained
    have top' : m.stack.map Frame.heed = .running .deferred .interrupts
        (Interrupt.onward (word &&& heeded)) :: below.map Frame.heed := by
      rw [top, Interrupt.onward_heeded some]
      rfl
    have held : n.station.interrupt.pending.word = word &&& heeded := station.word_eq
    have ready : Settled (.running .deferred .interrupts (Interrupt.round (Causes.ofWord word).quiet)) :=
      ⟨rfl, trivial, by decide, .inl (Interrupt.round_quiet_heeded _)⟩
    refine .once stack ?_ ?_
    · rw [drained]
      exact silent.symm
    · rw [its, held]
      refine ⟨shared.kept rfl rfl rfl rfl, .level heeds top'.symm ?_⟩
      rw [top]
      exact List.forall_mem_cons.mpr ⟨ready, settled⟩

theorem catches_drain (station : Heeds m.station n.station)
    (top : m.stack = .running .deferred .interrupts (Operation.deferred.task .interrupts) :: below)
    (stack : n.stack = .running .deferred .interrupts (Operation.deferred.task .interrupts) ::
      below.map Frame.heed) :
    Catches n m.entry?.toList m.advance := by
  obtain ⟨mine, drained⟩ := advance_drain top
  have shared' (stack : List Frame) : Shared { m with
      station := m.station.mapInterrupt ({ · with pending := .empty }), stack } n :=
    shared.kept rfl rfl rfl rfl
  rw [mine, drained]
  by_cases none : m.station.interrupt.pending.word = 0
  · have held : n.station.interrupt.pending.word = 0 := by
      rw [station.word_eq, none]
      decide
    obtain ⟨its, drained'⟩ := advance_drain stack
    have idle : Settled (.running .deferred .interrupts (Interrupt.onward 0)) :=
      ⟨rfl, trivial, by decide, .inl trivial⟩
    rw [none]
    refine .once stack ?_ ?_
    · rw [drained']
      rfl
    · rw [its, held]
      exact ⟨shared.kept rfl rfl rfl rfl,
        .level station.drained rfl (List.forall_mem_cons.mpr ⟨idle, settled⟩)⟩
  · have goes : Interrupt.onward m.station.interrupt.pending.word =
        (Interrupt.count (Interrupt.counted (Causes.ofWord m.station.interrupt.pending.word)) >>=
          fun _ => Interrupt.round (Causes.ofWord m.station.interrupt.pending.word).quiet) := by
      unfold Interrupt.onward
      rw [if_neg none, Interrupt.round_eq]
    rw [goes]
    exact catches_counting (shared' _) settled station rfl rfl stack (Interrupt.counted_ignored _) rfl

/-- The worker counts, which the shadow does not do, and then acts upon the other causes. -/
theorem catches_count {word : Word} {counters : List Counter}
    (station : Heeds (m.station.mapInterrupt ({ · with pending := ⟨word⟩ })) n.station)
    (empty : m.station.interrupt.pending = .empty)
    (top : m.stack = .running .deferred .interrupts
      (Interrupt.count counters >>= fun _ => Interrupt.round (Causes.ofWord word).quiet) :: below)
    (stack : n.stack = .running .deferred .interrupts (Operation.deferred.task .interrupts) ::
      below.map Frame.heed)
    (ignored : ∀ counter ∈ counters, ¬ counter.Heeded) (more : counters ≠ [] ∨ word &&& heeded = 0) :
    Catches n m.entry?.toList m.advance := by
  cases counters with
  | nil =>
    have none : word &&& heeded = 0 := more.resolve_left fun left => left rfl
    have idle : m.stack = .running .deferred .interrupts (.done .again) :: below := by
      rw [top, Interrupt.round_idle none]
      rfl
    obtain ⟨mine, renewed⟩ := Machine.advance_renew idle
    have heeds : Heeds m.station n.station := by
      refine ⟨station.same.trans ?_, station.channel, station.pending⟩
      unfold Station.heed Station.mapInterrupt
      rw [empty, none]
      rfl
    have ready := settled_task .deferred trivial (by decide)
    rw [mine, renewed]
    refine .waiting rfl (shared.kept rfl rfl rfl rfl) ?_
    exact .level heeds stack (List.forall_mem_cons.mpr ⟨ready, settled⟩)
  | cons counter rest =>
    obtain ⟨own, others⟩ := List.forall_mem_cons.mp ignored
    obtain ⟨mine, acted⟩ := Machine.advance_act (e := .count counter) top rfl
    have silent : heededOf [.acted below.length .deferred (.count counter) ()] = [] :=
      List.filter_cons_of_neg (matters_acted (e := .count counter) own)
    rw [mine, acted]
    refine catches_counting (shared.act (e := .count counter) (.inr own) rfl _ _ rfl) settled ?_ empty
      rfl stack others silent
    exact (station.counted own).retrace _ _

theorem catches_handling {before : Station} {e : Effect} {next : e.Answer → Task}
    (station : Heeds before n.station) (device : before.registers.backing = .device)
    (top : m.stack = .running .interrupt .interrupts (.perform e next) :: below)
    (stack : n.stack = .running .interrupt .interrupts (.once Interrupt.handle .truth) ::
      below.map Frame.heed) (only : (Program.perform e next).Only Effect.Ignored)
    (own : ∃ trace, (Program.perform e next).run { m.station with trace } =
      (Task.once Interrupt.handle .truth).run before) :
    Catches n m.entry?.toList m.advance := by
  obtain ⟨trace, own⟩ := own
  obtain ⟨_, whole⟩ := Interrupt.once_run device
  cases applied : m.station.apply e with
  | error cause =>
    have faults : (perform e next).run { m.station with trace } = _ :=
      Program.run_fault applied trace
    cases faults.symm.trans (own.trans whole)
  | ok reply =>
    have goes : (perform e next).run { m.station with trace } = _ := Program.run_next applied trace
    obtain ⟨mine, acted⟩ := Machine.advance_act top applied
    have mine := mine.trans
      (Machine.passed_unwaited fun point here => (shared.unwaited only.1 here).1)
    have silent : heededOf [.acted below.length .interrupt e reply.1] = [] :=
      List.filter_cons_of_neg (matters_acted only.1)
    rw [mine, acted]
    refine .waiting silent (shared.act (.inr only.1) applied _ _ rfl) ?_
    exact .handling station device rfl stack settled (only.2 reply.1).2 ⟨_, goes.symm.trans own⟩

/-- When the handler is over, that of the shadow runs as a whole. -/
theorem catches_handled {before : Station} {round : Round Answer} (station : Heeds before n.station)
    (device : before.registers.backing = .device)
    (top : m.stack = .running .interrupt .interrupts (.done round) :: below)
    (stack : n.stack = .running .interrupt .interrupts (.once Interrupt.handle .truth) ::
      below.map Frame.heed)
    (own : ∃ trace, Program.run (.done round) { m.station with trace } =
      (Task.once Interrupt.handle .truth).run before) :
    Catches n m.entry?.toList m.advance := by
  obtain ⟨trace, own⟩ := own
  obtain ⟨_, whole⟩ := Interrupt.once_run device
  obtain ⟨same, handled⟩ := Prod.mk.inj (own.trans whole)
  cases Except.ok.inj same
  obtain ⟨mine, ended⟩ := Machine.advance_finish top
  have found : n.station.registers.backing = .device := station.backing.trans device
  obtain ⟨_, runs⟩ := Interrupt.handle_run found
  obtain ⟨acts, next, run, top', there, hooks, silent⟩ := (@Run.refl (fun _ _ => True) n).carries
    Interrupt.handle_ignored (fun e point acts here => (shared.unwaited acts here).2) stack runs
  rw [List.append_nil] at run
  have busy : next.stack ≠ [] := by
    rw [top']
    exact List.cons_ne_nil _ _
  obtain ⟨its, ended'⟩ := Machine.advance_finish top'
  have later := run.advance busy fun _ _ _ => trivial
  have here : m.station = { before.handled with trace := m.station.trace } :=
    congrArg (fun s : Station => { s with trace := m.station.trace }) handled
  have heeds : Heeds m.station next.station := by
    rw [there, here]
    exact station.handled.retrace _ _
  rw [mine, ended]
  refine ⟨_, _, later, ?_, ?_, ?_⟩
  · rw [ended']
    change tops acts = []
    exact tops_acts silent
  · rw [ended']
    change heededOf acts = []
    exact heededOf_acts silent
  · rw [its]
    exact finish (m := { m with stack := below }) (n := { next with stack := below.map Frame.heed })
      (shared.kept rfl hooks rfl rfl) heeds rfl settled _ _

end Advance

theorem Shadows.catches {m n : Machine} (shadows : Shadows m n) (shared : Shared m n)
    (busy : m.stack ≠ [])
    (admitted : ∀ depth step, m.entry? = some (.begun depth step) → Admits m step) :
    Catches n m.entry?.toList m.advance := by
  cases shadows with
  | @handling _ rest _ station device top stack settled only own =>
    cases rest with
    | done => exact catches_handled shared settled station device top stack own
    | perform => exact catches_handling shared settled station device top stack only own
  | counting station empty top stack settled ignored more =>
    exact catches_count shared settled station empty top stack ignored more
  | level station stack settled =>
    cases top : m.stack with
    | nil => exact absurd top busy
    | cons frame below =>
      rw [top] at stack settled
      obtain ⟨first, others⟩ := List.forall_mem_cons.mp settled
      cases frame with
      | steps rest => exact catches_steps shared others station admitted top stack
      | running op target rest =>
        obtain ⟨rfl, coordinating, handler, only | ⟨rfl, rfl⟩⟩ := first
        · cases rest with
          | done result =>
            cases result with
            | finished answer => exact catches_finish shared others station top stack
            | again => exact catches_renew shared others station coordinating handler top stack
          | perform e next =>
            exact catches_act shared others station coordinating handler only top stack
        · exact catches_drain shared others station top stack

theorem Shadows.rests {m n : Machine} (shadows : Shadows m n) (resting : m.stack = []) :
    Heeds m.station n.station ∧ n.stack = [] := by
  cases shadows with
  | level station stack =>
    rw [resting] at stack
    exact ⟨station, stack⟩
  | handling _ _ top | counting _ _ top => cases resting.symm.trans top

end Erasure

open Erasure (Admits Shared Shadows)

/-- A run is shadowed by one from the same machine without its ignored bits. -/
theorem Run.shadowed {start m : Machine} {history : History} (resting : start.stack = [])
    (device : start.station.registers.backing = .device) (target : start.station.target = .interrupts)
    (outside : ∀ wait ∈ start.hooks, ¬ wait.1.OfHandler) (run : Run Admits start history m) :
    ∃ record n, Run (fun _ _ => True) start.heed record n ∧
      tops record = (tops history).map Step.heed ∧ heededOf record = heededOf history ∧
      Shared m n ∧ Shadows m n := by
  induction run with
  | refl =>
    have stack : start.heed.stack = [] := by
      unfold Machine.heed
      rw [resting]
      rfl
    have settled : ∀ frame ∈ start.stack, Erasure.Settled frame := by
      rw [resting]
      exact List.forall_mem_nil _
    exact ⟨[], start.heed, .refl, rfl, rfl, ⟨rfl, outside, device, target⟩,
      .level start.station.heeds_heed rfl settled⟩
  | @begin history m step run resting admitted ih =>
    obtain ⟨record, n, shadow, tops, same, shared, shadows⟩ := ih
    obtain ⟨station, rests⟩ := shadows.rests resting
    have stack : n.stack = m.stack.map Frame.heed := by
      rw [resting, rests]
      rfl
    have settled : ∀ frame ∈ m.stack, Erasure.Settled frame := by
      rw [resting]
      exact List.forall_mem_nil _
    have begins := Erasure.issue
      (m := { m with answer := none, station := { m.station with trace := [] } })
      (n := { n with answer := none, station := { n.station with trace := [] } })
      (shared.kept rfl rfl rfl rfl) (station.retrace [] []) stack
      settled admitted
    exact ⟨_, _, shadow.begin rests trivial, congrArg (step.heed :: ·) tops, same, begins⟩
  | @advance history m run busy admitted ih =>
    obtain ⟨record, n, shadow, tops, same, shared, shadows⟩ := ih
    obtain ⟨acts, next, caught, none, alike, both⟩ := shadows.catches shared busy admitted
    refine ⟨acts ++ record, next, shadow.trans caught, ?_, ?_, both⟩
    · rw [tops_append, tops_append, none, m.tops_entry?]
      exact tops
    · unfold heededOf at *
      rw [List.filter_append, List.filter_append, alike, same]

theorem heededOf_filterMap {β : Type} {f : Entry → Option β}
    (blind : ∀ entry, ¬ entry.matters → f entry = none) (history : History) :
    (heededOf history).filterMap f = history.filterMap f := by
  unfold heededOf
  induction history with
  | nil => rfl
  | cons entry earlier ih =>
    by_cases matters : entry.matters
    · rw [List.filter_cons_of_pos matters, List.filterMap_cons, List.filterMap_cons, ih]
    · rw [List.filter_cons_of_neg matters, List.filterMap_cons_none (blind entry matters), ih]

theorem enableWrites_heededOf (history : History) :
    enableWrites (heededOf history) = enableWrites history := by
  refine heededOf_filterMap (fun entry ignored => ?_) history
  cases entry with
  | acted depth op e answer =>
    cases e with
    | store offset value =>
      by_cases here : offset = Register.channelStatus
      · subst here
        rfl
      · exact absurd (decide_eq_true here) ignored
    | _ => rfl
  | _ => rfl

theorem shown_heededOf {β : Type} {g : Event → Option β}
    (accesses : ∀ offset value, g (.read offset value) = none ∧ g (.write offset value) = none)
    (schedule : g .schedule = none) (history : History) :
    (shown (heededOf history)).filterMap g = (shown history).filterMap g := by
  unfold shown
  rw [List.filterMap_filterMap, List.filterMap_filterMap]
  refine heededOf_filterMap (fun entry ignored => ?_) history
  cases entry with
  | acted depth op e answer =>
    cases e with
    | load offset => exact (accesses _ _).1
    | store offset value => exact (accesses _ _).2
    | schedule => exact schedule
    | merge | drain | count => rfl
    | _ => exact absurd rfl ignored
  | _ => rfl

/-- Errors of the hardware are counted and influence nothing else. -/
theorem Run.erased {start other m n : Machine} {history record : History}
    (resting : start.stack = []) (rests : other.stack = [])
    (device : start.station.registers.backing = .device) (target : start.station.target = .interrupts)
    (outside : ∀ wait ∈ start.hooks, ¬ wait.1.OfHandler)
    (outside' : ∀ wait ∈ other.hooks, ¬ wait.1.OfHandler) (same : start.heed = other.heed)
    (run : Run Admits start history m) (ends : m.stack = [])
    (later : Run Admits other record n) (ends' : n.stack = [])
    (alike : (tops history).map Step.heed = (tops record).map Step.heed) :
    m.station.interrupt.wanted = n.station.interrupt.wanted ∧
    m.station.interrupt.queue = n.station.interrupt.queue ∧
    enableWrites history = enableWrites record ∧
    notified (shown history) = notified (shown record) ∧
    (shown history).count .linkChanged = (shown record).count .linkChanged ∧
    (∀ counter, counter.Heeded →
      m.station.interrupt.counters counter = n.station.interrupt.counters counter) ∧
    m.heed = n.heed ∧ heededOf history = heededOf record := by
  have device' : other.station.registers.backing = .device := by
    have backing := congrArg (·.station.registers.backing) same
    exact backing.symm.trans device
  have target' : other.station.target = .interrupts := by
    have targets := congrArg (·.station.target) same
    exact targets.symm.trans target
  obtain ⟨one, between, shadow, begun, matters, shared, shadows⟩ :=
    run.shadowed resting device target outside
  obtain ⟨two, between', shadow', begun', matters', shared', shadows'⟩ :=
    later.shadowed rests device' target' outside'
  rw [← same] at shadow'
  obtain ⟨heeds, finished⟩ := shadows.rests ends
  obtain ⟨heeds', finished'⟩ := shadows'.rests ends'
  -- Both shadows begin alike and have the same steps at top level, so that they are one run.
  have script : tops one = tops two := by rw [begun, begun', alike]
  obtain ⟨rfl, rfl⟩ := shadow.determined finished shadow' finished' script
  have entries : heededOf history = heededOf record := matters.symm.trans matters'
  have machines : m.heed = n.heed := by
    unfold Machine.heed
    rw [← heeds.same, ← heeds'.same, ← shared.hooks, ← shared'.hooks, ends, ends']
  have counters (counter : Counter) (counts : counter.Heeded) :
      m.station.interrupt.counters counter = n.station.interrupt.counters counter := by
    have equal := congrArg (·.station.interrupt.counters counter) machines
    change m.station.interrupt.counters.heed counter = n.station.interrupt.counters.heed counter at equal
    unfold Counters.heed at equal
    rwa [if_pos counts, if_pos counts] at equal
  have told {β : Type} {g : Event → Option β}
      (accesses : ∀ offset value, g (.read offset value) = none ∧ g (.write offset value) = none)
      (schedule : g .schedule = none) :
      (shown history).filterMap g = (shown record).filterMap g := by
    rw [← shown_heededOf accesses schedule, entries, shown_heededOf accesses schedule]
  refine ⟨?_, ?_, ?_, ?_, ?_, counters, machines, entries⟩
  · exact congrArg (·.station.interrupt.wanted) machines
  · exact congrArg (·.station.interrupt.queue) machines
  · rw [← enableWrites_heededOf, entries, enableWrites_heededOf]
  · exact told (fun _ _ => ⟨rfl, rfl⟩) rfl
  · have links := told (g := Option.guard (· == .linkChanged)) (fun _ _ => ⟨rfl, rfl⟩) rfl
    rw [List.filterMap_eq_filter] at links
    unfold List.count
    rw [List.countP_eq_length_filter, links, List.countP_eq_length_filter]

def quietHardware : Machine where
  station :=
    { registers := { cell := fun _ => 0 }
      target := .interrupts
      interrupt :=
        { wanted := .all
          queue := fun
            | .receive => some ⟨"rx"⟩
            | .transmit => some ⟨"tx"⟩ } }

def duringWrite (bits : Word) : Step :=
  .hook (.write Register.channelInterruptEnable) [.raiseChannel bits, .operation .interrupt]

/-- A received packet comes with an abnormal cause, and while the worker serves it a fatal error is
reported, for which the worker needs another round; without these bits the second interrupt finds
nothing. -/
theorem Run.erased_quietHardware :
    ∃ (m n : Machine) (history record : History),
      Run Admits quietHardware history m ∧ Run Admits quietHardware record n ∧
      handlerAnswers history = [true, true] ∧ handlerAnswers record = [false, true] ∧
      m.station.interrupt.counters .fatal = 1 ∧ n.station.interrupt.counters .fatal = 0 ∧
      notified (shown history) = [⟨"rx"⟩] ∧
      m.station.interrupt.wanted = n.station.interrupt.wanted ∧
      m.station.interrupt.queue = n.station.interrupt.queue ∧
      enableWrites history = enableWrites record ∧
      notified (shown history) = notified (shown record) ∧
      (shown history).count .linkChanged = (shown record).count .linkChanged ∧
      (∀ counter, counter.Heeded →
        m.station.interrupt.counters counter = n.station.interrupt.counters counter) ∧
      m.heed = n.heed ∧ heededOf history = heededOf record := by
  have outside : ∀ wait ∈ quietHardware.hooks, ¬ wait.1.OfHandler := List.forall_mem_nil _
  have apart : ¬ (Point.write Register.channelInterruptEnable).OfHandler := by
    unfold Point.OfHandler
    decide
  have none : ∀ opening ∈ ([] : List (Machine × Step)), Admits opening.1 opening.2 :=
    List.forall_mem_nil _
  have noisy := (@Run.refl Admits quietHardware).performs (duringWrite 0x1000) rfl apart 40 none
  have noisy := noisy.performs (.raiseChannel 0x4040) rfl trivial 40 none
  have noisy := noisy.performs (.operation .interrupt) rfl trivial 40 none
  have noisy := noisy.performs (.operation .deferred) rfl trivial 40
    (List.forall_mem_cons.mpr ⟨trivial, List.forall_mem_singleton.mpr trivial⟩)
  have quiet := (@Run.refl Admits quietHardware).performs (duringWrite 0) rfl apart 40 none
  have quiet := quiet.performs (.raiseChannel 0x40) rfl trivial 40 none
  have quiet := quiet.performs (.operation .interrupt) rfl trivial 40 none
  have quiet := quiet.performs (.operation .deferred) rfl trivial 40
    (List.forall_mem_cons.mpr ⟨trivial, List.forall_mem_singleton.mpr trivial⟩)
  have outcome := noisy.erased rfl rfl rfl rfl outside outside rfl rfl quiet rfl rfl
  exact ⟨_, _, _, _, noisy, quiet, rfl, rfl, rfl, rfl, rfl, outcome⟩

end EthernetMac
