import EthernetMac.Proofs.Interrupt.Turns

/-! Where a call that holds the lock lets others in: at the writes of the enable registers and at
notifications, and nowhere else. As long as nothing that takes the lock is nested there, nobody is
refused it. -/

namespace EthernetMac

open Program

def Effect.Opens : Effect → Prop
  | store offset _ => offset = Register.macInterruptEnable ∨ offset = Register.channelInterruptEnable
  | notify _ => True
  | _ => False

structure Door where
  works : Bool
  held : Bool

namespace Door

def Permits (q : Door) : Effect → Prop
  | .wanted | .armed _ => q.works = false
  | e => q.held = false ∨ e.point? = none ∨ e.Opens

def after (q : Door) : (e : Effect) → e.Answer → Door
  | .acquire, _ => { q with held := true }
  | .release, _ => { q with held := false }
  | _, _ => q

theorem Permits.opens {q : Door} {e : Effect} (permitted : q.Permits e) (held : q.held = true)
    (lets : e.point?.isSome) : e.Opens := by
  have either : q.held = false ∨ e.point? = none ∨ e.Opens := by
    cases e <;> first | exact permitted | exact .inr (.inl rfl)
  rcases either with free | closed | opens
  · rw [free] at held
    cases held
  · rw [closed] at lets
    cases lets
  · exact opens

end Door

def doorLaw : Law Door where
  idle := ⟨false, false⟩
  start op := ⟨decide (op = .deferred), false⟩
  permits := Door.Permits
  after := Door.after

namespace doorLaw

@[simp] theorem idle_eq : doorLaw.idle = ⟨false, false⟩ := rfl

@[simp] theorem start_eq (op : Operation) : doorLaw.start op = ⟨decide (op = .deferred), false⟩ := rfl

@[simp] theorem permits_eq : doorLaw.permits = Door.Permits := rfl

@[simp] theorem after_eq : doorLaw.after = Door.after := rfl

def Outside : Effect → Prop
  | .acquire | .release | .wanted | .armed _ => False
  | _ => True

theorem ignores_outside {works : Bool} (e : Effect) (outside : Outside e) :
    doorLaw.Ignores ⟨works, false⟩ e := by
  cases e with
  | acquire | release | wanted | armed => exact outside.elim
  | _ => exact ⟨.inl rfl, fun _ => rfl⟩

theorem of_outside {works : Bool} {α : Type} {p : Program α} {allowed : Effect → Prop}
    (only : p.Only allowed) (outside : ∀ e, allowed e → Outside e) :
    p.Obeys doorLaw (fun _ after => after = ⟨works, false⟩) ⟨works, false⟩ :=
  .of_only only (fun e inside => ignores_outside e (outside e inside)) trivial

theorem of_mask {works held : Bool} {p : Program Unit} (only : p.Only maskActions) :
    p.Obeys doorLaw (fun _ after => after = ⟨works, held⟩) ⟨works, held⟩ := by
  refine .of_only only (fun e inside => ?_) trivial
  cases e with
  | store => exact ⟨.inr (.inr inside), fun _ => rfl⟩
  | mask | setMask => exact ⟨.inr (.inl rfl), fun _ => rfl⟩
  | _ => exact inside.elim

theorem notifyOnce {works : Bool} (direction : Direction) :
    (Interrupt.notifyOnce direction).Obeys doorLaw (fun _ after => after = ⟨works, true⟩)
      ⟨works, true⟩ := by
  refine ⟨.inr (.inl rfl), fun answer => ⟨fun _ => trivial, ?_⟩⟩
  cases answer with
  | none => rfl
  | some queue =>
    refine ⟨.inr (.inl rfl), fun _ => ⟨fun _ => trivial, ?_⟩⟩
    exact ⟨.inr (.inr trivial), fun _ => ⟨fun _ => trivial, rfl⟩⟩

theorem locked {works : Bool} {p : Program Unit}
    (body : p.Obeys doorLaw (fun _ after => after = ⟨works, true⟩) ⟨works, true⟩) :
    (Program.locked p).Obeys doorLaw (fun _ after => after = ⟨works, false⟩) ⟨works, false⟩ := by
  rw [obeys_locked]
  refine ⟨.inl rfl, fun _ => ⟨fun _ => trivial, ?_⟩⟩
  refine Obeys.reach (p := p) body fun _ => ?_
  exact ⟨.inr (.inl rfl), fun _ => ⟨fun _ => trivial, rfl⟩⟩

theorem edit {works : Bool} {p : Program Unit} (only : p.Only maskActions) :
    (Program.locked p).Obeys doorLaw (fun _ after => after = ⟨works, false⟩) ⟨works, false⟩ :=
  locked (of_mask only)

theorem register (direction : Direction) (queue : Option QueueHandle) :
    (Interrupt.register direction queue).Obeys doorLaw (fun _ after => after = ⟨false, false⟩)
      ⟨false, false⟩ := by
  refine locked ⟨.inr (.inl rfl), fun _ => ⟨fun _ => trivial, of_mask ?_⟩⟩
  exact .ite (Interrupt.addWanted_only _) (Interrupt.removeWanted_only _)

theorem serveQueues (causes : Causes) :
    (Interrupt.serveQueues causes).Obeys doorLaw (fun _ after => after = ⟨true, false⟩)
      ⟨true, false⟩ := by
  refine locked (Obeys.seq (of_mask (Interrupt.removeWanted_only _)) fun _ => ?_)
  exact Obeys.seq (.onlyIf fun _ => notifyOnce _) fun _ => .onlyIf fun _ => notifyOnce _

theorem deferred {linkChange : Program Unit}
    (either : linkChange = act .linkChanged ∨ linkChange = discard refreshLink) :
    (Task.deferred linkChange).Obeys doorLaw (fun _ after => after = ⟨true, false⟩)
      ⟨true, false⟩ := by
  have serve (causes : Causes) : (Interrupt.serve linkChange causes).Obeys doorLaw
      (fun _ after => after = ⟨true, false⟩) ⟨true, false⟩ := by
    refine Interrupt.serve_obeys either (fun e inside => ignores_outside e ?_) trivial
      (.onlyIf fun _ => serveQueues causes)
    cases e <;> first | exact inside.elim | trivial
  unfold Task.deferred Interrupt.work
  simp only [obeys_bind]
  refine ⟨.inl rfl, fun word => ⟨fun _ => trivial, ?_⟩⟩
  rw [obeys_done, obeys_ite]
  exact ⟨fun _ => rfl, fun _ => (serve _).andThen fun _ => rfl⟩

theorem task {op : Operation} (inService : op.InService) (target : Target) :
    (op.task target).Obeys doorLaw (fun _ => doorLaw.ends) (doorLaw.start op) := by
  have once {α : Type} {p : Program α} {answer : α → Answer} {q : Door}
      (kept : p.Obeys doorLaw (fun _ after => after = q) q) :
      (Task.once p answer).Obeys doorLaw (fun _ => doorLaw.ends) q :=
    kept.seq fun _ => trivial
  have work := op.work inService target
  generalize op.task target = task at work
  by_cases coordinating : op.Coordinating
  · cases work with
    | nothing => exact trivial
    | register direction queue => exact once (register direction queue)
    | enable bits => exact once (edit (Interrupt.addWanted_only bits))
    | disable bits => exact once (edit (Interrupt.removeWanted_only bits))
    | interrupt =>
      refine once (of_outside Interrupt.handle_only fun e inside => ?_)
      cases e <;> first | exact inside.elim | trivial
    | deferred linkChange either => exact (deferred either).mono fun _ _ _ => trivial
    | wanted => exact once ⟨rfl, fun _ => ⟨fun _ => trivial, rfl⟩⟩
    | _ => exact coordinating.elim
  · have idle : doorLaw.start op = ⟨false, false⟩ := by
      rw [start_eq, decide_eq_false]
      rintro rfl
      exact coordinating trivial
    rw [idle]
    refine (work.beside coordinating (fun e inside => ?_) trivial ?_ ?_).mono fun _ _ _ => trivial
    · cases e <;> first | exact inside.elim | exact ⟨rfl, fun _ => rfl⟩ | exact ⟨.inl rfl, fun _ => rfl⟩
    · exact fun _ => edit (Interrupt.addWanted_only _)
    · exact fun _ => edit (Interrupt.removeWanted_only _)

theorem held_eq (depth : Nat) (history : History) :
    (lockLaw.state depth history).holds = (doorLaw.state depth history).held := by
  refine Law.state_related (fun (q : LockUse) (r : Door) => q.holds = r.held) rfl (fun _ => rfl)
    (fun q r e answer same => ?_) depth history
  cases e <;> first | rfl | exact same

theorem works_of_calls {depth : Nat} {history : History}
    (called : calls.state depth history = some .deferred) :
    (doorLaw.state depth history).works = true := by
  refine @Law.state_related _ doorLaw _ calls (fun q r => r = some .deferred → q.works = true)
    nofun (fun op same => ?_) (fun q r e answer kept same => ?_) depth history called
  · exact decide_eq_true (Option.some.inj same)
  · have works := kept same
    cases e <;> exact works

end doorLaw

def latest : Law (Option Effect) where
  idle := none
  start _ := none
  permits _ _ := True
  after _ e _ := some e
  yields q := ∀ e, q = some e → e.point?.isSome
  idle_yields := nofun

theorem latest.obeys {α : Type} (p : Program α) (q : Option Effect) :
    p.Obeys latest (fun _ _ => True) q := by
  induction p generalizing q with
  | done => trivial
  | perform e next ih =>
    refine ⟨trivial, fun answer => ⟨?_, ih answer _⟩⟩
    rintro lets _ ⟨⟩
    exact lets

/-- Something below `depth` stands at a write of an enable register that a change of the mask makes,
or at a notification. -/
def Enclosed (depth : Nat) (history : History) : Prop :=
  ∃ d < depth, ∃ op e, calls.state d history = some op ∧ op.takesLock = true ∧
    latest.state d history = some e ∧ e.Opens

/-- Nothing that takes the lock happens in an enclosed place. What a worker is handed decides
whether it takes the lock. -/
def Entry.Patient (earlier : History) : Entry → Prop
  | begun depth (.operation op) =>
    op.takesLock = true → op ≠ .deferred → ¬ Enclosed depth earlier
  | acted depth .deferred .drain word =>
    (Causes.ofWord word).queues.isEmpty = false → ¬ Enclosed depth earlier
  | _ => True

def History.Patient : History → Prop
  | [] => True
  | entry :: earlier => entry.Patient earlier ∧ Patient earlier

def Entry.level : Entry → Nat
  | begun depth _ | acted depth _ _ _ | renewed depth _ | ended depth _ _ => depth
  | faulted _ => 0

/-- Nothing is enclosed at top level. -/
theorem History.patient_of_level {history : History} (level : ∀ entry ∈ history, entry.level = 0) :
    history.Patient := by
  induction history with
  | nil => trivial
  | cons entry earlier ih =>
    obtain ⟨here, lower⟩ := List.forall_mem_cons.mp level
    refine ⟨?_, ih lower⟩
    unfold Entry.Patient
    split
    · rintro _ _ ⟨d, less, _⟩
      exact absurd (here ▸ less) (Nat.not_lt_zero d)
    · rintro _ ⟨d, less, _⟩
      exact absurd (here ▸ less) (Nat.not_lt_zero d)
    · trivial

/-- A call that holds the lock takes it as what it is, and lets others in at the doors only. -/
def Gated (history : History) : Prop :=
  ∀ depth, Holding history depth →
    (∃ op, calls.state depth history = some op ∧ op.takesLock = true) ∧
      ∃ e, latest.state depth history = some e ∧ (e.point?.isSome → e.Opens)

def Unasking (history : History) : Prop :=
  ∀ holder depth op, Holding history holder → holder < depth →
    calls.state depth history = some op →
      op.takesLock = false ∨ op = .deferred ∧ owes.state depth history = []

namespace Gated

variable {history : History} {entry : Entry} {n : Nat}

theorem turn (gated : Gated history) (silent : ∀ depth, depth ≠ n → Law.SilentAt depth entry)
    (idle : ¬ Holding (entry :: history) n) : Gated (entry :: history) := by
  intro depth holds
  have other : depth ≠ n := fun same => idle (same ▸ holds)
  unfold Holding at holds
  rw [Law.state_of_silent (silent depth other)] at holds ⊢
  rw [Law.state_of_silent (silent depth other)]
  exact gated depth holds

theorem enclosed (gated : Gated history) {holder depth : Nat} (holds : Holding history holder)
    (above : holder < depth) (waits : latest.yields (latest.state holder history)) :
    Enclosed depth history := by
  obtain ⟨⟨op, called, takes⟩, e, last, opens⟩ := gated holder holds
  exact ⟨holder, above, op, e, called, takes, last, opens (waits e last)⟩

end Gated

namespace Run

variable {admits : Machine → Step → Prop} {start m : Machine} {history : History}
  (resting : start.stack = [])

include resting

theorem latest_acting (run : Run admits start history m) {op : Operation} {target : Target}
    {e : Effect} {next : e.Answer → Task} {below : List Frame}
    (top : m.stack = .running op target (.perform e next) :: below) :
    latest.Acting history below.length op e :=
  run.acting resting (fun _ _ _ => (latest.obeys _ _).mono fun _ _ _ => trivial) top

theorem latest_opening (run : Run admits start history m) {step : Step} {below : List Frame}
    (awaits : Awaits step m.stack below) : latest.Opening history m.stack.length :=
  run.opening resting (fun _ _ _ => (latest.obeys _ _).mono fun _ _ _ => trivial) awaits

variable (inService : ∀ m op, admits m (.operation op) → op.InService)

include inService

theorem gated (run : Run admits start history m) : Gated history := by
  have locking := lockLaw.obeyed inService
  refine Run.account (P := fun history _ => Gated history) ?initial (fun _ kept => kept) ?surround
    ?operate ?act ?renew ?finish ?abort run
  case initial =>
    intro depth holds
    cases holds
  case surround =>
    intro history m step below _ _ _ surrounds kept depth holds
    rw [holding_surround surrounds] at holds
    rw [Law.state_surround surrounds, Law.state_surround surrounds]
    exact kept depth holds
  case operate =>
    intro history m op below _ _ _ kept
    exact kept.turn (n := m.stack.length) (fun _ other => Ne.symm other) (by simp)
  case act =>
    intro history m op target e next below answer after run top _ kept depth holds
    have acting := run.acting resting locking top
    have doors := (run.acting resting (fun m op admitted =>
      doorLaw.task (inService m op admitted) m.station.target) top).permitted
    by_cases here : below.length = depth
    · subst here
      have takes : (∃ op, calls.state below.length history = some op ∧ op.takesLock = true) ∧
          (e.point?.isSome → Holding history below.length) := by
        cases e with
        | acquire =>
          refine ⟨takes_of_state acting.permitted.1, fun lets => ?_⟩
          cases lets
        | release => simp [LockUse.after] at holds
        | _ =>
          have held : Holding history below.length := by
            simpa [Holding, LockUse.after] using holds
          exact ⟨(kept _ held).1, fun _ => held⟩
      refine ⟨by simpa using takes.1, e, by simp [latest], fun lets => ?_⟩
      refine doors.opens ?_ lets
      rw [← doorLaw.held_eq]
      exact takes.2 lets
    · have held : Holding history depth := by simpa [here] using holds
      simpa [here] using kept depth held
  case renew =>
    intro history m op target below _ _ kept
    exact kept.turn (n := below.length) (fun _ other => Ne.symm other) (by simp)
  case finish =>
    intro history m op target answer below _ _ kept
    exact kept.turn (n := below.length) (fun _ other => Ne.symm other) (by simp)
  case abort =>
    intro history m op target e next below cause run top applied kept depth holds
    cases holds

variable (present : ∀ m op, admits m (.operation op) → m.station.target ≠ .noDevice)

theorem unasking (run : Run admits start history m) (patient : history.Patient) :
    Unasking history := by
  have locking := lockLaw.obeyed inService
  refine Run.account (P := fun history _ => history.Patient → Unasking history) ?initial
    (fun _ kept => kept) ?surround ?operate ?act ?renew ?finish ?abort run patient
  case initial =>
    intro patient holder depth op holds
    cases holds
  case surround =>
    intro history m step below _ _ _ surrounds kept patient holder depth op
    rw [holding_surround surrounds, Law.state_surround surrounds, Law.state_surround surrounds]
    exact kept patient.2 holder depth op
  case operate =>
    intro history m op below run _ awaits kept patient holder depth other holds above called
    have waiting := run.latest_opening resting awaits
    obtain ⟨_, holds⟩ := (holding_begun op).mp holds
    by_cases here : m.stack.length = depth
    · subst here
      have same : op = other := by simpa using called
      subst same
      have enclosed := (run.gated resting inService).enclosed holds above (waiting.below _ above)
      -- A worker may begin in an enclosed place: it asks for the lock only for what it is handed.
      by_cases worker : op = .deferred
      · exact .inr ⟨worker, by simp [owes]⟩
      · exact .inl (Bool.eq_false_iff.mpr fun takes => patient.1 takes worker enclosed)
    · simpa [here] using kept patient.2 holder depth other holds above (by simpa [here] using called)
  case act =>
    intro history m op target e next below answer after run top _ kept patient holder depth
      other holds above called
    have waiting := run.latest_acting resting top
    have called : calls.state depth history = some other := by simpa using called
    by_cases atHolder : below.length = holder
    · rw [waiting.vacant depth (atHolder ▸ above)] at called
      cases called
    have held : Holding history holder := by simpa [atHolder] using holds
    by_cases here : below.length = depth
    · subst here
      rw [waiting.called] at called
      cases called
      rcases kept patient.2 holder _ op held above waiting.called with never | ⟨rfl, none⟩
      · exact .inl never
      · refine .inr ⟨rfl, ?_⟩
        rw [Law.state_acted, if_pos rfl]
        cases e with
        | drain =>
          refine (Causes.turns_eq_nil _).mpr (Bool.not_eq_false _ ▸ fun wanting => ?_)
          exact patient.1 wanting
            ((run.gated resting inService).enclosed held above (waiting.below _ above))
        | acquire => rfl
        | _ => exact none
    · simpa [here] using kept patient.2 holder depth other held above called
  case renew =>
    intro history m op target below run top kept patient holder depth other holds above called
    obtain ⟨_, holds⟩ := (holding_renewed op).mp holds
    by_cases here : below.length = depth
    · subst here
      have same : op = other := by simpa using called
      subst same
      exact .inr ⟨run.renews resting top, by simp [owes]⟩
    · simpa [here] using kept patient.2 holder depth other holds above (by simpa [here] using called)
  case finish =>
    intro history m op target answer below _ _ kept patient holder depth other holds above called
    obtain ⟨_, holds⟩ := (holding_ended op answer).mp holds
    by_cases here : below.length = depth
    · simp [here] at called
    · simpa [here] using kept patient.2 holder depth other holds above (by simpa [here] using called)
  case abort =>
    intro history m op target e next below cause run top applied kept patient holder depth other holds
    cases holds

include present

/-- Taking the lock does not fail as long as nothing that takes it happens in an enclosed place. -/
theorem granted (free : start.station.interrupt.lock = .free) (run : Run admits start history m)
    (patient : history.Patient) {op : Operation} {target : Target} {e : Effect}
    {next : e.Answer → Task} {below : List Frame}
    (top : m.stack = .running op target (.perform e next) :: below)
    (takes : e = .acquire ∨ e = .wanted ∨ ∃ direction, e = .armed direction) :
    m.station.interrupt.lock = .free := by
  have acting := run.acting resting (lockLaw.obeyed inService) top
  have doors := (run.acting resting (fun m op admitted =>
    doorLaw.task (inService m op admitted) m.station.target) top).permitted
  have turns := (run.acting resting (fun m op admitted =>
    turnLaw.task (inService m op admitted) (present m op admitted)) top).permitted
  have permitted : (lockLaw.state below.length history).takes = true ∧
      ¬ Holding history below.length := by
    have permitted := acting.permitted
    rcases takes with rfl | rfl | ⟨direction, rfl⟩ <;> exact permitted
  obtain ⟨caller, called, takesLock⟩ := takes_of_state permitted.1
  refine (run.single resting inService free).free_of_none ?_
  intro holder holds
  rcases Nat.lt_trichotomy holder below.length with under | rfl | higher
  · rcases run.unasking resting inService patient holder _ caller holds under called with
      never | ⟨rfl, none⟩
    · rw [never] at takesLock
      cases takesLock
    · -- A worker asks for the lock only for what it owes, and here it owes nothing.
      have works := doorLaw.works_of_calls called
      rcases takes with rfl | looks
      · rw [← turnLaw.owed_eq] at none
        exact turns.2.2 ((turnLaw.call_eq _ _).trans called) none
      · have idle : (doorLaw.state below.length history).works = false := by
          rcases looks with rfl | ⟨direction, rfl⟩ <;> exact doors
        rw [works] at idle
        cases idle
  · exact permitted.2 holds
  · unfold Holding at holds
    rw [acting.above holder higher] at holds
    cases holds

end Run

end EthernetMac
