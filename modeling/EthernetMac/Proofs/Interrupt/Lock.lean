import EthernetMac.Proofs.Footprint
import EthernetMac.Proofs.Solo

/-! The lock on the mask and the queue handles: who holds it, and when taking it cannot fail. -/

namespace EthernetMac

open Program

def Operation.takesLock : Operation → Bool
  | enterWorking | leaveWorking | register _ _ | enable _ | disable _ | deferred | wanted
  | describe => true
  | _ => false

structure LockUse where
  takes : Bool
  holds : Bool
  deriving DecidableEq

namespace LockUse

/-- Who does not hold the lock leaves alone what it guards, and nobody takes it twice. -/
def Permits (q : LockUse) : Effect → Prop
  | .acquire | .wanted | .armed _ => q.takes ∧ ¬ q.holds
  | .release | .mask | .setMask _ | .setQueue _ _ | .takeQueue _ => q.holds
  | .attach _ => False
  | _ => True

def after (q : LockUse) : (e : Effect) → e.Answer → LockUse
  | .acquire, _ => { q with holds := true }
  | .release, _ => { q with holds := false }
  | _, _ => q

end LockUse

def lockLaw : Law LockUse where
  idle := ⟨false, false⟩
  start op := ⟨op.takesLock, false⟩
  permits := LockUse.Permits
  after := LockUse.after
  ends q := ¬ q.holds

namespace lockLaw

@[simp] theorem idle_eq : lockLaw.idle = ⟨false, false⟩ := rfl

@[simp] theorem start_eq (op : Operation) : lockLaw.start op = ⟨op.takesLock, false⟩ := rfl

@[simp] theorem permits_eq : lockLaw.permits = LockUse.Permits := rfl

@[simp] theorem after_eq : lockLaw.after = LockUse.after := rfl

@[simp] theorem yields_eq (q : LockUse) : lockLaw.yields q ↔ True := .rfl

@[simp] theorem ends_eq (q : LockUse) : lockLaw.ends q ↔ q.holds = false := by
  simp [lockLaw]

def Unguarded : Effect → Prop
  | .acquire | .release | .wanted | .armed _ | .mask | .setMask _ | .setQueue _ _ | .takeQueue _
  | .attach _ => False
  | _ => True

theorem ignores_unguarded {q : LockUse} (e : Effect) (unguarded : Unguarded e) :
    lockLaw.Ignores q e := by
  cases e <;> first | exact unguarded.elim | exact ⟨trivial, fun _ => rfl⟩

theorem of_unguarded {q : LockUse} {α : Type} {p : Program α} {allowed : Effect → Prop}
    (only : p.Only allowed) (unguarded : ∀ e, allowed e → Unguarded e) :
    p.Obeys lockLaw (fun _ after => after = q) q :=
  .of_only only (fun e inside => ignores_unguarded e (unguarded e inside)) trivial

theorem of_mask {q : LockUse} (held : q.holds = true) {p : Program Unit} (only : p.Only maskActions) :
    p.Obeys lockLaw (fun _ after => after = q) q := by
  refine .of_only only (fun e inside => ?_) trivial
  cases e with
  | mask | setMask => exact ⟨held, fun _ => rfl⟩
  | store => exact ⟨trivial, fun _ => rfl⟩
  | _ => exact inside.elim

theorem notifyOnce {q : LockUse} (held : q.holds = true) (direction : Direction) :
    (Interrupt.notifyOnce direction).Obeys lockLaw (fun _ after => after = q) q := by
  unfold Interrupt.notifyOnce
  simp only [act, obeys_bind, obeys_perform, obeys_done]
  refine ⟨held, fun answer => ⟨by rintro ⟨⟩, ?_⟩⟩
  cases answer <;> simp [LockUse.Permits, LockUse.after]

theorem locked {p : Program Unit} {q : LockUse} (takes : q.takes = true) (idle : q.holds = false)
    (body : p.Obeys lockLaw (fun _ after => after = ⟨true, true⟩) ⟨true, true⟩) :
    (Program.locked p).Obeys lockLaw (fun _ after => after = q) q := by
  obtain ⟨_, _⟩ := q
  cases takes
  cases idle
  simp only [obeys_locked, act, obeys_perform, obeys_done]
  refine ⟨⟨rfl, by rintro ⟨⟩⟩, fun _ => ⟨by rintro ⟨⟩, body.reach fun _ => ?_⟩⟩
  exact ⟨rfl, fun _ => ⟨by rintro ⟨⟩, rfl⟩⟩

theorem register {q : LockUse} (takes : q.takes = true) (idle : q.holds = false)
    (direction : Direction) (queue : Option QueueHandle) :
    (Interrupt.register direction queue).Obeys lockLaw (fun _ after => after = q) q := by
  refine locked takes idle (Obeys.seq ⟨rfl, fun _ => ⟨nofun, rfl⟩⟩ fun _ => of_mask rfl ?_)
  exact .ite (Interrupt.addWanted_only _) (Interrupt.removeWanted_only _)

theorem enable {q : LockUse} (takes : q.takes = true) (idle : q.holds = false)
    (bits : InterruptMask) :
    (Interrupt.enable bits).Obeys lockLaw (fun _ after => after = q) q :=
  locked takes idle (of_mask rfl (Interrupt.addWanted_only bits))

theorem disable {q : LockUse} (takes : q.takes = true) (idle : q.holds = false)
    (bits : InterruptMask) :
    (Interrupt.disable bits).Obeys lockLaw (fun _ after => after = q) q :=
  locked takes idle (of_mask rfl (Interrupt.removeWanted_only bits))

theorem handle (q : LockUse) :
    Interrupt.handle.Obeys lockLaw (fun _ after => after = q) q := by
  refine of_unguarded Interrupt.handle_only ?_
  intro e inside
  cases e <;> trivial

theorem serveQueues {q : LockUse} (takes : q.takes = true) (idle : q.holds = false)
    (causes : Causes) :
    (Interrupt.serveQueues causes).Obeys lockLaw (fun _ after => after = q) q := by
  refine locked takes idle (Obeys.seq (of_mask rfl (Interrupt.removeWanted_only _)) fun _ => ?_)
  exact Obeys.seq (.onlyIf fun _ => notifyOnce rfl _) fun _ => .onlyIf fun _ => notifyOnce rfl _

theorem work {linkChange : Program Unit} {q : LockUse} (takes : q.takes = true)
    (idle : q.holds = false)
    (either : linkChange = act .linkChanged ∨ linkChange = discard refreshLink) :
    (Interrupt.work linkChange).Obeys lockLaw (fun _ after => after = q) q := by
  refine Obeys.seq ⟨trivial, fun _ => ⟨nofun, rfl⟩⟩ fun pending => ?_
  rw [obeys_ite]
  refine ⟨fun _ => rfl, fun _ => Obeys.seq ?_ fun _ => rfl⟩
  refine Interrupt.serve_obeys either (fun e inside => ?_) trivial
    (.onlyIf fun _ => serveQueues takes idle _)
  exact ignores_unguarded e (by cases e <;> trivial)

theorem task {op : Operation} (inService : op.InService) (target : Target) :
    (op.task target).Obeys lockLaw (fun _ => lockLaw.ends) (lockLaw.start op) := by
  have once {α : Type} {p : Program α} {answer : α → Answer} {q : LockUse} (idle : q.holds = false)
      (kept : p.Obeys lockLaw (fun _ after => after = q) q) :
      (Task.once p answer).Obeys lockLaw (fun _ => lockLaw.ends) q :=
    kept.seq fun _ => (ends_eq q).mpr idle
  have work := op.work inService target
  generalize op.task target = task at work
  by_cases coordinating : op.Coordinating
  · cases work with
    | nothing => exact (ends_eq _).mpr rfl
    | register direction queue => exact once rfl (register rfl rfl direction queue)
    | enable bits => exact once rfl (enable rfl rfl bits)
    | disable bits => exact once rfl (disable rfl rfl bits)
    | interrupt => exact once rfl (handle _)
    | deferred linkChange either =>
      refine (work rfl rfl either).seq fun round => ?_
      cases round <;> exact (ends_eq _).mpr rfl
    | wanted => exact once rfl ⟨⟨rfl, nofun⟩, fun _ => ⟨nofun, rfl⟩⟩
    | _ => exact coordinating.elim
  · refine (work.beside coordinating (fun e inside => ?_) trivial ?_ ?_).reach fun _ =>
      (ends_eq _).mpr rfl
    · cases e with
      | wanted | armed =>
        refine ⟨⟨?_, nofun⟩, fun _ => rfl⟩
        rcases inside with rfl | rfl | rfl <;> rfl
      | load | store | publishLink | setActive | active | fault => exact ⟨trivial, fun _ => rfl⟩
      | _ => exact inside.elim
    · rintro rfl
      exact enable rfl rfl _
    · rintro rfl
      exact disable rfl rfl _

theorem obeyed {admits : Machine → Step → Prop}
    (inService : ∀ m op, admits m (.operation op) → op.InService) (m : Machine) (op : Operation)
    (admitted : admits m (.operation op)) :
    (op.task m.station.target).Obeys lockLaw (fun _ => lockLaw.ends) (lockLaw.start op) :=
  task (inService m op admitted) m.station.target

end lockLaw

def Holding (history : History) (depth : Nat) : Prop := (lockLaw.state depth history).holds = true

/-- A law whose calls come from outside to inside by taking the lock only, and are outside again when
they release it, has the lock held by those inside. -/
theorem Law.outside_or_holding {σ : Type} {law : Law σ} (outside : σ → Prop)
    (idle : outside law.idle) (start : ∀ op, outside (law.start op))
    (release : ∀ q, outside (law.after q .release ()))
    (stays : ∀ q e answer, e ≠ .acquire → outside q → outside (law.after q e answer))
    (depth : Nat) (history : History) :
    outside (law.state depth history) ∨ Holding history depth := by
  change _ ∨ (lockLaw.state depth history).holds = true
  refine Law.state_related (fun (q : σ) (use : LockUse) => outside q ∨ use.holds = true)
    (.inl idle) (fun op => .inl (start op)) (fun q use e answer kept => ?_) depth history
  cases e with
  | acquire => exact .inr rfl
  | release => exact .inl (release q)
  | _ => exact kept.imp_left (stays q _ answer nofun)

section Holding

variable {history : History} {d depth : Nat}

theorem holding_surround {step : Step} (surrounds : ∀ op, step ≠ .operation op) :
    Holding (.begun d step :: history) depth ↔ Holding history depth := by
  unfold Holding
  rw [Law.state_surround surrounds]

@[simp] theorem holding_begun (op : Operation) :
    Holding (.begun d (.operation op) :: history) depth ↔ d ≠ depth ∧ Holding history depth := by
  by_cases here : d = depth <;> simp [Holding, here]

@[simp] theorem holding_acted (op : Operation) (e : Effect) (answer : e.Answer) :
    Holding (.acted d op e answer :: history) depth ↔
      if d = depth then ((lockLaw.state depth history).after e answer).holds = true
      else Holding history depth := by
  by_cases here : d = depth <;> simp [Holding, here]

@[simp] theorem holding_renewed (op : Operation) :
    Holding (.renewed d op :: history) depth ↔ d ≠ depth ∧ Holding history depth := by
  by_cases here : d = depth <;> simp [Holding, here]

@[simp] theorem holding_ended (op : Operation) (answer : Answer) :
    Holding (.ended d op answer :: history) depth ↔ d ≠ depth ∧ Holding history depth := by
  by_cases here : d = depth <;> simp [Holding, here]

theorem apart_of_not_holding (idle : ¬ Holding history d) :
    d ≠ depth ∧ Holding history depth ↔ Holding history depth :=
  and_iff_right_of_imp fun holds same => idle (same ▸ holds)

end Holding

def SingleHolder (lock : Borrow) (history : History) : Prop :=
  (lock = .free ∧ ∀ depth, ¬ Holding history depth) ∨
    lock = .exclusive ∧ ∃ holder, ∀ depth, Holding history depth ↔ depth = holder

namespace SingleHolder

variable {lock : Borrow} {earlier later : History}

theorem congr (single : SingleHolder lock earlier)
    (same : ∀ depth, Holding later depth ↔ Holding earlier depth) : SingleHolder lock later := by
  unfold SingleHolder at *
  simpa only [same] using single

theorem free_of_none (single : SingleHolder lock earlier) (none : ∀ depth, ¬ Holding earlier depth) :
    lock = .free := by
  rcases single with ⟨free, _⟩ | ⟨_, holder, only⟩
  · exact free
  · exact absurd ((only holder).mpr rfl) (none holder)

theorem holder_unique {depth other : Nat} (single : SingleHolder lock earlier)
    (holds : Holding earlier depth) (holdsToo : Holding earlier other) : other = depth := by
  rcases single with ⟨_, none⟩ | ⟨_, holder, only⟩
  · exact absurd holds (none depth)
  · exact ((only other).mp holdsToo).trans ((only depth).mp holds).symm

theorem none_of_free (single : SingleHolder .free earlier) (depth : Nat) : ¬ Holding earlier depth := by
  rcases single with ⟨_, none⟩ | ⟨held, _⟩
  · exact none depth
  · cases held

end SingleHolder

theorem takes_of_state {history : History} {depth : Nat}
    (takes : (lockLaw.state depth history).takes = true) :
    ∃ op, calls.state depth history = some op ∧ op.takesLock = true := by
  have same : (lockLaw.state depth history).takes =
      (calls.state depth history).any Operation.takesLock := by
    refine Law.state_related
      (fun (q : LockUse) (call : Option Operation) => q.takes = call.any Operation.takesLock)
      rfl (fun _ => rfl) ?_ depth history
    intro q call e answer same
    change _ = call.any Operation.takesLock
    rw [← same]
    cases e <;> rfl
  rw [same] at takes
  exact (Option.any_eq_true ..).mp takes

namespace Run

variable {admits : Machine → Step → Prop} {start m : Machine} {history : History}
  (resting : start.stack = [])
  (inService : ∀ m op, admits m (.operation op) → op.InService)

include resting inService

theorem single (free : start.station.interrupt.lock = .free) (run : Run admits start history m) :
    SingleHolder m.station.interrupt.lock history := by
  have obeyed := lockLaw.obeyed inService
  refine Run.account (P := fun history s => SingleHolder s.interrupt.lock history) ?initial ?blind
    ?surround ?operate ?act ?renew ?finish ?abort run
  case initial => exact .inl ⟨free, fun _ => nofun⟩
  case blind => exact fun _ kept => kept
  case surround =>
    intro history m step below run _ _ surrounds kept
    rw [Station.meet_interrupt]
    exact kept.congr fun depth => holding_surround surrounds
  case operate =>
    intro history m op below run _ awaits kept
    have opening := run.opening resting obeyed awaits
    have idle : ¬ Holding history m.stack.length := by
      simp [Holding, opening.idle]
    exact kept.congr fun depth => (holding_begun op).trans (apart_of_not_holding idle)
  case act =>
    intro history m op target e next below answer after run top applied kept
    have acting := run.acting resting obeyed top
    have stays (harmless : (e.interrupt m.station.interrupt).lock = m.station.interrupt.lock)
        (leaves : ((lockLaw.state below.length history).after e answer).holds =
          (lockLaw.state below.length history).holds) :
        SingleHolder after.interrupt.lock (.acted below.length op e answer :: history) := by
      rw [Station.apply_interrupt applied, harmless]
      refine kept.congr ?_
      intro depth
      by_cases here : below.length = depth
      · subst here
        simp [leaves, Holding]
      · simp [here]
    cases e with
    | acquire =>
      -- Nobody held the lock that could be taken, so its taker is the only holder.
      have free := Station.apply_acquire applied
      rw [free] at kept
      refine .inr ⟨by rw [Station.apply_interrupt applied]; rfl, below.length, fun depth => ?_⟩
      by_cases here : below.length = depth
      · simp [here, LockUse.after]
      · simp [here, kept.none_of_free depth, Ne.symm here]
    | release =>
      have holds : Holding history below.length := acting.permitted
      refine .inl ⟨by rw [Station.apply_interrupt applied]; rfl, fun depth holdsToo => ?_⟩
      by_cases here : below.length = depth
      · simp [here, LockUse.after] at holdsToo
      · exact here (kept.holder_unique holds (by simpa [here] using holdsToo)).symm
    | attach => exact acting.permitted.elim
    | _ => exact stays rfl rfl
  case renew =>
    intro history m op target below run top kept
    obtain ⟨_, ends⟩ := run.ending resting obeyed top
    have idle : ¬ Holding history below.length := ends
    exact kept.congr fun depth => (holding_renewed op).trans (apart_of_not_holding idle)
  case finish =>
    intro history m op target answer below run top kept
    obtain ⟨_, ends⟩ := run.ending resting obeyed top
    have idle : ¬ Holding history below.length := ends
    exact kept.congr fun depth => (holding_ended op answer).trans (apart_of_not_holding idle)
  case abort => exact fun _ _ _ _ => .inl ⟨rfl, fun _ => nofun⟩

/-- Nothing that wants the lock is nested inside a section that holds it. -/
theorem clear_above (free : start.station.interrupt.lock = .free)
    (polite : ∀ m op, admits m (.operation op) → op.takesLock = true →
      m.station.interrupt.lock = .free)
    (run : Run admits start history m) {holder depth : Nat} {op : Operation}
    (holds : Holding history holder) (above : holder < depth)
    (called : calls.state depth history = some op) : op.takesLock = false := by
  have obeyed := lockLaw.obeyed inService
  refine Run.account (P := fun history _ => ∀ holder depth op, Holding history holder →
    holder < depth → calls.state depth history = some op → op.takesLock = false)
    ?initial ?blind ?surround ?operate ?act ?renew ?finish ?abort run holder depth op holds above
    called
  case initial => exact nofun
  case blind => exact fun _ kept => kept
  case surround =>
    intro history m step below run _ _ surrounds kept holder depth op
    rw [holding_surround surrounds, Law.state_surround surrounds]
    exact kept holder depth op
  case operate =>
    intro history m op below run admitted awaits kept holder depth other holds above called
    have single := run.single resting inService free
    obtain ⟨_, holds⟩ := (holding_begun op).mp holds
    by_cases here : m.stack.length = depth
    · have same : op = other := by simpa [here] using called
      subst same
      refine Bool.eq_false_iff.mpr ?_
      intro takes
      -- It would have to find the lock free, with somebody holding it below.
      rw [polite m op admitted takes] at single
      exact single.none_of_free holder holds
    · exact kept holder depth other holds above (by simpa [here] using called)
  case act =>
    intro history m op target e next below answer after run top applied kept holder depth other
      holds above called
    have acting := run.acting resting obeyed top
    have called : calls.state depth history = some other := by simpa using called
    by_cases here : below.length = holder
    · have vacant := acting.vacant depth (here ▸ above)
      rw [vacant] at called
      cases called
    · exact kept holder depth other (by simpa [here] using holds) above called
  case renew =>
    intro history m op target below run top kept holder depth other holds above called
    obtain ⟨was, _⟩ := run.ending resting obeyed top
    obtain ⟨_, holds⟩ := (holding_renewed op).mp holds
    refine kept holder depth other holds above ?_
    by_cases here : below.length = depth
    · subst here
      simpa [was] using called
    · simpa [here] using called
  case finish =>
    intro history m op target answer below run top kept holder depth other holds above called
    obtain ⟨_, holds⟩ := (holding_ended op answer).mp holds
    by_cases here : below.length = depth
    · simp [here] at called
    · exact kept holder depth other holds above (by simpa [here] using called)
  case abort => exact fun _ _ _ _ _ _ _ => nofun

/-- Taking the lock does not fail when no operation that takes it begins while it is held. -/
theorem unblocked (free : start.station.interrupt.lock = .free)
    (polite : ∀ m op, admits m (.operation op) → op.takesLock = true →
      m.station.interrupt.lock = .free)
    (run : Run admits start history m) {op : Operation} {target : Target} {e : Effect}
    {next : e.Answer → Task} {below : List Frame}
    (top : m.stack = .running op target (.perform e next) :: below)
    (takes : e = .acquire ∨ e = .wanted ∨ ∃ direction, e = .armed direction) :
    m.station.interrupt.lock = .free := by
  have obeyed := lockLaw.obeyed inService
  have acting := run.acting resting obeyed top
  have permitted : (lockLaw.state below.length history).takes = true ∧
      ¬ Holding history below.length := by
    have permitted := acting.permitted
    rcases takes with rfl | rfl | ⟨direction, rfl⟩ <;> exact permitted
  obtain ⟨caller, called, takesLock⟩ := takes_of_state permitted.1
  refine (run.single resting inService free).free_of_none ?_
  intro holder holds
  rcases Nat.lt_trichotomy holder below.length with under | rfl | higher
  · rw [run.clear_above resting inService free polite holds under called] at takesLock
    cases takesLock
  · exact permitted.2 holds
  · unfold Holding at holds
    rw [acting.above holder higher] at holds
    cases holds

/-- Such runs stop only at faults of the operations themselves, and at the end of plain storage. -/
theorem own_fault (free : start.station.interrupt.lock = .free)
    (polite : ∀ m op, admits m (.operation op) → op.takesLock = true →
      m.station.interrupt.lock = .free)
    (run : Run admits start history m) {op : Operation} {target : Target} {e : Effect}
    {next : e.Answer → Task} {below : List Frame} {cause : Fault}
    (top : m.stack = .running op target (.perform e next) :: below)
    (applied : m.station.apply e = .error cause) :
    e = .fault cause ∨ start.station.registers.backing = .memory ∧ e.Outside := by
  rcases Station.apply_error applied with own | ⟨held, takes⟩ | ⟨memory, outside⟩
  · exact .inl own
  · exact absurd (run.unblocked resting inService free polite top takes) held
  · exact .inr ⟨run.backing.symm.trans memory, outside⟩

end Run

def Station.guarded {σ : Type} (s : Station) (view : InterruptState → σ) : Guarded σ :=
  ⟨view s.interrupt, s.interrupt.lock⟩

namespace Program

variable {σ α : Type} {view : InterruptState → σ} {p : Program α}
  {body : Guarded.Access σ α} {s after : Station} {value : α}

theorem run_locked_of_free (free : s.interrupt.lock = .free) :
    (locked p).run s = (.ok value, after) ↔
      ∃ last, p.run (s.mapInterrupt ({ · with lock := .exclusive })) = (.ok value, last) ∧
        after = last.unlocked := by
  have acquired : s.perform .acquire =
      .ok ((), s.mapInterrupt ({ · with lock := .exclusive })) := by
    rw [Station.perform_eq]
    simp only [Station.apply, free, Borrow.write?]
    rfl
  unfold locked act
  change (perform .acquire _).run s = _ ↔ _
  rw [run_performs acquired]
  change (p >>= _).run _ = _ ↔ _
  rw [run_bind_iff]
  constructor
  · rintro ⟨_, last, ran, rest⟩
    cases rest
    exact ⟨last, ran, rfl⟩
  · rintro ⟨last, ran, rfl⟩
    exact ⟨value, last, ran, rfl⟩

theorem run_locked_of_held (held : s.interrupt.lock ≠ .free) (p : Program α) :
    (locked p).run s = (.error .lockHeld, s) := by
  have refused : s.perform .acquire = .error .lockHeld := by
    rw [Station.perform_eq]
    cases lock : s.interrupt.lock with
    | free => exact absurd lock held
    | _ => simp [Station.apply, lock, Borrow.write?, Except.map]
  change (perform .acquire _).run s = _
  unfold Program.run
  rw [interpret, refused]

def Updates (view : InterruptState → σ) (p : Program α) (body : Guarded.Access σ α) : Prop :=
  ∀ s after value, p.run s = (.ok value, after) →
    body.run (s.guarded view) = (some value, after.guarded view)

/-- A section under the lock is a writing borrow: refused whenever the lock is held, and over with
the lock as it was. -/
theorem Updates.locked (updates : p.Updates view body)
    (blind : ∀ i lock, view { i with lock } = view i) (s : Station) :
    (s.interrupt.lock ≠ .free →
      (locked p).run s = (.error .lockHeld, s) ∧
        (Guarded.Access.writing body).run (s.guarded view) = (none, s.guarded view)) ∧
    ∀ value after, (locked p).run s = (.ok value, after) →
      (Guarded.Access.writing body).run (s.guarded view) = (some value, after.guarded view) := by
  constructor
  · intro held
    refine ⟨run_locked_of_held held p, Guarded.Access.run_holding_of_refused ?_ body⟩
    change s.interrupt.lock.write? = none
    cases lock : s.interrupt.lock with
    | free => exact absurd lock held
    | _ => rfl
  · intro value after ran
    have free : s.interrupt.lock = .free := by
      refine Decidable.byContradiction fun held => ?_
      rw [run_locked_of_held held] at ran
      cases ran
    obtain ⟨last, inside, rfl⟩ := (run_locked_of_free free).mp ran
    have granted : (s.guarded view).borrow.write? = some .exclusive := by
      change s.interrupt.lock.write? = _
      rw [free]
      rfl
    have stored := updates _ _ _ inside
    have entered : (s.mapInterrupt ({ · with lock := .exclusive })).guarded view =
        { s.guarded view with borrow := .exclusive } :=
      congrArg (Guarded.mk · Borrow.exclusive) (blind s.interrupt .exclusive)
    have left : last.unlocked.guarded view =
        { last.guarded view with borrow := (s.guarded view).borrow } := by
      change Guarded.mk _ Borrow.free = Guarded.mk _ s.interrupt.lock
      rw [free]
      exact congrArg (Guarded.mk · Borrow.free) (blind last.interrupt .free)
    rw [entered] at stored
    rw [Guarded.Access.writing, Guarded.Access.run_holding_of_granted granted, stored, left]

theorem run_wanted (s : Station) :
    (act .wanted).run s =
      match ((Guarded.Access.reading Guarded.Access.value).run (s.guarded (·.wanted))).1 with
      | some mask => (.ok mask, s)
      | none => (.error .lockHeld, s) := by
  cases granted : s.interrupt.lock.read? with
  | none =>
    rw [Guarded.Access.reading, Guarded.Access.run_holding_of_refused granted]
    simp [act, run, interpret, Station.perform_eq, Station.apply, granted, Except.map]
  | some held =>
    rw [Guarded.Access.reading, Guarded.Access.run_holding_of_granted granted]
    simp [act, run, interpret, Station.perform_eq, Station.apply, granted, Except.map, Effect.event?]
    rfl

theorem run_act_interrupt {e : Effect} {answer : e.Answer}
    (ran : (act e).run s = (.ok answer, after)) :
    after.interrupt = e.interrupt s.interrupt ∧ e.Reads s answer := by
  obtain ⟨applied, reply, rfl⟩ := Station.perform_iff.mp (run_act_iff.mp ran)
  have kept := Station.apply_interrupt reply
  exact ⟨kept, Station.apply_reads reply⟩

theorem run_changeMask_interrupt {new : InterruptMask} {done : Unit}
    (ran : (Interrupt.changeMask new).run s = (.ok done, after)) :
    after.interrupt = { s.interrupt with wanted := new } := by
  obtain ⟨old, mid, read, changed⟩ := run_bind_iff.mp ran
  obtain ⟨kept, seen⟩ := run_act_interrupt read
  change old = s.interrupt.wanted at seen
  by_cases same : old = new
  · have still : (old != new) = false := bne_eq_false_iff_eq.mpr same
    rw [still] at changed
    cases changed
    rw [kept, ← same, seen]
    rfl
  · have differs : (old != new) = true := bne_iff_ne.mpr same
    rw [differs] at changed
    obtain ⟨_, set, setting, writes⟩ := run_bind_iff.mp changed
    obtain ⟨_, half, first, second⟩ := run_bind_iff.mp writes
    rw [(run_act_interrupt second).1]
    change half.interrupt = _
    rw [(run_act_interrupt first).1]
    change set.interrupt = _
    rw [(run_act_interrupt setting).1, kept]
    rfl

theorem changeMask_updates (f : InterruptMask → InterruptMask) :
    (act .mask >>= fun mask => Interrupt.changeMask (f mask)).Updates (·.wanted)
      (do Guarded.Access.store (f (← Guarded.Access.value))) := by
  intro s after value ran
  obtain ⟨mask, mid, read, changed⟩ := run_bind_iff.mp ran
  obtain ⟨kept, seen⟩ := run_act_interrupt read
  change mask = s.interrupt.wanted at seen
  change (some (), Guarded.mk (f s.interrupt.wanted) s.interrupt.lock) =
    (some value, Guarded.mk after.interrupt.wanted after.interrupt.lock)
  rw [run_changeMask_interrupt changed, kept, seen]
  rfl

end Program

end EthernetMac
