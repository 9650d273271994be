import EthernetMac.Proofs.Link.Soundness

namespace EthernetMac

/-- A prepared device and its surroundings. The serialized operations are not nested in each other,
what needs the lock begins only while it is free, a change of the link comes with the link cause,
and the rest of the link is left to the device. -/
def LinkState.Admits (m : Machine) : Step → Prop
  | .set offset value =>
    offset ≠ Register.macConfiguration ∧
      (offset = Register.macInterruptStatus → Cause.link.Latched m.station.registers →
        MacInterruptStatus.linkStatus.test value = true) ∧
      (offset = Register.macPhyStatus → Cause.link.Latched m.station.registers ∨
        LinkState.ofStatus value =
          .ofStatus (m.station.registers.cell Register.macPhyStatus))
  | .operation op =>
    linkLaw.Leaves op ∧ (∃ adapter, m.station.target = .device adapter) ∧
      (op.takesLock = true → m.station.interrupt.lock = .free) ∧
      (op.serialized = true → ∀ frame ∈ m.stack, ∀ other, frame.operation? = some other →
        other.serialized = false)
  | _ => True

/-- No serialized operation failed inside an interrupt handler and took the handler with it. Where
they never begin inside a handler, none can. -/
def HandlersFinished (history : History) : Prop :=
  ∀ later cause earlier, history = later ++ .faulted cause :: earlier →
    ∀ outer inner op, outer < inner → calls.state inner earlier = some op → op.serialized = true →
      calls.state outer earlier ≠ some .interrupt

theorem HandlersFinished.earlier {entry : Entry} {history : History}
    (finished : HandlersFinished (entry :: history)) : HandlersFinished history := by
  rintro later cause earlier rfl
  exact finished (entry :: later) cause earlier rfl

theorem HandlersFinished.of_all {history : History}
    (faultless : history.all (fun | .faulted _ => false | _ => true) = true) :
    HandlersFinished history := by
  rintro later cause earlier rfl
  simp at faultless

namespace LinkDuty

def Fits : LinkDuty → Option Operation → Prop
  | none, call => ∀ op, call = some op → op.serialized = false
  | handling _, call => call = some .interrupt
  | serial _ _, call => ∃ op, call = some op ∧ op.serialized = true

theorem begin_fits (op : Operation) : (begin op).Fits (some op) := by
  cases op with
  | interrupt => rfl
  | enterWorking | leaveWorking | deferred => exact ⟨_, rfl, rfl⟩
  | _ =>
    intro _ same
    cases same
    rfl

theorem after_fits {q : LinkDuty} {call : Option Operation} (fits : q.Fits call) (e : Effect)
    (answer : e.Answer) : (q.after e answer).Fits call := by
  cases q with
  | none => cases e <;> exact fits
  | handling held =>
    cases e with
    | load offset =>
      unfold after loaded
      dsimp only
      split <;> exact fits
    | _ => exact fits
  | serial due phase =>
    cases e with
    | load offset =>
      unfold after loaded
      dsimp only
      split
      · exact fits
      · split
        · cases phase <;> exact fits
        · exact fits
    | store offset value =>
      unfold after stored
      dsimp only
      split
      · cases phase <;> exact fits
      · exact fits
    | _ => exact fits

end LinkDuty

theorem linkLaw.fits (depth : Nat) (history : History) :
    (linkLaw.state depth history).Fits (calls.state depth history) :=
  Law.state_related LinkDuty.Fits (by rintro _ ⟨⟩) LinkDuty.begin_fits
    (fun _ _ e answer fits => LinkDuty.after_fits fits e answer) depth history

theorem LinkDuty.begin_done (op : Operation) : (LinkDuty.begin op).Done := by
  cases op with
  | interrupt => exact .inr (.inl rfl)
  | enterWorking | leaveWorking | deferred => exact .inr (.inr rfl)
  | _ => exact .inl rfl

theorem LinkSound.quiet (s : Station) : LinkSound (fun _ => .none) s none where
  single _ _ _ _ _ _ here := nomatch here
  current _ _ _ _ here := nomatch here
  known _ _ _ _ here := nomatch here
  fresh _ shown := nomatch shown
  configured _ shown := nomatch shown

/-- A fault of the only serialized call, with nothing due and no handler in progress, ends all
calls and forgets nothing. -/
theorem LinkSound.collapse {duty : Nat → LinkDuty} {s : Station} {last : Option LinkState} {n : Nat}
    (sound : LinkSound duty s last) (here : duty n = .serial false .still)
    (unheld : ∀ d, duty d ≠ .handling true) : LinkSound (fun _ => .none) s last := by
  have signalled (signal : LinkSignalled duty s) : LinkSignalled (fun _ => .none) s := by
    rcases signal with latched | inside | ⟨d, holds⟩ | ⟨d, phase, owes⟩
    · exact .latched latched
    · exact .pending inside
    · exact absurd holds (unheld d)
    · have same := sound.single d n _ _ _ _ owes here
      subst same
      rw [here] at owes
      cases owes
  have none := LinkSound.quiet s
  refine ⟨none.single, none.current, none.known, fun p shown => ?_, fun p shown => ?_⟩
  · rcases sound.fresh_at here shown with signal | read | current
    · exact .inl (signalled signal)
    · cases read
    · exact .inr (.inr current)
  · rcases sound.configured_at here shown with (busy | busy) | kept
    · cases busy
    · cases busy
    · exact .inr kept

theorem LinkDuty.serialized_of_begin {op : Operation} {due : Bool} {phase : LinkPhase}
    (begins : LinkDuty.begin op = .serial due phase) : op.serialized = true := by
  cases op <;> first | rfl | cases begins

theorem linkLaw.serial_of_begin {history : History} {depth : Nat} {op : Operation} {due : Bool}
    {phase : LinkPhase} (called : calls.state depth history = some op)
    (begins : LinkDuty.begin op = .serial due phase) :
    ∃ due phase, linkLaw.state depth history = .serial due phase := by
  have fits := linkLaw.fits depth history
  rw [called] at fits
  cases state : linkLaw.state depth history with
  | none =>
    rw [state] at fits
    have apart := fits op rfl
    rw [LinkDuty.serialized_of_begin begins] at apart
    cases apart
  | handling held =>
    rw [state] at fits
    cases fits
    cases begins
  | serial due phase => exact ⟨due, phase, rfl⟩

theorem LinkSound.meet {duty : Nat → LinkDuty} {last : Option LinkState} {m : Machine} {step : Step}
    (sound : LinkSound duty m.station last) (admitted : LinkState.Admits m step)
    (surrounds : ∀ op, step ≠ .operation op) : LinkSound duty (m.station.meet step) last := by
  cases step with
  | set offset value =>
    obtain ⟨config, latch, status⟩ := admitted
    refine sound.surround (fun latched => ?_) id ?_
      (RegisterFile.cell_set_of_ne _ _ (Ne.symm config))
    · by_cases cause : offset = Register.macInterruptStatus
      · subst cause
        unfold Cause.Latched
        change ((m.station.registers.set _ _).cell Register.macInterruptStatus).getLsbD _ = true
        rw [RegisterFile.cell_set_self]
        exact latch rfl latched
      · exact (Cause.latched_set_of_ne _ (Ne.symm cause)).mpr latched
    · by_cases phy : offset = Register.macPhyStatus
      · subst phy
        refine (status rfl).imp_right ?_
        intro same
        rw [← same]
        exact congrArg _ (RegisterFile.cell_set_self _ _ _)
      · exact .inr (congrArg _ (RegisterFile.cell_set_of_ne _ _ (Ne.symm phy)))
  | raiseLink =>
    refine sound.surround (fun latched => (Cause.latched_meet (by rintro _ _ ⟨⟩)).mpr (.inl latched)) id
      (.inr (congrArg _ ?_)) ?_ <;> exact RegisterFile.cell_set_of_ne _ _ (by decide)
  | raiseChannel bits =>
    refine sound.surround (fun latched => (Cause.latched_meet (by rintro _ _ ⟨⟩)).mpr (.inl latched)) id
      (.inr (congrArg _ ?_)) ?_ <;> exact RegisterFile.cell_set_of_ne _ _ (by decide)
  | operation op => exact absurd rfl (surrounds op)
  | get | busy | host | hook => exact sound.surround id id (.inr rfl) rfl

namespace Run

variable {start m : Machine} {history : History}

theorem link_obeyed (m : Machine) (op : Operation) (admitted : LinkState.Admits m (.operation op)) :
    (op.task m.station.target).Obeys linkLaw (fun _ => linkLaw.ends) (linkLaw.start op) := by
  obtain ⟨leaves, ⟨adapter, target⟩, _⟩ := admitted
  rw [target]
  exact linkLaw.task leaves adapter

theorem link_inService (m : Machine) (op : Operation)
    (admitted : LinkState.Admits m (.operation op)) : op.InService := by
  have leaves := admitted.1
  cases op <;> trivial

variable (resting : start.stack = []) (free : start.station.interrupt.lock = .free)
  (device : start.station.registers.backing = .device) (run : Run LinkState.Admits start history m)

include resting run

theorem link_operate {op : Operation} {below : List Frame}
    (admitted : LinkState.Admits m (.operation op)) (awaits : Awaits (.operation op) m.stack below)
    (sound : LinkSound (linkLaw.state · history) m.station (published history)) :
    LinkSound (linkLaw.state · (.begun m.stack.length (.operation op) :: history)) m.station
      (published history) := by
  have opening := run.opening resting link_obeyed awaits
  have here : linkLaw.state m.stack.length (.begun m.stack.length (.operation op) :: history) =
      .begin op := by simp
  refine sound.turn (n := m.stack.length) (fun d other => ?_) ?_ ?_ fun due phase begins => ?_
  · simp [Ne.symm other]
  · rw [opening.idle]
    exact .inl rfl
  · rw [here]
    exact LinkDuty.begin_done op
  · intro d other otherPhase _ busy
    have serialized : op.serialized = true := by
      rw [here] at begins
      exact LinkDuty.serialized_of_begin begins
    have fits := linkLaw.fits d history
    rw [busy] at fits
    obtain ⟨caller, called, alsoSerialized⟩ := fits
    obtain ⟨frame, member, runs⟩ := run.in_stack resting link_obeyed called
    rw [admitted.2.2.2 serialized frame member caller runs] at alsoSerialized
    cases alsoSerialized

theorem link_renew {op : Operation} {target : Target} {below : List Frame}
    (top : m.stack = .running op target (.done .again) :: below)
    (sound : LinkSound (linkLaw.state · history) m.station (published history)) :
    LinkSound (linkLaw.state · (.renewed below.length op :: history)) m.station
      (published history) := by
  obtain ⟨called, ends⟩ := run.ending resting link_obeyed top
  have here : linkLaw.state below.length (.renewed below.length op :: history) = .begin op := by
    simp
  refine sound.turn (n := below.length) (fun d other => ?_) ends ?_ fun due phase begins => ?_
  · simp [Ne.symm other]
  · rw [here]
    exact LinkDuty.begin_done op
  · intro d other otherPhase apart busy
    rw [here] at begins
    obtain ⟨wasDue, was, before⟩ := linkLaw.serial_of_begin called begins
    exact apart (sound.single d below.length _ _ _ _ busy before)

theorem link_finish {op : Operation} {target : Target} {answer : Answer} {below : List Frame}
    (top : m.stack = .running op target (.done (.finished answer)) :: below)
    (sound : LinkSound (linkLaw.state · history) m.station (published history)) :
    LinkSound (linkLaw.state · (.ended below.length op answer :: history)) m.station
      (published history) := by
  obtain ⟨_, ends⟩ := run.ending resting link_obeyed top
  have here : linkLaw.state below.length (.ended below.length op answer :: history) = .none := by
    simp
  refine sound.turn (n := below.length) (fun d other => ?_) ends ?_ fun due phase begins => ?_
  · simp [Ne.symm other]
  · rw [here]
    exact .inl rfl
  · rw [here] at begins
    cases begins

include free device

/-- A serialized operation that fails on its way out is the only one, and no handler that holds the
link cause goes down with it. -/
theorem link_abort {op : Operation} {target : Target} {e : Effect} {next : e.Answer → Task}
    {below : List Frame} {cause : Fault} (finished : HandlersFinished (.faulted cause :: history))
    (top : m.stack = .running op target (.perform e next) :: below)
    (applied : m.station.apply e = .error cause)
    (sound : LinkSound (linkLaw.state · history) m.station (published history)) :
    LinkSound (linkLaw.state · (.faulted cause :: history)) m.station.unlocked
      (published history) := by
  have acting := run.acting resting link_obeyed top
  obtain rfl : e = .fault cause := by
    rcases run.own_fault resting link_inService free
      (fun _ _ admitted => admitted.2.2.1) top applied with own | ⟨memory, _⟩
    · exact own
    · rw [device] at memory
      cases memory
  refine LinkSound.surround (LinkSound.collapse sound acting.permitted ?_) id id (.inr rfl) rfl
  intro d holds
  -- What fails is a serialized call, so a handler that holds the cause is below it.
  have called : calls.state d history = some .interrupt := by
    have fits := linkLaw.fits d history
    rw [holds] at fits
    exact fits
  have fails := linkLaw.fits below.length history
  rw [show linkLaw.state below.length history = .serial false .still from acting.permitted] at fails
  obtain ⟨caller, calling, serialized⟩ := fails
  rcases Nat.lt_trichotomy d below.length with under | rfl | higher
  · exact finished [] cause history rfl d below.length caller under calling serialized called
  · rw [called] at calling
    cases calling
    cases serialized
  · rw [acting.vacant d higher] at called
    cases called

theorem link_sound (finished : HandlersFinished history) :
    LinkSound (linkLaw.state · history) m.station (published history) := by
  refine Run.account (P := fun history s => HandlersFinished history →
    LinkSound (linkLaw.state · history) s (published history)) ?initial ?blind ?surround ?operate
    ?act ?renew ?finish ?abort run finished
  case initial => exact fun _ => .quiet start.station
  case blind =>
    intro history s trace kept finished
    exact (kept finished).surround id id (.inr rfl) rfl
  case surround =>
    intro history m step below run admitted _ surrounds kept finished
    have same : (linkLaw.state · (.begun m.stack.length step :: history)) =
        (linkLaw.state · history) := funext fun d => Law.state_surround surrounds
    rw [same]
    exact LinkSound.meet (kept finished.earlier) admitted surrounds
  case operate =>
    intro history m op below run admitted awaits kept finished
    exact run.link_operate resting admitted awaits (kept finished.earlier)
  case act =>
    intro history m op target e next below answer after run top applied kept finished
    have acting := run.acting resting link_obeyed top
    exact (kept finished.earlier).act (run.backing.trans device) applied acting.permitted
  case renew =>
    intro history m op target below run top kept finished
    exact run.link_renew resting top (kept finished.earlier)
  case finish =>
    intro history m op target answer below run top kept finished
    exact run.link_finish resting top (kept finished.earlier)
  case abort =>
    intro history m op target e next below cause run top applied kept finished
    exact run.link_abort resting free device finished top applied (kept finished.earlier)

/-- Between the operations, after at least one refresh: without a link cause at the hardware or in
the pending word the published state is that of the interface status, and in any case the
configuration has its duplex and its speed. -/
theorem link_fresh (finished : HandlersFinished history) (idle : m.stack = []) {p : LinkState}
    (shown : published history = some p) :
    (¬ Cause.link.Latched m.station.registers →
      ¬ Cause.link.In m.station.interrupt.pending.word →
      p = .ofStatus (m.station.registers.cell Register.macPhyStatus)) ∧
      p.Configured (m.station.registers.cell Register.macConfiguration) := by
  have sound := run.link_sound resting free device finished
  obtain ⟨_, empty⟩ := run.governs resting link_obeyed
  have none : (linkLaw.state · history) = fun _ => .none :=
    funext fun d => (empty d (by simp [idle])).1
  rw [none] at sound
  constructor
  · intro unlatched unmerged
    rcases sound.fresh p shown with signal | ⟨d, _, _, here, _⟩ | current
    · rcases signal with latched | inside | ⟨d, holds⟩ | ⟨d, _, owes⟩
      · exact absurd latched unlatched
      · exact absurd inside unmerged
      · cases holds
      · cases owes
    · cases here
    · exact current
  · rcases sound.configured p shown with ⟨d, _, _, here, _⟩ | kept
    · cases here
    · exact kept

end Run

def linkPending : Machine where
  station :=
    { registers := { cell := fun offset => if offset = Register.macPhyStatus then 0xD0000 else 0 }
      target := .device ⟨0, ⟨0, 0, 0, 0, 0⟩, .ofWidth .bits32, .zero, .zero⟩
      interrupt := { pending := ⟨linkCause⟩ } }

theorem Run.link_fresh_linkPending :
    let m := Machine.advanceFor 20 (linkPending.begin (.operation .deferred))
    let p : LinkState := ⟨true, .full, .mbps1000, .complete⟩
    (¬ Cause.link.Latched m.station.registers → ¬ Cause.link.In m.station.interrupt.pending.word →
        p = .ofStatus (m.station.registers.cell Register.macPhyStatus)) ∧
      p.Configured (m.station.registers.cell Register.macConfiguration) := by
  have begun : Run LinkState.Admits linkPending _ (linkPending.begin (.operation .deferred)) :=
    Run.refl.begin rfl ⟨trivial, ⟨_, rfl⟩, fun _ => rfl, fun _ => List.forall_mem_nil _⟩
  have finish := begun.advances 20 ⟨rfl, by rintro _ (_ | ⟨_, ⟨⟩⟩) _ ⟨⟩⟩
  exact finish.link_fresh rfl rfl rfl (.of_all (by rfl)) rfl rfl

end EthernetMac
