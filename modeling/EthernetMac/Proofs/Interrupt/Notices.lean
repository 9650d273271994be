import EthernetMac.Proofs.Interrupt.Marks

/-! A registration is notified at most once, and by the worker that serves its direction, if no fault
unwinds that worker before. -/

namespace EthernetMac

/-- The worker at `depth` takes the lock, handed a cause of `direction` and with `queue` registered. -/
inductive Enters (direction : Direction) (queue : QueueHandle) (depth : Nat) : History → Prop where
  | acquire {earlier : History} {word : Word} (handed : drains.state depth earlier = some word)
      (cause : (Causes.ofWord word).has direction = true)
      (stands : standing (marks direction earlier) = some queue) :
      Enters direction queue depth (.acted depth .deferred .acquire () :: earlier)

def StaysOpen (depth : Nat) : Entry → Prop
  | .acted d _ .release _ => d ≠ depth
  | .faulted _ => False
  | _ => True

/-- How a section deals with a registration that it found: it notifies it, unless a fault unwinds it
before. -/
inductive Settled (direction : Direction) (queue : QueueHandle) (depth : Nat) (entered : History) :
    History → Prop where
  | notified (newer : History) {older : History} (stays : ∀ entry ∈ older, StaysOpen depth entry)
      (marked : marks direction (.acted depth .deferred (.notify queue) () :: (older ++ entered)) =
        .notified queue :: marks direction entered) :
      Settled direction queue depth entered
        (newer ++ .acted depth .deferred (.notify queue) () :: older)
  | unwound (newer : History) {older : History} {cause : Fault}
      (stays : ∀ entry ∈ older, StaysOpen depth entry)
      (unmarked : marks direction (older ++ entered) = marks direction entered) :
      Settled direction queue depth entered (newer ++ .faulted cause :: older)

structure Waiting (direction : Direction) (queue : QueueHandle) (depth : Nat)
    (entered later : History) (s : Station) : Prop where
  stays : ∀ entry ∈ later, StaysOpen depth entry
  unmarked : marks direction (later ++ entered) = marks direction entered
  called : calls.state depth (later ++ entered) = some .deferred
  turn : (∃ turns, (turnLaw.state depth (later ++ entered)).left = some turns ∧ direction ∈ turns ∧
      s.interrupt.queue direction = some queue) ∨
    dueAt depth (later ++ entered) = some (direction, queue)

section Waiting

variable {direction : Direction} {queue : QueueHandle} {depth : Nat} {entered later : History}
  {s after : Station} {entry : Entry}

theorem Settled.cons (settled : Settled direction queue depth entered later) :
    Settled direction queue depth entered (entry :: later) := by
  cases settled with
  | notified newer stays marked => exact .notified (entry :: newer) stays marked
  | unwound newer stays unmarked => exact .unwound (entry :: newer) stays unmarked

namespace Waiting

theorem busy (waiting : Waiting direction queue depth entered later s) :
    (turnLaw.state depth (later ++ entered)).left ≠ none ∨ dueAt depth (later ++ entered) ≠ none := by
  rcases waiting.turn with ⟨turns, left, _⟩ | due
  · exact .inl (Option.ne_none_iff_exists'.mpr ⟨turns, left⟩)
  · exact .inr (Option.ne_none_iff_exists'.mpr ⟨_, due⟩)

theorem holds (waiting : Waiting direction queue depth entered later s) :
    Holding (later ++ entered) depth :=
  turnLaw.holding_of_busy waiting.busy

theorem apart (waiting : Waiting direction queue depth entered later s) {n : Nat}
    (left : (turnLaw.state n (later ++ entered)).left = none)
    (due : dueAt n (later ++ entered) = none) : n ≠ depth := by
  intro same
  subst same
  rcases waiting.busy with busy | busy
  · exact busy left
  · exact busy due

theorem onward (waiting : Waiting direction queue depth entered later s)
    (stays : StaysOpen depth entry)
    (unmarked : marks direction (entry :: (later ++ entered)) = marks direction (later ++ entered))
    (called : calls.state depth (entry :: (later ++ entered)) =
      calls.state depth (later ++ entered))
    (left : (turnLaw.state depth (entry :: (later ++ entered))).left =
      (turnLaw.state depth (later ++ entered)).left)
    (due : dueAt depth (entry :: (later ++ entered)) = dueAt depth (later ++ entered))
    (queues : after.interrupt.queue direction = s.interrupt.queue direction) :
    Waiting direction queue depth entered (entry :: later) after where
  stays := List.forall_mem_cons.mpr ⟨stays, waiting.stays⟩
  unmarked := unmarked.trans waiting.unmarked
  called := called.trans waiting.called
  turn := by
    rw [List.cons_append, left, due, queues]
    exact waiting.turn

variable {n : Nat} {op : Operation} {e : Effect} {answer : e.Answer}

/-- Other calls cannot touch the registration meanwhile. -/
theorem act_of_ne (waiting : Waiting direction queue depth entered later s)
    (single : SingleHolder s.interrupt.lock (later ++ entered)) (other : n ≠ depth)
    (permitted : (turnLaw.state n (later ++ entered)).Permits e)
    (guarded : (lockLaw.state n (later ++ entered)).Permits e)
    (applied : s.apply e = .ok (answer, after)) :
    Waiting direction queue depth entered (.acted n op e answer :: later) after := by
  have free : ¬ Holding (later ++ entered) n := fun holds =>
    other (single.holder_unique waiting.holds holds)
  have kept (stays : StaysOpen depth (.acted n op e answer))
      (unmarked : marks direction (.acted n op e answer :: (later ++ entered)) =
        marks direction (later ++ entered))
      (queues : (e.interrupt s.interrupt).queue = s.interrupt.queue) :
      Waiting direction queue depth entered (.acted n op e answer :: later) after := by
    refine waiting.onward stays unmarked ?_ ?_ ?_ ?_
    · simp
    · simp [other]
    · simp [dueAt, other]
    · rw [Station.apply_interrupt applied, queues]
  cases e with
  | setQueue | takeQueue | release => exact absurd guarded free
  | notify =>
    obtain ⟨_, due⟩ := permitted
    exact absurd (Noticed.holding_of_due due) free
  | attach => exact permitted.elim
  | _ => exact kept trivial rfl rfl

theorem takeQueue {d : Direction} {answer : Option QueueHandle}
    (waiting : Waiting direction queue depth entered later s)
    (permitted : (turnLaw.state depth (later ++ entered)).Permits (.takeQueue d))
    (applied : s.apply (.takeQueue d) = .ok (answer, after)) :
    Waiting direction queue depth entered (.acted depth .deferred (.takeQueue d) answer :: later)
      after := by
  obtain ⟨idle, rest, left⟩ := permitted
  have found : answer = s.interrupt.queue d := Station.apply_reads applied
  rcases waiting.turn with ⟨turns, same, member, placed⟩ | due
  · rw [left] at same
    cases same
    refine ⟨List.forall_mem_cons.mpr ⟨trivial, waiting.stays⟩, waiting.unmarked, ?_, ?_⟩
    · simpa using waiting.called
    · by_cases turn : direction = d
      · subst turn
        right
        simp [dueAt, TurnState.after, left, found, placed]
      · left
        refine ⟨rest, by simp [TurnState.after, left], by simpa [turn] using member, ?_⟩
        rw [Station.apply_interrupt applied]
        simpa [Effect.interrupt, InterruptState.setQueue, turn] using placed
  · rw [dueAt, idle] at due
    cases due

theorem notify {other : QueueHandle} {answer : Unit}
    (waiting : Waiting direction queue depth entered later s)
    (noticed : Noticed (later ++ entered) s)
    (permitted : (turnLaw.state depth (later ++ entered)).Permits (.notify other))
    (applied : s.apply (.notify other) = .ok (answer, after)) :
    Waiting direction queue depth entered (.acted depth .deferred (.notify other) answer :: later)
      after ∨
    Settled direction queue depth entered (.acted depth .deferred (.notify other) answer :: later) := by
  obtain ⟨d, due⟩ := permitted
  have taken := noticed.taken depth d other due
  have marked (direction : Direction) :
      marks direction (.acted depth .deferred (.notify other) answer :: (later ++ entered)) =
        if d = direction then .notified other :: marks direction (later ++ entered)
        else marks direction (later ++ entered) := by
    simp [marks, turnLaw.takes_of_due due]
  rcases waiting.turn with ⟨turns, left, member, placed⟩ | own
  · have another : d ≠ direction := by
      intro same
      subst same
      rw [taken] at placed
      cases placed
    refine .inl ⟨List.forall_mem_cons.mpr ⟨trivial, waiting.stays⟩, ?_, ?_, .inl ?_⟩
    · rw [List.cons_append, marked, if_neg another]
      exact waiting.unmarked
    · simpa using waiting.called
    · refine ⟨turns, by simp [TurnState.after, left], member, ?_⟩
      rw [Station.apply_interrupt applied]
      exact placed
  · rw [dueAt, due] at own
    cases own
    refine .inr (.notified [] waiting.stays ?_)
    rw [marked, if_pos rfl, waiting.unmarked]

theorem act_of_eq (waiting : Waiting direction queue depth entered later s)
    (noticed : Noticed (later ++ entered) s)
    (permitted : (turnLaw.state depth (later ++ entered)).Permits e)
    (applied : s.apply e = .ok (answer, after)) :
    Waiting direction queue depth entered (.acted depth .deferred e answer :: later) after ∨
      Settled direction queue depth entered (.acted depth .deferred e answer :: later) := by
  have kept (stays : StaysOpen depth (.acted depth .deferred e answer))
      (unmarked : marks direction (.acted depth .deferred e answer :: (later ++ entered)) =
        marks direction (later ++ entered))
      (left : ((turnLaw.state depth (later ++ entered)).after e answer).left =
        (turnLaw.state depth (later ++ entered)).left)
      (due : ((turnLaw.state depth (later ++ entered)).after e answer).due =
        dueAt depth (later ++ entered))
      (queues : (e.interrupt s.interrupt).queue direction = s.interrupt.queue direction) :
      Waiting direction queue depth entered (.acted depth .deferred e answer :: later) after := by
    refine waiting.onward stays unmarked ?_ ?_ ?_ ?_
    · simp
    · simp [left]
    · simp [dueAt, due]
    · rw [Station.apply_interrupt applied, queues]
  cases e with
  | acquire =>
    exact absurd rfl (waiting.apart permitted.2.1 permitted.1)
  | release =>
    obtain ⟨idle, served⟩ := permitted
    rcases waiting.turn with ⟨turns, left, member, _⟩ | due
    · rw [left] at served
      cases served
      cases member
    · rw [dueAt, idle] at due
      cases due
  | setQueue d other =>
    obtain ⟨_, called, _⟩ := permitted
    rw [turnLaw.call_eq, waiting.called] at called
    cases called
  | attach => exact permitted.elim
  | takeQueue d =>
    exact .inl (waiting.takeQueue permitted applied)
  | notify other =>
    exact waiting.notify noticed permitted applied
  | _ => exact .inl (kept trivial rfl rfl rfl rfl)

theorem enter {answer : Unit} (noticed : Noticed later s)
    (single : SingleHolder s.interrupt.lock later)
    (owed : direction ∈ (turnLaw.state depth later).owed)
    (stands : standing (marks direction later) = some queue)
    (called : calls.state depth later = some .deferred)
    (applied : s.apply .acquire = .ok (answer, after)) :
    Waiting direction queue depth (.acted depth .deferred .acquire () :: later) [] after where
  stays := List.forall_mem_nil _
  unmarked := rfl
  called := by simpa using called
  turn := by
    left
    refine ⟨(turnLaw.state depth later).owed, by simp [TurnState.after], owed, ?_⟩
    rw [Station.apply_interrupt applied]
    rcases (noticed.stands direction queue).mp stands with placed | ⟨other, due⟩
    · exact placed
    · rw [Station.apply_acquire applied] at single
      exact absurd (Noticed.holding_of_due due) (single.none_of_free other)

end Waiting

end Waiting

def Mark.Admits (m : Machine) : Step → Prop
  | .operation op => op.InService ∧ m.station.target ≠ .noDevice
  | _ => True

def Attended (history : History) (s : Station) : Prop :=
  ∀ later entered direction queue depth, history = later ++ entered →
    Enters direction queue depth entered →
      Waiting direction queue depth entered later s ∨ Settled direction queue depth entered later

theorem Attended.onward {history : History} {s after : Station} {entry : Entry}
    (attended : Attended history s)
    (enter : ∀ direction queue depth, Enters direction queue depth (entry :: history) →
      Waiting direction queue depth (entry :: history) [] after)
    (onward : ∀ later entered direction queue depth, history = later ++ entered →
      Waiting direction queue depth entered later s →
        Waiting direction queue depth entered (entry :: later) after ∨
          Settled direction queue depth entered (entry :: later)) :
    Attended (entry :: history) after := by
  intro later entered direction queue depth whole enters
  cases later with
  | nil =>
    rw [List.nil_append] at whole
    subst whole
    exact .inl (enter direction queue depth enters)
  | cons first later =>
    obtain ⟨rfl, rest⟩ := List.cons.inj whole
    rcases attended later entered direction queue depth rest enters with waiting | settled
    · exact onward later entered direction queue depth rest waiting
    · exact .inr settled.cons

theorem Noticed.turn {history : History} {s : Station} {entry : Entry} {n : Nat}
    (noticed : Noticed history s) (attended : Attended history s)
    (silent : ∀ depth, depth ≠ n → Law.SilentAt depth entry)
    (unmarked : ∀ direction, marks direction (entry :: history) = marks direction history)
    (stays : ∀ depth, StaysOpen depth entry)
    (enters : ∀ direction queue depth, ¬ Enters direction queue depth (entry :: history))
    (left : (turnLaw.state n history).left = none) (due : dueAt n history = none)
    (idle : dueAt n (entry :: history) = none) :
    Noticed (entry :: history) s ∧ Attended (entry :: history) s := by
  constructor
  · refine noticed.onward unmarked (fun depth => ?_) rfl
    by_cases here : depth = n
    · subst here
      rw [idle, due]
    · rw [dueAt, Law.state_of_silent (silent depth here)]
  · refine attended.onward (fun direction queue depth now => absurd now (enters _ _ _)) ?_
    rintro later entered direction queue depth rfl waiting
    have other := silent depth (waiting.apart left due).symm
    refine .inl (waiting.onward (stays depth) (unmarked direction) ?_ ?_ ?_ rfl)
    · exact Law.state_of_silent other
    · rw [Law.state_of_silent other]
    · rw [dueAt, Law.state_of_silent other]

theorem Noticed.initial {s : Station}
    (unregistered : ∀ direction, s.interrupt.queue direction = none) :
    Noticed [] s ∧ Attended [] s := by
  refine ⟨⟨fun direction queue => ?_, fun _ _ _ => nofun, fun _ => trivial⟩, ?_⟩
  · rw [unregistered]
    exact ⟨nofun, fun placed => by simp [dueAt, Law.state] at placed⟩
  · intro later entered direction queue depth whole enters
    obtain ⟨_, rfl⟩ := List.append_eq_nil_iff.mp whole.symm
    cases enters

theorem Noticed.retrace {history : History} {s : Station} (noticed : Noticed history s)
    (attended : Attended history s) (trace : List Event) :
    Noticed history { s with trace } ∧ Attended history { s with trace } := by
  refine ⟨⟨noticed.stands, noticed.taken, noticed.once⟩, ?_⟩
  intro later entered direction queue depth whole enters
  refine (attended later entered direction queue depth whole enters).imp_left ?_
  intro waiting
  exact ⟨waiting.stays, waiting.unmarked, waiting.called, waiting.turn⟩

theorem Noticed.surround {history : History} {s : Station} {step : Step} (n : Nat)
    (noticed : Noticed history s) (attended : Attended history s)
    (surrounds : ∀ op, step ≠ .operation op) :
    Noticed (.begun n step :: history) (s.meet step) ∧
      Attended (.begun n step :: history) (s.meet step) := by
  have queues : (s.meet step).interrupt.queue = s.interrupt.queue := by
    rw [Station.meet_interrupt]
  refine ⟨noticed.onward (fun _ => rfl) (fun depth => ?_) queues,
    attended.onward (by rintro _ _ _ ⟨⟩) ?_⟩
  · rw [dueAt, Law.state_surround surrounds]
  · rintro later entered direction queue depth rfl waiting
    refine .inl (waiting.onward ?_ rfl ?_ ?_ ?_ (congrFun queues direction))
    · trivial
    · exact Law.state_surround surrounds
    · rw [Law.state_surround surrounds]
    · rw [dueAt, Law.state_surround surrounds]

structure NotifiesOnce (history : History) (m : Machine) : Prop where
  registration : ∀ later depth op direction queue earlier,
    history = later ++ .acted depth op (.setQueue direction queue) () :: earlier →
      op = .register direction queue ∧ places.state depth earlier = false
  rounds : Rounds (fun depth op earlier =>
    (∀ direction queue, op = .register direction queue → places.state depth earlier = true) ∧
      owes.state depth earlier = []) history
  notification : ∀ later depth op queue earlier,
    history = later ++ .acted depth op (.notify queue) () :: earlier →
      ∃ direction, takes.state depth earlier = some direction
  /-- The last thing that happened to a direction before a notification is its registration. -/
  once : ∀ direction later queue earlier,
    marks direction history = later ++ .notified queue :: earlier →
      ∃ older, earlier = .registered queue :: older
  stands : ∀ direction queue, m.station.interrupt.queue direction = some queue →
    standing (marks direction history) = some queue
  idle : m.stack = [] → ∀ direction queue, standing (marks direction history) = some queue →
    m.station.interrupt.queue direction = some queue
  /-- A section that finds a registration to serve settles it before it leaves the lock. -/
  served : ∀ later entered direction queue depth, history = later ++ entered →
    Enters direction queue depth entered →
      Settled direction queue depth entered later ∨
        (∀ entry ∈ later, StaysOpen depth entry) ∧ Holding history depth

namespace Run

variable {start m : Machine} {history : History}

theorem turn_obeyed (m : Machine) (op : Operation) (admitted : Mark.Admits m (.operation op)) :
    (op.task m.station.target).Obeys turnLaw (fun _ => turnLaw.ends) (turnLaw.start op) :=
  turnLaw.task admitted.1 admitted.2

theorem notices_inService (m : Machine) (op : Operation) (admitted : Mark.Admits m (.operation op)) :
    op.InService :=
  admitted.1

variable (resting : start.stack = []) (free : start.station.interrupt.lock = .free)
  (unregistered : ∀ direction, start.station.interrupt.queue direction = none)
  (run : Run Mark.Admits start history m)

include resting run

theorem notices_operate {op : Operation} {below : List Frame}
    (awaits : Awaits (.operation op) m.stack below) (noticed : Noticed history m.station)
    (attended : Attended history m.station) :
    Noticed (.begun m.stack.length (.operation op) :: history) m.station ∧
      Attended (.begun m.stack.length (.operation op) :: history) m.station := by
  have idle := (run.opening resting turn_obeyed awaits).idle
  refine noticed.turn attended (n := m.stack.length) (fun depth other => Ne.symm other)
    (fun _ => rfl) (fun _ => trivial) (by rintro _ _ _ ⟨⟩) ?_ ?_ ?_
  · rw [idle]
    rfl
  · rw [dueAt, idle]
    rfl
  · simp [dueAt]

theorem notices_abort {op : Operation} {target : Target} {e : Effect} {next : e.Answer → Task}
    {below : List Frame} {cause : Fault}
    (top : m.stack = .running op target (.perform e next) :: below)
    (applied : m.station.apply e = .error cause) (noticed : Noticed history m.station)
    (attended : Attended history m.station) :
    Noticed (.faulted cause :: history) m.station.unlocked ∧
      Attended (.faulted cause :: history) m.station.unlocked := by
  have acting := run.acting resting turn_obeyed top
  have idle (depth : Nat) : dueAt depth history = none := by
    rcases Nat.lt_trichotomy depth below.length with under | rfl | higher
    · exact acting.below depth under
    · exact TurnState.due_of_error acting.permitted applied
    · rw [dueAt, acting.above depth higher]
      rfl
  refine ⟨noticed.onward (fun _ => rfl) (fun depth => (idle depth).symm) rfl, ?_⟩
  refine attended.onward (by rintro _ _ _ ⟨⟩) ?_
  rintro later entered direction queue depth rfl waiting
  exact .inr (.unwound [] waiting.stays waiting.unmarked)

include free

theorem notices_act {op : Operation} {target : Target} {e : Effect} {next : e.Answer → Task}
    {below : List Frame} {answer : e.Answer} {after : Station}
    (top : m.stack = .running op target (.perform e next) :: below)
    (applied : m.station.apply e = .ok (answer, after)) (noticed : Noticed history m.station)
    (attended : Attended history m.station) :
    Noticed (.acted below.length op e answer :: history) after ∧
      Attended (.acted below.length op e answer :: history) after := by
  have acting := run.acting resting turn_obeyed top
  have guarded := (run.acting resting (lockLaw.obeyed notices_inService) top).permitted
  have single := run.single resting notices_inService free
  refine ⟨noticed.act single acting.permitted guarded applied, attended.onward ?_ ?_⟩
  · intro direction queue depth enters
    cases enters with
    | acquire handed cause stands =>
      have called := (turnLaw.call_eq below.length history).trans acting.called
      have owed := turnLaw.owed_of_drains handed (acting.permitted.2.2 called)
      refine .enter noticed single ?_ stands acting.called applied
      rw [owed]
      exact (Causes.mem_turns _ direction).mpr cause
  · rintro later entered direction queue depth rfl waiting
    by_cases here : below.length = depth
    · subst here
      have called := acting.called
      rw [waiting.called] at called
      cases called
      exact waiting.act_of_eq noticed acting.permitted applied
    · exact .inl (waiting.act_of_ne single here acting.permitted guarded applied)

include unregistered

theorem attended : Noticed history m.station ∧ Attended history m.station := by
  refine Run.account (P := fun history s => Noticed history s ∧ Attended history s) ?initial ?blind
    ?surround ?operate ?act ?renew ?finish ?abort run
  case initial => exact Noticed.initial unregistered
  case blind => exact fun trace kept => kept.1.retrace kept.2 trace
  case surround => exact fun _ _ _ surrounds kept => kept.1.surround _ kept.2 surrounds
  case operate =>
    exact fun run _ awaits kept => run.notices_operate resting awaits kept.1 kept.2
  case act =>
    exact fun run top applied kept => run.notices_act resting free top applied kept.1 kept.2
  case renew =>
    intro history m op target below run top ⟨noticed, attended⟩
    obtain ⟨_, ends⟩ := run.ending resting turn_obeyed top
    refine noticed.turn attended (n := below.length) (fun depth other => Ne.symm other)
      (fun _ => rfl) (fun _ => trivial) (by rintro _ _ _ ⟨⟩) ends.left ends.due ?_
    simp [dueAt]
  case finish =>
    intro history m op target answer below run top ⟨noticed, attended⟩
    obtain ⟨_, ends⟩ := run.ending resting turn_obeyed top
    refine noticed.turn attended (n := below.length) (fun depth other => Ne.symm other)
      (fun _ => rfl) (fun _ => trivial) (by rintro _ _ _ ⟨⟩) ends.left ends.due ?_
    simp [dueAt]
  case abort =>
    exact fun run top applied kept => run.notices_abort resting top applied kept.1 kept.2

/-- A registration is notified at most once, as long as it stands, and a section that finds it and
has a cause to serve for its direction notifies it unless a fault unwinds the section before. -/
theorem notified_once : NotifiesOnce history m := by
  obtain ⟨noticed, attended⟩ := run.attended resting free unregistered
  constructor
  case registration =>
    rintro later depth op direction queue earlier rfl
    obtain ⟨before, target, next, below, after, reached, top, rfl, _⟩ := run.acted
    have acting := reached.acting resting turn_obeyed top
    obtain ⟨_, called, fresh⟩ := acting.permitted
    rw [turnLaw.call_eq, acting.called] at called
    rw [turnLaw.placed_eq] at fresh
    exact ⟨Option.some.inj called, fresh⟩
  case rounds =>
    refine run.rounds resting turn_obeyed fun depth op history called ends => ⟨?_, ?_⟩
    · rintro direction queue rfl
      rw [← turnLaw.placed_eq]
      exact ends.placed direction queue ((turnLaw.call_eq depth history).trans called)
    · rw [← turnLaw.owed_eq]
      exact ends.owed
  case notification =>
    rintro later depth op queue earlier rfl
    obtain ⟨before, target, next, below, after, reached, top, rfl, _⟩ := run.acted
    have acting := reached.acting resting turn_obeyed top
    obtain ⟨direction, due⟩ := acting.permitted
    exact ⟨direction, turnLaw.takes_of_due due⟩
  case once =>
    intro direction later queue earlier split
    exact OneShot.registered (split ▸ noticed.once direction)
  case stands =>
    intro direction queue placed
    exact (noticed.stands direction queue).mpr (.inl placed)
  case idle =>
    intro idle direction queue stands
    rcases (noticed.stands direction queue).mp stands with placed | ⟨depth, due⟩
    · exact placed
    · obtain ⟨_, empty⟩ := run.governs resting turn_obeyed
      rw [dueAt, (empty depth (by simp [idle])).1] at due
      cases due
  case served =>
    intro later entered direction queue depth split enters
    rcases attended later entered direction queue depth split enters with waiting | settled
    · exact .inr ⟨waiting.stays, split ▸ waiting.holds⟩
    · exact .inl settled

end Run

def receivePending : Machine where
  station := { registers := { cell := fun _ => 0 }, target := .interrupts,
               interrupt := { pending := ⟨0x40⟩ } }

theorem Run.notified_once_receivePending :
    ∃ (history : History) (m : Machine), m.stack = [] ∧
      marks .receive history = [.notified ⟨"rx"⟩, .registered ⟨"rx"⟩] ∧
      m.station.interrupt.queue .receive = none ∧ NotifiesOnce history m := by
  have begun : Run Mark.Admits receivePending _
      (receivePending.begin (.operation (.register .receive (some ⟨"rx"⟩)))) :=
    Run.refl.begin rfl ⟨trivial, nofun⟩
  have registered := begun.advances 20 ⟨rfl, by rintro _ (_ | ⟨_, ⟨⟩⟩) _ ⟨⟩⟩
  have called := @Run.begin _ _ _ _ (.operation .deferred) registered rfl ⟨trivial, nofun⟩
  have served := called.advances 40 ⟨rfl, by rintro _ (_ | ⟨_, ⟨⟩⟩) _ ⟨⟩⟩
  exact ⟨_, _, rfl, by rfl, rfl, served.notified_once rfl rfl fun _ => rfl⟩

end EthernetMac
