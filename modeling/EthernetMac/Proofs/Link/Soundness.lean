import EthernetMac.Proofs.Interrupt.Causes
import EthernetMac.Proofs.Interrupt.Lock
import EthernetMac.Proofs.Link.Duty

/-! An invariant of runs: no link change is forgotten, and the configuration follows the published
state. One lemma for each kind of action that can touch it. -/

namespace EthernetMac

namespace LinkPhase

def status? : LinkPhase → Option Word
  | read status | configured status _ => some status
  | _ => none

def config? : LinkPhase → Option Word
  | configured _ config | stopping config => some config
  | _ => none

theorem active_of_busy {phase : LinkPhase} (busy : phase = .reset ∨ phase.status?.isSome) :
    phase ≠ .still := by
  intro same
  subst same
  rcases busy with h | h <;> cases h

theorem active_of_status {phase : LinkPhase} {status : Word} (read : phase.status? = some status) :
    phase ≠ .still := by
  intro same
  subst same
  cases read

theorem active_of_config {phase : LinkPhase} {config : Word} (has : phase.config? = some config) :
    phase ≠ .still := by
  intro same
  subst same
  cases has

end LinkPhase

theorem LinkDuty.Done.serial {due : Bool} {phase : LinkPhase}
    (done : (LinkDuty.serial due phase).Done) : due = false ∧ phase = .still := by
  rcases done with h | h | h <;> cases h
  exact ⟨rfl, rfl⟩

section Invariant

variable (duty : Nat → LinkDuty) (s : Station)

/-- A link change is latched, pending, in a handler's hands, or handed to a worker. -/
inductive LinkSignalled : Prop where
  | latched (latched : Cause.link.Latched s.registers)
  | pending (inside : Cause.link.In s.interrupt.pending.word)
  | held (depth : Nat) (holds : duty depth = .handling true)
  | due (depth : Nat) (phase : LinkPhase) (owes : duty depth = .serial true phase)

def LinkRefreshing : Prop :=
  ∃ depth due phase, duty depth = .serial due phase ∧ phase.status?.isSome

def LinkReconfiguring : Prop :=
  ∃ depth due phase, duty depth = .serial due phase ∧ (phase = .reset ∨ phase.status?.isSome)

/-- What every call owes to the link is enough to keep it up to date. -/
structure LinkSound (last : Option LinkState) : Prop where
  single : ∀ d other due otherDue phase otherPhase, duty d = .serial due phase →
    duty other = .serial otherDue otherPhase → d = other
  current : ∀ d due phase status, duty d = .serial due phase → phase.status? = some status →
    LinkSignalled duty s ∨
      LinkState.ofStatus status = .ofStatus (s.registers.cell Register.macPhyStatus)
  known : ∀ d due phase config, duty d = .serial due phase → phase.config? = some config →
    s.registers.cell Register.macConfiguration = config
  fresh : ∀ p, last = some p → LinkSignalled duty s ∨ LinkRefreshing duty ∨
    p = .ofStatus (s.registers.cell Register.macPhyStatus)
  configured : ∀ p, last = some p → LinkReconfiguring duty ∨
    p.Configured (s.registers.cell Register.macConfiguration)

end Invariant

/-- A handler loses a signal only into the pending word. -/
theorem LinkSignalled.handler {duty later : Nat → LinkDuty} {s after : Station} {n : Nat}
    {held nowHeld : Bool} (signalled : LinkSignalled duty s)
    (elsewhere : ∀ d, d ≠ n → later d = duty d) (before : duty n = .handling held)
    (here : later n = .handling nowHeld)
    (latch : Cause.link.Latched s.registers → Cause.link.Latched after.registers)
    (pending : Cause.link.In s.interrupt.pending.word → Cause.link.In after.interrupt.pending.word)
    (hands : held = true → nowHeld = true ∨ Cause.link.In after.interrupt.pending.word) :
    LinkSignalled later after := by
  rcases signalled with latched | inside | ⟨d, holds⟩ | ⟨d, phase, owes⟩
  · exact .latched (latch latched)
  · exact .pending (pending inside)
  · by_cases same : d = n
    · subst same
      rw [before] at holds
      rcases hands (LinkDuty.handling.inj holds) with still | merged
      · exact .held d (by rw [here, still])
      · exact .pending merged
    · exact .held d ((elsewhere d same).trans holds)
  · have other : d ≠ n := by
      intro same
      subst same
      rw [before] at owes
      cases owes
    exact .due d phase ((elsewhere d other).trans owes)

theorem LinkSignalled.serial {duty later : Nat → LinkDuty} {s after : Station} {n : Nat}
    {due nowDue : Bool} {phase now : LinkPhase} (signalled : LinkSignalled duty s)
    (elsewhere : ∀ d, d ≠ n → later d = duty d) (before : duty n = .serial due phase)
    (here : later n = .serial nowDue now)
    (latch : Cause.link.Latched s.registers → Cause.link.Latched after.registers)
    (pending : Cause.link.In s.interrupt.pending.word →
      Cause.link.In after.interrupt.pending.word ∨ nowDue = true)
    (owes : due = true → nowDue = true) : LinkSignalled later after := by
  rcases signalled with latched | inside | ⟨d, holds⟩ | ⟨d, other, owed⟩
  · exact .latched (latch latched)
  · rcases pending inside with still | handed
    · exact .pending still
    · exact .due n now (by rw [here, handed])
  · have apart : d ≠ n := by
      intro same
      subst same
      rw [before] at holds
      cases holds
    exact .held d ((elsewhere d apart).trans holds)
  · by_cases same : d = n
    · subst same
      rw [before] at owed
      have due : due = true := (LinkDuty.serial.inj owed).1
      exact .due d now (by rw [here, owes due])
    · exact .due d other ((elsewhere d same).trans owed)

theorem LinkSignalled.turn {duty later : Nat → LinkDuty} {s : Station} {n : Nat}
    (signalled : LinkSignalled duty s) (elsewhere : ∀ d, d ≠ n → later d = duty d)
    (before : (duty n).Done) : LinkSignalled later s := by
  rcases signalled with latched | inside | ⟨d, holds⟩ | ⟨d, phase, owes⟩
  · exact .latched latched
  · exact .pending inside
  · have other : d ≠ n := by
      intro same
      subst same
      rw [holds] at before
      rcases before with h | h | h <;> cases h
    exact .held d ((elsewhere d other).trans holds)
  · have other : d ≠ n := by
      intro same
      subst same
      rw [owes] at before
      cases before.serial.1
    exact .due d phase ((elsewhere d other).trans owes)

namespace LinkSound

variable {duty later : Nat → LinkDuty} {s after : Station} {last : Option LinkState}

theorem surround (sound : LinkSound duty s last)
    (latch : Cause.link.Latched s.registers → Cause.link.Latched after.registers)
    (pending : Cause.link.In s.interrupt.pending.word → Cause.link.In after.interrupt.pending.word)
    (status : Cause.link.Latched s.registers ∨
      LinkState.ofStatus (after.registers.cell Register.macPhyStatus) =
        .ofStatus (s.registers.cell Register.macPhyStatus))
    (config : after.registers.cell Register.macConfiguration =
      s.registers.cell Register.macConfiguration) :
    LinkSound duty after last := by
  have signalled : LinkSignalled duty s → LinkSignalled duty after := by
    rintro (latched | inside | ⟨d, holds⟩ | ⟨d, phase, owes⟩)
    · exact .latched (latch latched)
    · exact .pending (pending inside)
    · exact .held d holds
    · exact .due d phase owes
  refine ⟨sound.single, fun d due phase status' here read => ?_, ?_, fun p published => ?_, ?_⟩
  · rcases status with latched | same
    · exact .inl (.latched (latch latched))
    · rw [same]
      exact (sound.current d due phase status' here read).imp_left signalled
  · rw [config]
    exact sound.known
  · rcases status with latched | same
    · exact .inl (.latched (latch latched))
    · rw [same]
      exact (sound.fresh p published).imp_left signalled
  · rw [config]
    exact sound.configured

theorem turn {n : Nat} (sound : LinkSound duty s last) (elsewhere : ∀ d, d ≠ n → later d = duty d)
    (before : (duty n).Done) (now : (later n).Done)
    (alone : ∀ due phase, later n = .serial due phase →
      ∀ d other otherPhase, d ≠ n → duty d ≠ .serial other otherPhase) :
    LinkSound later s last := by
  have shift {d : Nat} {due : Bool} {phase : LinkPhase} (active : phase ≠ .still)
      (here : duty d = .serial due phase) : later d = .serial due phase := by
    have other : d ≠ n := by
      intro same
      subst same
      rw [here] at before
      exact active before.serial.2
    exact (elsewhere d other).trans here
  have back {d : Nat} {due : Bool} {phase : LinkPhase} (active : phase ≠ .still)
      (here : later d = .serial due phase) : duty d = .serial due phase := by
    have other : d ≠ n := by
      intro same
      subst same
      rw [here] at now
      exact active now.serial.2
    exact (elsewhere d other).symm.trans here
  refine ⟨?_, fun d due phase status here read => ?_, fun d due phase config here has => ?_,
    fun p published => ?_, fun p published => ?_⟩
  · intro d other due otherDue phase otherPhase here there
    by_cases first : d = n <;> by_cases second : other = n
    · rw [first, second]
    · subst first
      rw [elsewhere other second] at there
      exact absurd there (alone due phase here other _ _ second)
    · subst second
      rw [elsewhere d first] at here
      exact absurd here (alone _ _ there d _ _ first)
    · rw [elsewhere d first] at here
      rw [elsewhere other second] at there
      exact sound.single d other _ _ _ _ here there
  · have prior := back (LinkPhase.active_of_status read) here
    exact (sound.current d due phase status prior read).imp_left fun signal =>
      signal.turn elsewhere before
  · exact sound.known d due phase config (back (LinkPhase.active_of_config has) here) has
  · rcases sound.fresh p published with signal | ⟨d, due, phase, here, read⟩ | same
    · exact .inl (signal.turn elsewhere before)
    · exact .inr (.inl ⟨d, due, phase, shift (LinkPhase.active_of_busy (.inr read)) here, read⟩)
    · exact .inr (.inr same)
  · rcases sound.configured p published with ⟨d, due, phase, here, busy⟩ | same
    · exact .inl ⟨d, due, phase, shift (LinkPhase.active_of_busy busy) here, busy⟩
    · exact .inr same

/-- The serialized call is the only one that can be refreshing the link. -/
theorem fresh_at {n : Nat} {due : Bool} {phase : LinkPhase} (sound : LinkSound duty s last)
    (here : duty n = .serial due phase) {p : LinkState} (published : last = some p) :
    LinkSignalled duty s ∨ phase.status?.isSome ∨
      p = .ofStatus (s.registers.cell Register.macPhyStatus) := by
  rcases sound.fresh p published with signal | ⟨d, other, otherPhase, there, read⟩ | same
  · exact .inl signal
  · have same := sound.single d n _ _ _ _ there here
    subst same
    rw [here] at there
    cases there
    exact .inr (.inl read)
  · exact .inr (.inr same)

theorem configured_at {n : Nat} {due : Bool} {phase : LinkPhase} (sound : LinkSound duty s last)
    (here : duty n = .serial due phase) {p : LinkState} (published : last = some p) :
    (phase = .reset ∨ phase.status?.isSome) ∨
      p.Configured (s.registers.cell Register.macConfiguration) := by
  rcases sound.configured p published with ⟨d, other, otherPhase, there, busy⟩ | same
  · have same := sound.single d n _ _ _ _ there here
    subst same
    rw [here] at there
    cases there
    exact .inl busy
  · exact .inr same

theorem fresh_of_unread {n : Nat} {due : Bool} {phase : LinkPhase} (sound : LinkSound duty s last)
    (here : duty n = .serial due phase) (unread : phase.status? = none) {p : LinkState}
    (published : last = some p) :
    LinkSignalled duty s ∨ p = .ofStatus (s.registers.cell Register.macPhyStatus) := by
  rcases sound.fresh_at here published with signal | read | current
  · exact .inl signal
  · rw [unread] at read
    cases read
  · exact .inr current

theorem configured_of_unread {n : Nat} {due : Bool} {phase : LinkPhase}
    (sound : LinkSound duty s last) (here : duty n = .serial due phase)
    (unread : phase.status? = none) (steady : phase ≠ .reset) {p : LinkState}
    (published : last = some p) : p.Configured (s.registers.cell Register.macConfiguration) := by
  rcases sound.configured_at here published with (reset | read) | kept
  · exact absurd reset steady
  · rw [unread] at read
    cases read
  · exact kept

theorem serial {n : Nat} {due nowDue : Bool} {phase now : LinkPhase} {next : Option LinkState}
    (sound : LinkSound duty s last) (elsewhere : ∀ d, d ≠ n → later d = duty d)
    (before : duty n = .serial due phase) (here : later n = .serial nowDue now)
    (current : ∀ status, now.status? = some status → LinkSignalled later after ∨
      LinkState.ofStatus status = .ofStatus (after.registers.cell Register.macPhyStatus))
    (known : ∀ config, now.config? = some config →
      after.registers.cell Register.macConfiguration = config)
    (fresh : ∀ p, next = some p → LinkSignalled later after ∨ now.status?.isSome ∨
      p = .ofStatus (after.registers.cell Register.macPhyStatus))
    (configured : ∀ p, next = some p → (now = .reset ∨ now.status?.isSome) ∨
      p.Configured (after.registers.cell Register.macConfiguration)) :
    LinkSound later after next := by
  have only {d : Nat} {other : Bool} {otherPhase : LinkPhase}
      (there : later d = .serial other otherPhase) :
      d = n ∧ other = nowDue ∧ otherPhase = now := by
    have same : d = n := by
      refine Decidable.byContradiction ?_
      intro apart
      rw [elsewhere d apart] at there
      exact apart (sound.single d n _ _ _ _ there before)
    subst same
    rw [here] at there
    cases there
    exact ⟨rfl, rfl, rfl⟩
  refine ⟨?_, ?_, ?_, fun p published => ?_, fun p published => ?_⟩
  · intro d other _ _ _ _ first second
    rw [(only first).1, (only second).1]
  · rintro d _ _ status there read
    obtain ⟨rfl, rfl, rfl⟩ := only there
    exact current status read
  · rintro d _ _ config there has
    obtain ⟨rfl, rfl, rfl⟩ := only there
    exact known config has
  · rcases fresh p published with signal | read | same
    · exact .inl signal
    · exact .inr (.inl ⟨n, nowDue, now, here, read⟩)
    · exact .inr (.inr same)
  · rcases configured p published with busy | same
    · exact .inl ⟨n, nowDue, now, here, busy⟩
    · exact .inr same

/-- An action that changes neither the serialized calls nor the two registers, and loses no
signal. -/
theorem mono (sound : LinkSound duty s last)
    (serials : ∀ d due phase, later d = .serial due phase ↔ duty d = .serial due phase)
    (signalled : LinkSignalled duty s → LinkSignalled later after)
    (status : after.registers.cell Register.macPhyStatus =
      s.registers.cell Register.macPhyStatus)
    (config : after.registers.cell Register.macConfiguration =
      s.registers.cell Register.macConfiguration) :
    LinkSound later after last := by
  refine ⟨?_, fun d due phase word here read => ?_, fun d due phase word here has => ?_,
    fun p published => ?_, fun p published => ?_⟩
  · intro d other _ _ _ _ first second
    exact sound.single d other _ _ _ _ ((serials ..).mp first) ((serials ..).mp second)
  · rw [status]
    exact (sound.current d due phase word ((serials ..).mp here) read).imp_left signalled
  · rw [config]
    exact sound.known d due phase word ((serials ..).mp here) has
  · rw [status]
    rcases sound.fresh p published with signal | ⟨d, due, phase, here, read⟩ | same
    · exact .inl (signalled signal)
    · exact .inr (.inl ⟨d, due, phase, (serials ..).mpr here, read⟩)
    · exact .inr (.inr same)
  · rw [config]
    rcases sound.configured p published with ⟨d, due, phase, here, busy⟩ | same
    · exact .inl ⟨d, due, phase, (serials ..).mpr here, busy⟩
    · exact .inr same

theorem handler {n : Nat} {held nowHeld : Bool} (sound : LinkSound duty s last)
    (elsewhere : ∀ d, d ≠ n → later d = duty d) (before : duty n = .handling held)
    (here : later n = .handling nowHeld)
    (signalled : LinkSignalled duty s → LinkSignalled later after)
    (status : after.registers.cell Register.macPhyStatus =
      s.registers.cell Register.macPhyStatus)
    (config : after.registers.cell Register.macConfiguration =
      s.registers.cell Register.macConfiguration) :
    LinkSound later after last := by
  refine sound.mono (fun d due phase => ?_) signalled status config
  by_cases same : d = n
  · subst same
    simp [before, here]
  · rw [elsewhere d same]

theorem keep (sound : LinkSound duty s last) (same : ∀ d, later d = duty d)
    (latch : Cause.link.Latched s.registers → Cause.link.Latched after.registers)
    (pending : Cause.link.In s.interrupt.pending.word → Cause.link.In after.interrupt.pending.word)
    (status : after.registers.cell Register.macPhyStatus =
      s.registers.cell Register.macPhyStatus)
    (config : after.registers.cell Register.macConfiguration =
      s.registers.cell Register.macConfiguration) :
    LinkSound later after last := by
  rw [funext same]
  exact sound.surround latch pending (.inr (by rw [status])) config

end LinkSound

def published : History → Option LinkState
  | [] => none
  | .acted _ _ (.publishLink state) _ :: _ => some state
  | _ :: earlier => published earlier

section Act

variable {history : History} {n : Nat} {op : Operation} {s after : Station}

theorem duty_here (e : Effect) (answer : e.Answer) :
    linkLaw.state n (.acted n op e answer :: history) =
      (linkLaw.state n history).after e answer := by
  simp

theorem duty_elsewhere (e : Effect) (answer : e.Answer) (d : Nat) (other : d ≠ n) :
    linkLaw.state d (.acted n op e answer :: history) = linkLaw.state d history := by
  simp [Ne.symm other]

theorem duty_stays (e : Effect) (answer : e.Answer)
    (stays : (linkLaw.state n history).after e answer = linkLaw.state n history) (d : Nat) :
    linkLaw.state d (.acted n op e answer :: history) = linkLaw.state d history := by
  by_cases here : d = n
  · rw [here, duty_here, stays]
  · exact duty_elsewhere e answer d here

namespace Station

variable {offset : Nat} {value : Word}

theorem load_latched (device : s.registers.backing = .device)
    (applied : s.apply (.load offset) = .ok (value, after)) (other : offset ≠ Register.macPhyStatus)
    (latched : Cause.link.Latched s.registers) : Cause.link.Latched after.registers :=
  (Cause.latched_apply 0 .interrupt device applied nofun).mpr ⟨latched, fun is => other is.2⟩

theorem load_pending (applied : s.apply (.load offset) = .ok (value, after)) {c : Cause}
    (inside : c.In s.interrupt.pending.word) : c.In after.interrupt.pending.word := by
  rw [apply_interrupt applied]
  exact inside

theorem store_latched {answer : Unit} (device : s.registers.backing = .device)
    (applied : s.apply (.store offset value) = .ok (answer, after))
    (reserved : offset ≠ Register.macInterruptStatus)
    (latched : Cause.link.Latched s.registers) : Cause.link.Latched after.registers := by
  have unstored : ∀ word, Effect.store offset value ≠ .store Register.macInterruptStatus word := by
    intro _ same
    cases same
    exact reserved rfl
  refine (Cause.latched_apply 0 .interrupt device applied unstored).mpr ⟨latched, fun is => ?_⟩
  exact absurd is.2.1 (by decide)

theorem store_pending {answer : Unit}
    (applied : s.apply (.store offset value) = .ok (answer, after)) {c : Cause}
    (inside : c.In s.interrupt.pending.word) : c.In after.interrupt.pending.word := by
  rw [apply_interrupt applied]
  exact inside

end Station

namespace LinkSound

theorem load_handling {offset : Nat} {value : Word} {held : Bool}
    (sound : LinkSound (linkLaw.state · history) s (published history))
    (device : s.registers.backing = .device)
    (applied : s.apply (.load offset) = .ok (value, after))
    (permitted : (linkLaw.state n history).Permits (.load offset))
    (q : linkLaw.state n history = .handling held) :
    LinkSound (linkLaw.state · (.acted n op (.load offset) value :: history)) after
      (published history) := by
  obtain ⟨nowHeld, loaded, grows⟩ : ∃ nowHeld,
      (linkLaw.state n history).loaded offset value = .handling nowHeld ∧
        (held = true → nowHeld = true) := by
    rw [q]
    by_cases cause : offset = Register.macInterruptStatus
    · exact ⟨held || MacInterruptStatus.linkStatus.test value, by simp [LinkDuty.loaded, cause],
        fun holds => by simp [holds]⟩
    · exact ⟨held, by simp [LinkDuty.loaded, cause], id⟩
  have here : linkLaw.state n (.acted n op (.load offset) value :: history) =
      .handling nowHeld := (duty_here _ _).trans loaded
  refine sound.handler (duty_elsewhere _ _) q here (fun signalled => ?_)
    (Station.load_cell applied (by decide) (by decide))
    (Station.load_cell applied (by decide) (by decide))
  by_cases phy : offset = Register.macPhyStatus
  · -- The latch is cleared, but the cause is in the handler's hands by now.
    have holds : held = true := by
      rcases permitted phy with holds | ⟨due, phase, serial⟩
      · rw [q] at holds
        exact LinkDuty.handling.inj holds
      · rw [q] at serial
        cases serial
    rw [grows holds] at here
    exact .held n here
  · exact signalled.handler (duty_elsewhere _ _) q here
      (Station.load_latched device applied phy) (Station.load_pending applied)
      fun holds => .inl (grows holds)

/-- A serialized call reads the interface status: whatever was due is done by this. -/
theorem load_status {value : Word} {due : Bool} {phase : LinkPhase}
    (sound : LinkSound (linkLaw.state · history) s (published history))
    (applied : s.apply (.load Register.macPhyStatus) = .ok (value, after))
    (q : linkLaw.state n history = .serial due phase) :
    LinkSound (linkLaw.state · (.acted n op (.load Register.macPhyStatus) value :: history)) after
      (published history) := by
  have here : linkLaw.state n (.acted n op (.load Register.macPhyStatus) value :: history) =
      .serial false (.read value) := by
    rw [duty_here, q]
    rfl
  refine sound.serial (duty_elsewhere _ _) q here ?_ nofun (fun _ _ => .inr (.inl rfl))
    (fun _ _ => .inl (.inr rfl))
  intro _ same
  cases same
  exact .inr (by rw [Station.load_value applied])

theorem load_configuration {value : Word} {due : Bool} {phase : LinkPhase}
    (sound : LinkSound (linkLaw.state · history) s (published history))
    (device : s.registers.backing = .device)
    (applied : s.apply (.load Register.macConfiguration) = .ok (value, after))
    (q : linkLaw.state n history = .serial due phase) :
    LinkSound (linkLaw.state · (.acted n op (.load Register.macConfiguration) value :: history))
      after (published history) := by
  have status : after.registers.cell Register.macPhyStatus =
      s.registers.cell Register.macPhyStatus :=
    Station.load_cell applied (by decide) (by decide)
  have same : after.registers.cell Register.macConfiguration = value := Station.load_value applied
  have config : after.registers.cell Register.macConfiguration =
      s.registers.cell Register.macConfiguration :=
    Station.load_cell applied (by decide) (by decide)
  have latch := Station.load_latched device applied (by decide)
  have now : linkLaw.state n (.acted n op (.load Register.macConfiguration) value :: history) =
      (linkLaw.state n history).after (.load Register.macConfiguration) value := duty_here _ _
  have signalled {phaseNow : LinkPhase}
      (here : linkLaw.state n (.acted n op (.load Register.macConfiguration) value :: history) =
        .serial due phaseNow) (signal : LinkSignalled (linkLaw.state · history) s) :
      LinkSignalled (linkLaw.state ·
        (.acted n op (.load Register.macConfiguration) value :: history)) after :=
    signal.serial (duty_elsewhere _ _) q here latch
      (fun inside => .inl (Station.load_pending applied inside)) id
  rw [q] at now
  cases phase with
  | still =>
    have here : _ = LinkDuty.serial due (.stopping value) := now
    refine sound.serial (duty_elsewhere _ _) q here nofun ?_ (fun p shown => ?_) fun p shown => ?_
    · intro _ same
      cases same
      exact same
    · rw [status]
      rcases sound.fresh_of_unread q rfl shown with signal | current
      · exact .inl (signalled here signal)
      · exact .inr (.inr current)
    · rw [config]
      exact .inr (sound.configured_of_unread q rfl nofun shown)
  | read word =>
    have here : _ = LinkDuty.serial due (.configured word value) := now
    refine sound.serial (duty_elsewhere _ _) q here ?_ ?_ (fun _ _ => .inr (.inl rfl))
      fun _ _ => .inl (.inr rfl)
    · intro _ same
      cases same
      rw [status]
      exact (sound.current n due _ word q rfl).imp_left (signalled here)
    · intro _ same
      cases same
      exact same
  | reset | configured | stopping =>
    exact sound.keep (duty_stays _ _ (by rw [q]; rfl)) latch (Station.load_pending applied) status
      config

theorem load {offset : Nat} {value : Word}
    (sound : LinkSound (linkLaw.state · history) s (published history))
    (device : s.registers.backing = .device)
    (applied : s.apply (.load offset) = .ok (value, after))
    (permitted : (linkLaw.state n history).Permits (.load offset)) :
    LinkSound (linkLaw.state · (.acted n op (.load offset) value :: history)) after
      (published (.acted n op (.load offset) value :: history)) := by
  have unchanged (stays : (linkLaw.state n history).after (.load offset) value =
      linkLaw.state n history) (other : offset ≠ Register.macPhyStatus) :
      LinkSound (linkLaw.state · (.acted n op (.load offset) value :: history)) after
        (published history) :=
    sound.keep (duty_stays _ _ stays) (Station.load_latched device applied other)
      (Station.load_pending applied) (Station.load_cell applied (by decide) (by decide))
      (Station.load_cell applied (by decide) (by decide))
  cases q : linkLaw.state n history with
  | none =>
    refine unchanged (by rw [q]; rfl) ?_
    intro phy
    rcases permitted phy with holds | ⟨due, phase, here⟩
    · rw [q] at holds
      cases holds
    · rw [q] at here
      cases here
  | handling held => exact sound.load_handling device applied permitted q
  | serial due phase =>
    by_cases phy : offset = Register.macPhyStatus
    · subst phy
      exact sound.load_status applied q
    · by_cases configuration : offset = Register.macConfiguration
      · subst configuration
        exact sound.load_configuration device applied q
      · exact unchanged (by simp [q, LinkDuty.after, LinkDuty.loaded, phy, configuration]) phy

theorem store_configuration {value : Word} {answer : Unit} {due : Bool} {phase : LinkPhase}
    (sound : LinkSound (linkLaw.state · history) s (published history))
    (device : s.registers.backing = .device)
    (applied : s.apply (.store Register.macConfiguration value) = .ok (answer, after))
    (q : linkLaw.state n history = .serial due phase)
    (stops : ∀ config, phase = .stopping config → value = Working.stopped config) :
    LinkSound (linkLaw.state · (.acted n op (.store Register.macConfiguration value) answer ::
      history)) after (published history) := by
  have status : after.registers.cell Register.macPhyStatus =
      s.registers.cell Register.macPhyStatus := Station.store_cell applied (by decide)
  have same : after.registers.cell Register.macConfiguration = value :=
    Station.store_value applied (by decide)
  have now : linkLaw.state n (.acted n op (.store Register.macConfiguration value) answer ::
      history) = (linkLaw.state n history).after (.store Register.macConfiguration value) answer :=
    duty_here _ _
  have signalled {phaseNow : LinkPhase}
      (here : linkLaw.state n (.acted n op (.store Register.macConfiguration value) answer ::
        history) = .serial due phaseNow) (signal : LinkSignalled (linkLaw.state · history) s) :
      LinkSignalled (linkLaw.state ·
        (.acted n op (.store Register.macConfiguration value) answer :: history)) after :=
    signal.serial (duty_elsewhere _ _) q here (Station.store_latched device applied (by decide))
      (fun inside => .inl (Station.store_pending applied inside)) id
  have fresh {phaseNow : LinkPhase} (unread : phase.status? = none)
      (here : linkLaw.state n (.acted n op (.store Register.macConfiguration value) answer ::
        history) = .serial due phaseNow) (p : LinkState) (shown : published history = some p) :
      LinkSignalled (linkLaw.state ·
        (.acted n op (.store Register.macConfiguration value) answer :: history)) after ∨
        phaseNow.status?.isSome ∨ p = .ofStatus (after.registers.cell Register.macPhyStatus) := by
    rw [status]
    rcases sound.fresh_of_unread q unread shown with signal | current
    · exact .inl (signalled here signal)
    · exact .inr (.inr current)
  rw [q] at now
  cases phase with
  | still | reset =>
    have here : _ = LinkDuty.serial due .reset := now
    exact sound.serial (duty_elsewhere _ _) q here nofun nofun (fresh rfl here)
      fun _ _ => .inl (.inl rfl)
  | read word =>
    have here : _ = LinkDuty.serial due (.read word) := now
    refine sound.serial (duty_elsewhere _ _) q here ?_ nofun (fun _ _ => .inr (.inl rfl))
      fun _ _ => .inl (.inr rfl)
    intro _ same
    cases same
    rw [status]
    exact (sound.current n due _ word q rfl).imp_left (signalled here)
  | configured word old =>
    have here : _ = LinkDuty.serial due (.configured word value) := now
    refine sound.serial (duty_elsewhere _ _) q here ?_ ?_ (fun _ _ => .inr (.inl rfl))
      fun _ _ => .inl (.inr rfl)
    · intro _ same
      cases same
      rw [status]
      exact (sound.current n due _ word q rfl).imp_left (signalled here)
    · intro _ same
      cases same
      exact same
  | stopping old =>
    have here : _ = LinkDuty.serial due .still := now
    refine sound.serial (duty_elsewhere _ _) q here nofun nofun (fresh rfl here) ?_
    intro p shown
    have kept := sound.configured_of_unread q rfl nofun shown
    rw [sound.known n due _ old q rfl] at kept
    rw [same, stops old rfl]
    exact .inr kept.stopped

theorem store {offset : Nat} {value : Word} {answer : Unit}
    (sound : LinkSound (linkLaw.state · history) s (published history))
    (device : s.registers.backing = .device)
    (applied : s.apply (.store offset value) = .ok (answer, after))
    (permitted : (linkLaw.state n history).Permits (.store offset value)) :
    LinkSound (linkLaw.state · (.acted n op (.store offset value) answer :: history)) after
      (published (.acted n op (.store offset value) answer :: history)) := by
  by_cases configuration : offset = Register.macConfiguration
  · obtain ⟨_, due, phase, q, stops⟩ := permitted (.inr (.inr configuration))
    subst configuration
    exact sound.store_configuration device applied q stops
  · have outside : ¬ LinkDuty.Decides offset := fun decides =>
      configuration (permitted decides).1
    have cause : offset ≠ Register.macInterruptStatus := fun is => outside (.inr (.inl is))
    have phy : Register.macPhyStatus ≠ offset := fun is => outside (.inl is.symm)
    have stays : (linkLaw.state n history).after (.store offset value) answer =
        linkLaw.state n history := by
      cases linkLaw.state n history <;> simp [LinkDuty.after, LinkDuty.stored, configuration]
    exact sound.keep (duty_stays _ _ stays) (Station.store_latched device applied cause)
      (Station.store_pending applied) (Station.store_cell applied phy)
      (Station.store_cell applied (Ne.symm configuration))

theorem publish {state : LinkState} {answer : Unit}
    (sound : LinkSound (linkLaw.state · history) s (published history))
    (permitted : (linkLaw.state n history).Permits (.publishLink state)) :
    LinkSound (linkLaw.state · (.acted n op (.publishLink state) answer :: history)) s
      (published (.acted n op (.publishLink state) answer :: history)) := by
  obtain ⟨due, status, config, q, rfl, configured⟩ := permitted
  have here : linkLaw.state n (.acted n op (.publishLink (.ofStatus status)) answer :: history) =
      .serial due .still := by
    rw [duty_here, q]
    rfl
  refine sound.serial (duty_elsewhere _ _) q here nofun nofun ?_ ?_
  · intro _ same
    cases same
    rcases sound.current n due _ status q rfl with signal | current
    · exact .inl (signal.serial (duty_elsewhere _ _) q here id .inl id)
    · exact .inr (.inr current)
  · intro _ same
    cases same
    rw [sound.known n due _ config q rfl]
    exact .inr configured

theorem merge {causes : Word} {answer : Unit}
    (sound : LinkSound (linkLaw.state · history) s (published history))
    (applied : s.apply (.merge causes) = .ok (answer, after))
    (permitted : (linkLaw.state n history).Permits (.merge causes)) :
    LinkSound (linkLaw.state · (.acted n op (.merge causes) answer :: history)) after
      (published (.acted n op (.merge causes) answer :: history)) := by
  have registers : after.registers = s.registers := Station.apply_registers applied
  have pending : after.interrupt.pending.word = s.interrupt.pending.word ||| causes := by
    rw [Station.apply_interrupt applied]
    rfl
  have grows (inside : Cause.link.In s.interrupt.pending.word) :
      Cause.link.In after.interrupt.pending.word := by
    unfold Cause.In at inside ⊢
    simp [pending, inside]
  have unchanged (stays : (linkLaw.state n history).after (.merge causes) answer =
      linkLaw.state n history) :
      LinkSound (linkLaw.state · (.acted n op (.merge causes) answer :: history)) after
        (published history) := by
    refine sound.keep (duty_stays _ _ stays) ?_ grows ?_ ?_
    · rw [registers]
      exact id
    · rw [registers]
    · rw [registers]
  cases q : linkLaw.state n history with
  | none => exact unchanged (by rw [q]; rfl)
  | serial due phase => exact unchanged (by rw [q]; rfl)
  | handling held =>
    have here : linkLaw.state n (.acted n op (.merge causes) answer :: history) =
        .handling false := by
      rw [duty_here, q]
      rfl
    refine sound.handler (duty_elsewhere _ _) q here (fun signal => ?_) (by rw [registers])
      (by rw [registers])
    refine signal.handler (duty_elsewhere _ _) q here (by rw [registers]; exact id) grows
      fun holds => .inr ?_
    rw [holds] at q
    have link : (Causes.ofWord causes).link = true := permitted q
    rw [Causes.link_eq] at link
    simp [Cause.In, Cause.place, pending, link]

/-- A worker that is handed the link cause owes a refresh. -/
theorem drain {word : Word}
    (sound : LinkSound (linkLaw.state · history) s (published history))
    (applied : s.apply .drain = .ok (word, after))
    (permitted : (linkLaw.state n history).Permits .drain) :
    LinkSound (linkLaw.state · (.acted n op .drain word :: history)) after
      (published (.acted n op .drain word :: history)) := by
  obtain ⟨phase, q⟩ := permitted
  have registers : after.registers = s.registers := Station.apply_registers applied
  have handed : word = s.interrupt.pending.word := Station.apply_reads applied
  have here : linkLaw.state n (.acted n op .drain word :: history) =
      .serial (Causes.ofWord word).link phase := by
    rw [duty_here, q]
    rfl
  have signalled (signal : LinkSignalled (linkLaw.state · history) s) :
      LinkSignalled (linkLaw.state · (.acted n op .drain word :: history)) after := by
    refine signal.serial (duty_elsewhere _ _) q here (by rw [registers]; exact id)
      (fun inside => .inr ?_) nofun
    rw [Causes.link_eq, handed]
    exact inside
  refine sound.serial (duty_elsewhere _ _) q here (fun status read => ?_) ?_ (fun p shown => ?_)
    fun p shown => ?_
  · rw [registers]
    exact (sound.current n _ phase status q read).imp_left signalled
  · rw [registers]
    exact fun config has => sound.known n _ phase config q has
  · rw [registers]
    exact (sound.fresh_at q shown).imp_left signalled
  · rw [registers]
    exact sound.configured_at q shown

theorem act {e : Effect} {answer : e.Answer}
    (sound : LinkSound (linkLaw.state · history) s (published history))
    (device : s.registers.backing = .device) (applied : s.apply e = .ok (answer, after))
    (permitted : (linkLaw.state n history).Permits e) :
    LinkSound (linkLaw.state · (.acted n op e answer :: history)) after
      (published (.acted n op e answer :: history)) := by
  have registers := Station.apply_registers applied
  have interrupt := Station.apply_interrupt applied
  cases e with
  | load offset => exact sound.load device applied permitted
  | store offset value => exact sound.store device applied permitted
  | merge causes => exact sound.merge applied permitted
  | drain => exact sound.drain applied permitted
  | attach => exact permitted.elim
  | publishLink state =>
    cases applied
    exact sound.publish permitted
  | fault => exact answer.elim
  | _ =>
    refine sound.keep (duty_stays _ _ rfl) ?_ ?_ ?_ ?_
    · rw [registers]
      exact id
    · rw [interrupt]
      exact id
    · rw [registers]
      rfl
    · rw [registers]
      rfl

end LinkSound

end Act

end EthernetMac
