import EthernetMac.Proofs.Power.Sections
import EthernetMac.Proofs.Power.Stages

/-! An invariant of runs: the activity, the state category and the configuration are where the last
power transition left them, or where the one under way has brought them. One lemma for each kind of
move. -/

namespace EthernetMac

open PowerState (apart serial)

def transitions : History → List Bool
  | [] => []
  | .ended _ op answer :: earlier => (op.transition? answer).toList ++ transitions earlier
  | _ :: earlier => transitions earlier

theorem transitions_append (later earlier : History) :
    transitions (later ++ earlier) = transitions later ++ transitions earlier := by
  induction later with
  | nil => rfl
  | cons entry later ih => cases entry <;> simp [transitions, ih]

def Alternating : List Bool → Prop
  | [] => True
  | on :: earlier => on = !earlier.headD false ∧ Alternating earlier

namespace PowerStage

def toward? : PowerStage → Option Bool
  | started | configured | awake => some true
  | dropping | dropped | checking | caught | stopping | stopped => some false
  | still | entering | leaving | refused => none

def Behind (stage : PowerStage) : Prop := stage = started ∨ stage = configured ∨ stage = dropping

instance (stage : PowerStage) : Decidable stage.Behind := inferInstanceAs (Decidable (_ ∨ _))

def enables? (passed : List Bool) : PowerStage → Option Bool
  | configured | awake => some true
  | stopped => some false
  | still | entering | leaving | refused => passed.head?
  | started | dropping | dropped | checking | caught | stopping => none

/-- A call at this stage, which has read or written `config` last, fits the station after the
transitions `passed`. `wants` says whether the state category will be wanted when no section is under
way. -/
structure Fits (stage : PowerStage) (config : Option Word) (passed : List Bool) (wants : Bool)
    (s : Station) : Prop where
  origin : ∀ on, stage.toward? = some on → passed.headD false = !on
  active : s.active = stage.toward?.getD (passed.headD false)
  wants : wants = if stage.Behind then !s.active else s.active
  enabled : ∀ on, stage.enables? passed = some on →
    Working.Enabled on (s.registers.cell Register.macConfiguration)
  known : ∀ value, config = some value → s.registers.cell Register.macConfiguration = value
  cleared : stage.Guarded → ∀ direction, s.interrupt.queue direction = none
  possible : stage ≠ .caught

/-- A call at the stage `later` says nothing of the station but what one at `stage` says, the queues
apart. -/
structure Within (later stage : PowerStage) : Prop where
  toward : later.toward? = stage.toward?
  behind : later.Behind ↔ stage.Behind
  enables : ∀ passed on, later.enables? passed = some on → stage.enables? passed = some on
  possible : stage ≠ caught → later ≠ caught

theorem Within.refl (stage : PowerStage) : stage.Within stage := ⟨rfl, .rfl, fun _ _ => id, id⟩

end PowerStage

namespace Station

variable {s after : Station} {e : Effect} {answer : e.Answer}

theorem apply_idle (applied : s.apply e = .ok (answer, after))
    (activity : ∀ on, e ≠ .setActive on) (attach : ∀ adapter, e ≠ .attach adapter)
    (configuration : ∀ value, e ≠ .store Register.macConfiguration value) :
    after.active = s.active ∧ after.registers.cell Register.macConfiguration =
      s.registers.cell Register.macConfiguration := by
  constructor
  · rw [(apply_target applied).2]
    cases e with
    | setActive on => exact absurd rfl (activity on)
    | attach adapter => exact absurd rfl (attach adapter)
    | _ => rfl
  · cases e with
    | load offset => exact load_cell applied (by decide) (by decide)
    | store offset value =>
      refine store_cell applied ?_
      rintro rfl
      exact configuration value rfl
    | _ => rw [apply_registers applied]; rfl

end Station

namespace PowerStage.Fits

variable {stage later : PowerStage} {config read : Option Word} {passed : List Bool} {wants : Bool}
  {s after : Station} {op : Operation}

theorem onward (fits : stage.Fits config passed wants s) (within : later.Within stage)
    (known : ∀ value, read = some value → s.registers.cell Register.macConfiguration = value)
    (idle : after.active = s.active ∧ after.registers.cell Register.macConfiguration =
      s.registers.cell Register.macConfiguration)
    (cleared : later.Guarded → ∀ direction, after.interrupt.queue direction = none) :
    later.Fits read passed wants after where
  origin := by rw [within.toward]; exact fits.origin
  active := by rw [within.toward, idle.1]; exact fits.active
  wants := by simp only [within.behind, idle.1]; exact fits.wants
  enabled on said := by rw [idle.2]; exact fits.enabled on (within.enables passed on said)
  known := by rw [idle.2]; exact known
  cleared := cleared
  possible := within.possible fits.possible

theorem keep (fits : stage.Fits config passed wants s)
    (idle : after.active = s.active ∧ after.registers.cell Register.macConfiguration =
      s.registers.cell Register.macConfiguration)
    (queue : stage.Guarded → after.interrupt.queue = s.interrupt.queue) :
    stage.Fits config passed wants after :=
  fits.onward (.refl stage) fits.known idle fun guarded => queue guarded ▸ fits.cleared guarded

theorem unrelated {e : Effect} {answer : e.Answer} (fits : stage.Fits config passed wants s)
    (unrelated : powerLaw.Unrelated e) (applied : s.apply e = .ok (answer, after)) :
    (stage.after e answer).Fits (PowerState.noted config e answer) passed wants after := by
  have stays : (serial stage config).after e answer = serial stage config :=
    (powerLaw.ignores (q := serial stage config) e unrelated).2 answer
  obtain ⟨stays, noted⟩ := PowerState.serial.inj stays
  rw [stays, noted]
  refine fits.keep (Station.apply_idle applied ?_ ?_ ?_) fun _ => ?_
  · rintro _ rfl
    exact unrelated
  · rintro _ rfl
    exact unrelated
  · rintro _ rfl
    exact unrelated.2 rfl
  · rw [Station.apply_queue applied]
    cases e <;> first | rfl | exact unrelated.elim

theorem load {offset : Nat} {value : Word} (fits : stage.Fits config passed wants s)
    (applied : s.apply (.load offset) = .ok (value, after)) :
    (stage.after (.load offset) value).Fits (PowerState.noted config (.load offset) value) passed
      wants after := by
  have idle := Station.apply_idle applied nofun nofun nofun
  have queue : after.interrupt.queue = s.interrupt.queue := Station.apply_queue applied
  have known (read : Word) (noted : PowerState.noted config (.load offset) value = some read) :
      s.registers.cell Register.macConfiguration = read := by
    by_cases here : offset = Register.macConfiguration
    · subst here
      cases noted
      exact idle.2.symm.trans (Station.load_value applied)
    · exact fits.known read ((if_neg here).symm.trans noted)
  have moves : stage.after (.load offset) value = stage ∨
      stage = .checking ∧ stage.after (.load offset) value = .stopping := by
    cases stage with
    | checking =>
      by_cases here : offset = Register.macConfiguration
      · exact .inr ⟨rfl, if_pos here⟩
      · exact .inl (if_neg here)
    | _ => exact .inl rfl
  rcases moves with same | ⟨rfl, stops⟩
  · rw [same]
    exact fits.onward (.refl stage) known idle fun guarded => queue ▸ fits.cleared guarded
  · rw [stops]
    exact fits.onward ⟨rfl, by decide, by rintro _ _ ⟨⟩, by decide⟩ known idle fun guarded =>
      absurd guarded (by decide)

theorem written {value : Word} {answer : Unit} (fits : stage.Fits config passed wants s)
    (applied : s.apply (.store Register.macConfiguration value) = .ok (answer, after))
    (toward : later.toward? = stage.toward?) (behind : later.Behind ↔ stage.Behind)
    (enabled : ∀ on, later.enables? passed = some on → Working.Enabled on value)
    (guarded : later.Guarded → stage.Guarded) (possible : later ≠ .caught) :
    later.Fits (some value) passed wants after := by
  have active : after.active = s.active := (Station.apply_target applied).2
  have cell : after.registers.cell Register.macConfiguration = value :=
    Station.store_value applied (by decide)
  have queue : after.interrupt.queue = s.interrupt.queue := Station.apply_queue applied
  refine ⟨?_, ?_, ?_, fun on said => cell ▸ enabled on said, ?_, ?_, possible⟩
  · rw [toward]
    exact fits.origin
  · rw [toward, active]
    exact fits.active
  · simp only [behind, active]
    exact fits.wants
  · rintro _ ⟨⟩
    exact cell
  · intro inside
    rw [queue]
    exact fits.cleared (guarded inside)

theorem store {offset : Nat} {value : Word} {answer : Unit}
    (fits : stage.Fits config passed wants s)
    (permitted : (serial stage config).Permits (.store offset value))
    (applied : s.apply (.store offset value) = .ok (answer, after)) :
    (stage.after (.store offset value) answer).Fits
      (PowerState.noted config (.store offset value) answer) passed wants after := by
  by_cases here : offset = Register.macConfiguration
  · subst here
    obtain ⟨_, _, ⟨⟩, writes⟩ := permitted.2 rfl
    have within (writes : ∃ old, config = some old ∧
        ∀ on, Working.Enabled on old → Working.Enabled on value) :
        stage.Fits (some value) passed wants after := by
      obtain ⟨old, read, keeps⟩ := writes
      refine fits.written applied rfl .rfl (fun on said => keeps on ?_) id fits.possible
      rw [← fits.known old read]
      exact fits.enabled on said
    cases stage with
    | started =>
      cases writes
      change PowerStage.configured.Fits _ passed wants after
      refine fits.written applied rfl (by decide) ?_ (by decide) (by decide)
      rintro _ ⟨⟩
      exact Working.enabled_macConfiguration
    | stopping =>
      obtain ⟨old, _, rfl⟩ := writes
      change PowerStage.stopped.Fits _ passed wants after
      refine fits.written applied rfl (by decide) ?_ (by decide) (by decide)
      rintro _ ⟨⟩
      exact Working.enabled_stopped old
    | _ => exact within writes
  · exact fits.unrelated (e := .store offset value) ⟨permitted.1, here⟩ applied

/-- A transition starts by looking whether it is one. -/
theorem setActive {on was : Bool} (fits : stage.Fits config passed wants s)
    (permitted : (serial stage config).Permits (.setActive on))
    (applied : s.apply (.setActive on) = .ok (was, after)) :
    (stage.after (.setActive on) was).Fits config passed wants after := by
  have read : was = s.active := Station.apply_reads applied
  obtain ⟨_, active⟩ := Station.apply_target applied
  have cell : after.registers.cell Register.macConfiguration =
      s.registers.cell Register.macConfiguration := by
    rw [Station.apply_registers applied]
    rfl
  have queue : after.interrupt.queue = s.interrupt.queue := Station.apply_queue applied
  have known (value : Word) (said : config = some value) :
      after.registers.cell Register.macConfiguration = value :=
    cell.trans (fits.known value said)
  have refused (within : PowerStage.refused.Within stage) (already : on = s.active) :
      PowerStage.refused.Fits config passed wants after :=
    fits.onward within fits.known ⟨active.trans already, cell⟩ fun guarded =>
      absurd guarded (by decide)
  obtain ⟨_, same⟩ := permitted
  -- The device is still where the completed transitions have left it, and so is the state category.
  cases on with
  | true =>
    cases same
    have before : s.active = passed.headD false := fits.active
    have wanted : wants = s.active := fits.wants
    cases was with
    | true => exact refused ⟨rfl, by decide, fun _ _ => id, fun _ => nofun⟩ read
    | false =>
      change PowerStage.started.Fits config passed wants after
      refine ⟨?_, active, ?_, nofun, known, fun guarded => absurd guarded (by decide), by decide⟩
      · rintro _ ⟨⟩
        exact before.symm.trans read.symm
      · rw [wanted, ← read, active]
        rfl
  | false =>
    cases same
    have before : s.active = passed.headD false := fits.active
    have wanted : wants = s.active := fits.wants
    cases was with
    | true =>
      change PowerStage.dropping.Fits config passed wants after
      refine ⟨?_, active, ?_, nofun, known, fun _ => queue ▸ fits.cleared (.inl rfl), by decide⟩
      · rintro _ ⟨⟩
        exact before.symm.trans read.symm
      · rw [wanted, ← read, active]
        rfl
    | false => exact refused ⟨rfl, by decide, fun _ _ => id, fun _ => nofun⟩ read

theorem acquire {answer : Unit} (fits : stage.Fits config passed wants s) (belongs : stage.Of op)
    (permitted : (serial stage config).Permits .acquire)
    (applied : s.apply .acquire = .ok (answer, after)) :
    (stage.after .acquire answer).Fits config passed (op.statesWanted wants) after := by
  obtain ⟨active, cell⟩ := Station.apply_idle applied nofun nofun nofun
  have queue : after.interrupt.queue = s.interrupt.queue := Station.apply_queue applied
  have known (value : Word) (said : config = some value) :
      after.registers.cell Register.macConfiguration = value :=
    cell.trans (fits.known value said)
  rcases permitted with (same | ⟨_, same⟩) | ⟨_, same | same⟩ <;> cases same <;> cases belongs
  · exact fits.keep ⟨active, cell⟩ fun _ => queue
  · have on : s.active = true := fits.active
    change PowerStage.awake.Fits config passed true after
    refine ⟨fits.origin, active.trans on, (active.trans on).symm, ?_, known,
      fun guarded => absurd guarded (by decide), by decide⟩
    rw [cell]
    exact fits.enabled
  · have off : s.active = false := fits.active
    change PowerStage.dropped.Fits config passed false after
    exact ⟨fits.origin, active.trans off, (active.trans off).symm, nofun, known,
      fun _ => queue ▸ fits.cleared (.inr (.inl rfl)), by decide⟩

theorem armed {direction : Direction} {registered : Bool} (fits : stage.Fits config passed wants s)
    (permitted : (serial stage config).Permits (.armed direction))
    (applied : s.apply (.armed direction) = .ok (registered, after)) :
    (stage.after (.armed direction) registered).Fits config passed wants after := by
  obtain ⟨_, same⟩ := permitted
  cases same
  have none : registered = false := by
    have read : registered = (s.interrupt.queue direction).isSome := Station.apply_reads applied
    rw [read, fits.cleared (.inr (.inr (.inr rfl))) direction]
    rfl
  subst none
  exact fits.keep (Station.apply_idle applied nofun nofun nofun) fun _ =>
    Station.apply_queue applied

theorem release {answer : Unit} (fits : stage.Fits config passed wants s)
    (applied : s.apply .release = .ok (answer, after)) :
    (stage.after .release answer).Fits config passed wants after := by
  have idle := Station.apply_idle applied nofun nofun nofun
  have queue : after.interrupt.queue = s.interrupt.queue := Station.apply_queue applied
  cases stage with
  | dropped =>
    change PowerStage.checking.Fits config passed wants after
    exact fits.onward ⟨rfl, by decide, fun _ _ => id, by decide⟩ fits.known idle
      fun _ => queue ▸ fits.cleared (.inr (.inr (.inl rfl)))
  | _ => exact fits.keep idle fun _ => queue

theorem act {e : Effect} {answer : e.Answer} (fits : stage.Fits config passed wants s)
    (belongs : stage.Of op) (permitted : (serial stage config).Permits e)
    (applied : s.apply e = .ok (answer, after)) :
    (stage.after e answer).Fits (PowerState.noted config e answer) passed (e.statesWanted op wants)
      after := by
  cases e with
  | load => exact fits.load applied
  | store => exact fits.store permitted applied
  | setActive => exact fits.setActive permitted applied
  | acquire => exact fits.acquire belongs permitted applied
  | release => exact fits.release applied
  | armed => exact fits.armed permitted applied
  | setQueue | takeQueue =>
    rcases permitted with same | ⟨_, same⟩ <;> cases same
    exact fits.keep (Station.apply_idle applied nofun nofun nofun) fun guarded =>
      absurd guarded (by decide)
  | fault => exact answer.elim
  | attach | detach => exact permitted.elim
  | _ => exact fits.unrelated trivial applied

theorem other {e : Effect} {answer : e.Answer} (fits : stage.Fits config passed wants s)
    (permitted : apart.Permits e) (applied : s.apply e = .ok (answer, after))
    (queue : stage.Guarded → (e.interrupt s.interrupt).queue = s.interrupt.queue) :
    stage.Fits config passed wants after := by
  refine fits.keep (Station.apply_idle applied ?_ ?_ ?_) fun guarded => ?_
  · rintro on rfl
    obtain ⟨_, same⟩ := permitted
    cases same
  · rintro adapter rfl
    exact permitted
  · rintro value rfl
    obtain ⟨_, _, same, _⟩ := permitted.2 rfl
    cases same
  · exact (Station.apply_queue applied).trans (queue guarded)

theorem conclude (fits : stage.Fits config passed wants s) (ends : stage.Over) :
    PowerStage.still.Fits none (stage.passed?.toList ++ passed) wants s := by
  have unguarded (guarded : PowerStage.still.Guarded) (direction : Direction) :
      s.interrupt.queue direction = none :=
    absurd guarded (by decide)
  rcases ends with rfl | rfl | rfl | rfl
  · exact ⟨fits.origin, fits.active, fits.wants, fits.enabled, nofun, unguarded, by decide⟩
  · exact ⟨fits.origin, fits.active, fits.wants, fits.enabled, nofun, unguarded, by decide⟩
  · exact ⟨nofun, fits.active, fits.wants, fits.enabled, nofun, unguarded, by decide⟩
  · exact ⟨nofun, fits.active, fits.wants, fits.enabled, nofun, unguarded, by decide⟩

theorem alternating (fits : stage.Fits config passed wants s) (before : Alternating passed) :
    Alternating (stage.passed?.toList ++ passed) := by
  have turns {on : Bool} (toward : stage.toward? = some on) : on = !passed.headD false := by
    rw [fits.origin on toward, Bool.not_not]
  cases stage with
  | awake | stopped => exact ⟨turns rfl, before⟩
  | _ => exact before

end PowerStage.Fits

def PowerState.Fits : PowerState → List Bool → Bool → Station → Prop
  | apart => PowerStage.still.Fits none
  | serial stage config => stage.Fits config

theorem PowerState.Fits.keep {q : PowerState} {passed : List Bool} {wants : Bool}
    {s after : Station} (fits : q.Fits passed wants s)
    (idle : after.active = s.active ∧ after.registers.cell Register.macConfiguration =
      s.registers.cell Register.macConfiguration)
    (queue : after.interrupt.queue = s.interrupt.queue) : q.Fits passed wants after := by
  cases q <;> exact PowerStage.Fits.keep fits idle fun _ => queue

/-- At most one call in progress is about the power state, and it fits. -/
def PowerSound (history : History) (s : Station) (wants : Bool) : Prop :=
  ∃ caller, (∀ depth, depth ≠ caller → powerLaw.state depth history = apart) ∧
    (powerLaw.state caller history).Fits (transitions history) wants s

namespace PowerSound

variable {history : History} {entry : Entry} {s after : Station} {wants : Bool} {n : Nat}
  {op : Operation}

theorem onward (sound : PowerSound history s wants)
    (states : ∀ depth, powerLaw.state depth (entry :: history) = powerLaw.state depth history)
    (passed : transitions (entry :: history) = transitions history)
    (idle : after.active = s.active ∧ after.registers.cell Register.macConfiguration =
      s.registers.cell Register.macConfiguration)
    (queue : after.interrupt.queue = s.interrupt.queue) :
    PowerSound (entry :: history) after wants := by
  obtain ⟨caller, others, fits⟩ := sound
  refine ⟨caller, fun depth apart => (states depth).trans (others depth apart), ?_⟩
  rw [states, passed]
  exact fits.keep idle queue

theorem at_serial {stage : PowerStage} {config : Option Word} (sound : PowerSound history s wants)
    (here : powerLaw.state n history = serial stage config) :
    (∀ depth, depth ≠ n → powerLaw.state depth history = apart) ∧
      stage.Fits config (transitions history) wants s := by
  obtain ⟨caller, others, fits⟩ := sound
  obtain rfl : n = caller := by
    refine Decidable.byContradiction fun differs => ?_
    rw [others n differs] at here
    cases here
  rw [here] at fits
  exact ⟨others, fits⟩

/-- While nobody is about the power state, it is at rest. -/
theorem at_rest (sound : PowerSound history s wants)
    (quiet : ∀ depth, powerLaw.state depth history = apart) :
    PowerStage.still.Fits none (transitions history) wants s := by
  obtain ⟨caller, _, fits⟩ := sound
  rw [quiet caller] at fits
  exact fits

theorem begin (sound : PowerSound history s wants)
    (idle : powerLaw.state n history = apart)
    (alone : op.serialized = true → ∀ depth, powerLaw.state depth history = apart)
    (cleared : op = .leaveWorking → ∀ direction, s.interrupt.queue direction = none) :
    PowerSound (.begun n (.operation op) :: history) s wants := by
  have plain (begins : PowerState.begin op = apart) :
      PowerSound (.begun n (.operation op) :: history) s wants := by
    refine sound.onward (fun depth => ?_) rfl ⟨rfl, rfl⟩ rfl
    by_cases here : n = depth
    · subst here
      simp [begins, idle]
    · simp [here]
  have enters {stage : PowerStage} (begins : PowerState.begin op = serial stage none)
      (serialized : op.serialized = true) (within : stage.Within .still)
      (guarded : stage.Guarded → op = .leaveWorking) :
      PowerSound (.begun n (.operation op) :: history) s wants := by
    have quiet := alone serialized
    refine ⟨n, fun depth apart => by simp [Ne.symm apart, quiet depth], ?_⟩
    have fits : stage.Fits none (transitions history) wants s :=
      (sound.at_rest quiet).onward within nofun ⟨rfl, rfl⟩ fun inside => cleared (guarded inside)
    rw [Law.state_begun, if_pos rfl, powerLaw.start_eq, begins]
    exact fits
  cases op with
  | enterWorking =>
    exact enters rfl rfl ⟨rfl, by decide, fun _ _ => id, by decide⟩ fun guarded =>
      absurd guarded (by decide)
  | leaveWorking => exact enters rfl rfl ⟨rfl, by decide, fun _ _ => id, by decide⟩ fun _ => rfl
  | deferred => exact enters rfl rfl (.refl _) fun guarded => absurd guarded (by decide)
  | _ => exact plain rfl

/-- Only transitions change what is wanted of the state category. -/
theorem statesWanted_eq {e : Effect} (plain : op.serialized = false) :
    e.statesWanted op wants = wants := by
  cases e with
  | acquire => cases op <;> first | rfl | cases plain
  | _ => rfl

theorem act {e : Effect} {answer : e.Answer} (sound : PowerSound history s wants)
    (acting : powerLaw.Acting history n op e) (locking : lockLaw.Acting history n op e)
    (single : SingleHolder s.interrupt.lock history) (applied : s.apply e = .ok (answer, after)) :
    PowerSound (.acted n op e answer :: history) after (e.statesWanted op wants) := by
  have belongs := powerLaw.called n history
  rw [acting.called] at belongs
  cases own : powerLaw.state n history with
  | serial stage config =>
    have permitted : (serial stage config).Permits e := own ▸ acting.permitted
    rw [own] at belongs
    obtain ⟨_, ⟨⟩, belongs⟩ := belongs
    obtain ⟨others, fits⟩ := sound.at_serial own
    refine ⟨n, fun depth apart => by simpa [Ne.symm apart] using others depth apart, ?_⟩
    rw [Law.state_acted, if_pos rfl, own]
    exact fits.act belongs permitted applied
  | apart =>
    have permitted : apart.Permits e := own ▸ acting.permitted
    rw [own] at belongs
    rw [statesWanted_eq (belongs op rfl)]
    obtain ⟨caller, others, fits⟩ := sound
    have states (depth : Nat) : powerLaw.state depth (.acted n op e answer :: history) =
        powerLaw.state depth history := by
      by_cases here : n = depth
      · subst here
        simp [own, PowerState.after]
      · simp [here]
    refine ⟨caller, fun depth apart => (states depth).trans (others depth apart), ?_⟩
    rw [states]
    cases calling : powerLaw.state caller history with
    | apart =>
      rw [calling] at fits
      exact PowerStage.Fits.other fits permitted applied fun guarded => absurd guarded (by decide)
    | serial stage config =>
      rw [calling] at fits
      refine PowerStage.Fits.other fits permitted applied fun guarded => ?_
      -- A call that lets others in while the queues have to stay cleared holds the lock.
      have lower : caller < n := by
        rcases Nat.lt_trichotomy caller n with lower | same | higher
        · exact lower
        · rw [same, own] at calling
          cases calling
        · rw [acting.above caller higher] at calling
          cases calling
      have free : ¬ stage.Bound := by
        have yields := acting.below caller lower
        rw [calling] at yields
        exact yields
      have drops : stage = .dropped := by
        rcases guarded with rfl | rfl | rfl | rfl <;> first | rfl | exact absurd (by decide) free
      subst drops
      have holds := powerLaw.holding_of_dropped calling
      have apart (here : Holding history n) : False := by
        have same := single.holder_unique holds here
        omega
      cases e with
      | setQueue | takeQueue => exact (apart locking.permitted).elim
      | attach => exact permitted.elim
      | _ => rfl

/-- Who enters the section of leaving the working state finds the queues cleared. -/
theorem cleared_of_acquire (sound : PowerSound history s wants)
    (acting : powerLaw.Acting history n .leaveWorking .acquire) (direction : Direction) :
    s.interrupt.queue direction = none := by
  have belongs := powerLaw.called n history
  have permitted : (powerLaw.state n history).Permits .acquire := acting.permitted
  rw [acting.called] at belongs
  rcases permitted with (here | ⟨_, here⟩) | ⟨_, here | here⟩ <;> rw [here] at belongs
  · cases belongs _ rfl
  · obtain ⟨_, ⟨⟩, ⟨⟩⟩ := belongs
  · obtain ⟨_, ⟨⟩, ⟨⟩⟩ := belongs
  · exact (sound.at_serial here).2.cleared (.inr (.inl rfl)) direction

theorem renew (sound : PowerSound history s wants) (called : calls.state n history = some op)
    (again : op = .deferred) (steady : (powerLaw.state n history).Steady) :
    PowerSound (.renewed n op :: history) s wants := by
  subst again
  rcases steady with idle | ⟨config, still⟩
  · have belongs := powerLaw.called n history
    rw [idle, called] at belongs
    cases belongs _ rfl
  · obtain ⟨others, fits⟩ := sound.at_serial still
    refine ⟨n, fun depth apart => by simpa [Ne.symm apart] using others depth apart, ?_⟩
    rw [Law.state_renewed, if_pos rfl]
    exact fits.onward (.refl _) nofun ⟨rfl, rfl⟩ fits.cleared

theorem finish {answer : Answer} (sound : PowerSound history s wants)
    (alternating : Alternating (transitions history))
    (concludes : PowerState.Concludes op (.finished answer) (powerLaw.state n history)) :
    PowerSound (.ended n op answer :: history) s wants ∧
      Alternating (transitions (.ended n op answer :: history)) := by
  obtain ⟨ends, passed⟩ := concludes
  have passes : transitions (.ended n op answer :: history) =
      (powerLaw.state n history).passed?.toList ++ transitions history := by
    rw [passed]
    rfl
  cases own : powerLaw.state n history with
  | apart =>
    rw [own] at passes
    refine ⟨sound.onward (fun depth => ?_) passes ⟨rfl, rfl⟩ rfl, passes ▸ alternating⟩
    by_cases here : n = depth
    · subst here
      simp [own]
    · simp [here]
  | serial stage config =>
    rw [own] at passes ends
    obtain ⟨others, fits⟩ := sound.at_serial own
    refine ⟨⟨n, fun depth apart => by simpa [Ne.symm apart] using others depth apart, ?_⟩,
      passes ▸ fits.alternating alternating⟩
    rw [passes, Law.state_ended, if_pos rfl]
    exact fits.conclude ends

end PowerSound

end EthernetMac
