import EthernetMac.Proofs.Interrupt.Lock
import EthernetMac.Proofs.Link.Duty

namespace EthernetMac

open Program

namespace Working

def Enabled (on : Bool) (config : Word) : Prop :=
  MacConfiguration.receiverEnable.test config = on ∧
    MacConfiguration.transmitterEnable.test config = on

theorem enabled_macConfiguration : Enabled true macConfiguration :=
  ⟨by decide, by decide⟩

theorem enabled_stopped (config : Word) : Enabled false (stopped config) :=
  ⟨(Field.test_set_of_apart (by decide) (by decide) _ _).trans
      (Field.test_assign MacConfiguration.receiverEnable (by decide) false config),
    Field.test_assign MacConfiguration.transmitterEnable (by decide) false _⟩

theorem Enabled.reconcile {on : Bool} {config : Word} (enabled : Enabled on config)
    (status : Word) : Enabled on (reconcile config status) := by
  have duplex (field : Field) (apart : MacConfiguration.fullDuplex.Apart field)
      (wide : 0 < field.width) (full : Bool) :
      field.test (MacConfiguration.fullDuplex.assign full config) = field.test config :=
    Field.test_set_of_apart apart wide _ _
  have speed (field : Field) (apart : MacConfiguration.portSpeed.Apart field)
      (wide : 0 < field.width) (port word : Word) :
      field.test (MacConfiguration.portSpeed.set port word) = field.test word :=
    Field.test_set_of_apart apart wide _ _
  unfold EthernetMac.reconcile
  obtain ⟨receiver, transmitter⟩ := enabled
  split
  · exact ⟨((speed _ (by decide) (by decide) _ _).trans
        (duplex _ (by decide) (by decide) _)).trans receiver,
      ((speed _ (by decide) (by decide) _ _).trans
        (duplex _ (by decide) (by decide) _)).trans transmitter⟩
  · exact ⟨(duplex _ (by decide) (by decide) _).trans receiver,
      (duplex _ (by decide) (by decide) _).trans transmitter⟩

end Working

/-- The power transition that a call completes with `answer`: to the working state, or out of it. -/
def Operation.transition? : Operation → Answer → Option Bool
  | enterWorking, .ok => some true
  | leaveWorking, .ok => some false
  | _, _ => none

inductive PowerStage where
  | still
  | entering
  /-- The device is active, and nothing is written yet. -/
  | started
  | configured
  | awake
  | leaving
  | dropping
  | dropped
  /-- About to look whether the queues are cleared. -/
  | checking
  /-- A queue is still registered. -/
  | caught
  | stopping
  | stopped
  | refused
  deriving DecidableEq

namespace PowerStage

def after : PowerStage → (e : Effect) → e.Answer → PowerStage
  | entering, .setActive _, was => if was then refused else started
  | started, .store offset _, _ => if offset = Register.macConfiguration then configured else started
  | configured, .acquire, _ => awake
  | leaving, .setActive _, was => if was then dropping else refused
  | dropping, .acquire, _ => dropped
  | dropped, .release, _ => checking
  | checking, .armed _, registered => if registered then caught else checking
  | checking, .load offset, _ => if offset = Register.macConfiguration then stopping else checking
  | stopping, .store offset _, _ => if offset = Register.macConfiguration then stopped else stopping
  | stage, _, _ => stage

def Writes (config : Option Word) (value : Word) : PowerStage → Prop
  | started => value = Working.macConfiguration
  | stopping => ∃ old, config = some old ∧ value = Working.stopped old
  | _ => ∃ old, config = some old ∧ ∀ on, Working.Enabled on old → Working.Enabled on value

def Guarded (stage : PowerStage) : Prop :=
  stage = leaving ∨ stage = dropping ∨ stage = dropped ∨ stage = checking

instance (stage : PowerStage) : Decidable stage.Guarded := inferInstanceAs (Decidable (_ ∨ _))

def Bound (stage : PowerStage) : Prop := stage = leaving ∨ stage = dropping ∨ stage = checking

instance (stage : PowerStage) : Decidable stage.Bound := inferInstanceAs (Decidable (_ ∨ _))

def Over (stage : PowerStage) : Prop :=
  stage = still ∨ stage = refused ∨ stage = awake ∨ stage = stopped

instance (stage : PowerStage) : Decidable stage.Over := inferInstanceAs (Decidable (_ ∨ _))

def passed? : PowerStage → Option Bool
  | awake => some true
  | stopped => some false
  | _ => none

def Of : PowerStage → Operation → Prop
  | still, op => op = .deferred
  | entering, op | started, op | configured, op | awake, op => op = .enterWorking
  | refused, op => op = .enterWorking ∨ op = .leaveWorking
  | _, op => op = .leaveWorking

end PowerStage

/-- What a call does about the power state. A serialized one can have read the configuration, or
written it. -/
inductive PowerState where
  | apart
  | serial (stage : PowerStage) (config : Option Word)

namespace PowerState

def begin : Operation → PowerState
  | .enterWorking => serial .entering none
  | .leaveWorking => serial .leaving none
  | .deferred => serial .still none
  | _ => apart

def Steady (q : PowerState) : Prop := q = apart ∨ ∃ config, q = serial .still config

def Permits (q : PowerState) : Effect → Prop
  | .load offset => RegisterFile.InWindow offset
  | .store offset value => RegisterFile.InWindow offset ∧ (offset = Register.macConfiguration →
      ∃ stage config, q = serial stage config ∧ stage.Writes config value)
  | .setActive on => ∃ config, q = serial (if on then .entering else .leaving) config
  | .acquire => q.Steady ∨ ∃ config, q = serial .configured config ∨ q = serial .dropping config
  | .setQueue _ _ | .takeQueue _ => q.Steady
  | .armed _ => ∃ config, q = serial .checking config
  | .fault _ => ∃ config, q = serial .caught config
  | .attach _ | .detach => False
  | _ => True

def noted (config : Option Word) : (e : Effect) → e.Answer → Option Word
  | .load offset, value => if offset = Register.macConfiguration then some value else config
  | .store offset value, _ => if offset = Register.macConfiguration then some value else config
  | _, _ => config

def after (q : PowerState) (e : Effect) (answer : e.Answer) : PowerState :=
  match q with
  | apart => apart
  | serial stage config => serial (stage.after e answer) (noted config e answer)

def Bound : PowerState → Prop
  | apart => False
  | serial stage _ => stage.Bound

def Over : PowerState → Prop
  | apart => True
  | serial stage _ => stage.Over

def passed? : PowerState → Option Bool
  | apart => none
  | serial stage _ => stage.passed?

/-- A round that is over leaves the transition that its answer reports. -/
def Concludes (op : Operation) : Round Answer → PowerState → Prop
  | .again, q => q.Steady
  | .finished answer, q => q.Over ∧ q.passed? = op.transition? answer

def Of : PowerState → Option Operation → Prop
  | apart, call => ∀ op, call = some op → op.serialized = false
  | serial stage _, call => ∃ op, call = some op ∧ stage.Of op

end PowerState

def powerLaw : Law PowerState where
  idle := .apart
  start := .begin
  permits := PowerState.Permits
  after := PowerState.after
  yields q := ¬ q.Bound
  ends := PowerState.Over
  idle_yields := id

namespace powerLaw

@[simp] theorem idle_eq : powerLaw.idle = .apart := rfl

@[simp] theorem start_eq : powerLaw.start = PowerState.begin := rfl

@[simp] theorem permits_eq : powerLaw.permits = PowerState.Permits := rfl

@[simp] theorem after_eq : powerLaw.after = PowerState.after := rfl

@[simp] theorem yields_eq (q : PowerState) : powerLaw.yields q ↔ ¬ q.Bound := .rfl

@[simp] theorem ends_eq : powerLaw.ends = PowerState.Over := rfl

def Unrelated : Effect → Prop
  | .load offset | .store offset _ =>
    RegisterFile.InWindow offset ∧ offset ≠ Register.macConfiguration
  | .setActive _ | .acquire | .release | .armed _ | .setQueue _ _ | .takeQueue _ | .fault _
  | .attach _ | .detach => False
  | _ => True

theorem ignores {q : PowerState} (e : Effect) (unrelated : Unrelated e) : powerLaw.Ignores q e := by
  cases e with
  | load offset =>
    obtain ⟨inside, other⟩ := unrelated
    refine ⟨inside, fun _ => ?_⟩
    cases q with
    | apart => rfl
    | serial stage config => cases stage <;> simp [PowerState.after, PowerStage.after, PowerState.noted, other]
  | store offset value =>
    obtain ⟨inside, other⟩ := unrelated
    refine ⟨⟨inside, fun same => absurd same other⟩, fun _ => ?_⟩
    cases q with
    | apart => rfl
    | serial stage config => cases stage <;> simp [PowerState.after, PowerStage.after, PowerState.noted, other]
  | setActive | acquire | release | armed | setQueue | takeQueue | fault | attach | detach =>
    exact unrelated.elim
  | _ =>
    refine ⟨trivial, fun _ => ?_⟩
    cases q with
    | apart => rfl
    | serial stage config => cases stage <;> rfl

theorem of_only {q : PowerState} {α : Type} {p : Program α} {allowed : Effect → Prop}
    (free : ¬ q.Bound) (only : p.Only allowed) (unrelated : ∀ e, allowed e → Unrelated e) :
    p.Obeys powerLaw (fun _ after => after = q) q :=
  .of_only only (fun e inside => ignores e (unrelated e inside)) free

theorem of_act {q : PowerState} (free : ¬ q.Bound) (e : Effect) (unrelated : Unrelated e) :
    (act e).Obeys powerLaw (fun _ after => after = q) q :=
  of_only free (.act unrelated) fun _ => id

theorem of_store {q : PowerState} (free : ¬ q.Bound) (offset : Nat) (value : Word)
    (unrelated : RegisterFile.InWindow offset ∧ offset ≠ Register.macConfiguration) :
    (store offset value).Obeys powerLaw (fun _ after => after = q) q :=
  of_act free (.store offset value) unrelated

theorem unrelated_of_mask (e : Effect) (inside : maskActions e) : Unrelated e := by
  cases e with
  | store offset value => rcases inside with rfl | rfl <;> exact ⟨by decide, by decide⟩
  | mask | setMask => trivial
  | _ => exact inside.elim

theorem free_at {stage : PowerStage} {config : Option Word} (free : ¬ stage.Bound) :
    ¬ (PowerState.serial stage config).Bound := free

theorem free_of_steady {q : PowerState} (steady : q.Steady) : ¬ q.Bound := by
  rcases steady with rfl | ⟨config, rfl⟩
  · exact id
  · exact free_at (by decide)

theorem of_section {q : PowerState} (steady : q.Steady) {p : Program Unit}
    (only : p.Only sectionActions) : p.Obeys powerLaw (fun _ after => after = q) q := by
  refine .of_only only (fun e inside => ?_) (free_of_steady steady)
  cases e with
  | acquire =>
    refine ⟨.inl steady, fun _ => ?_⟩
    rcases steady with rfl | ⟨config, rfl⟩ <;> rfl
  | setQueue | takeQueue =>
    refine ⟨steady, fun _ => ?_⟩
    rcases steady with rfl | ⟨config, rfl⟩ <;> rfl
  | release =>
    refine ⟨trivial, fun _ => ?_⟩
    rcases steady with rfl | ⟨config, rfl⟩ <;> rfl
  | wanted | count | notify => exact ignores _ trivial
  | store | mask | setMask => exact ignores _ (unrelated_of_mask _ inside)
  | _ => exact inside.elim

theorem refresh {stage : PowerStage} (plain : stage = .still ∨ stage = .configured)
    (config : Option Word) :
    (discard refreshLink).Obeys powerLaw (fun _ after => ∃ config, after = .serial stage config)
      (.serial stage config) := by
  have free (config : Option Word) : ¬ (PowerState.serial stage config).Bound := by
    change ¬ stage.Bound
    rcases plain with rfl | rfl <;> decide
  have reads (value : Word) : powerLaw.after (.serial stage config)
      (.load Register.macConfiguration) value = .serial stage (some value) := by
    rcases plain with rfl | rfl <;> rfl
  rw [obeys_discard]
  unfold refreshLink
  refine Obeys.seq (of_act (free config) (.load _) ⟨by decide, by decide⟩) fun status => ?_
  rw [obeys_bind, obeys_load]
  refine ⟨(by decide : RegisterFile.InWindow Register.macConfiguration), fun value => ?_⟩
  rw [reads value]
  refine ⟨free _, ?_⟩
  have written : (onlyIf (reconcile value status != value)
      (store Register.macConfiguration (reconcile value status))).Obeys powerLaw
      (fun _ after => ∃ config, after = .serial stage config) (.serial stage (some value)) := by
    have writes : powerLaw.after (.serial stage (some value))
        (.store Register.macConfiguration (reconcile value status)) () =
          .serial stage (some (reconcile value status)) := by
      rcases plain with rfl | rfl <;> rfl
    have allowed : stage.Writes (some value) (reconcile value status) := by
      rcases plain with rfl | rfl <;> exact ⟨value, rfl, fun _ enabled => enabled.reconcile status⟩
    rw [obeys_onlyIf, obeys_store, writes]
    exact ⟨fun _ => ⟨⟨by decide, fun _ => ⟨stage, _, rfl, allowed⟩⟩, free _, _, rfl⟩, fun _ => ⟨_, rfl⟩⟩
  rw [obeys_bind]
  refine written.mono ?_
  rintro _ _ ⟨config, rfl⟩
  exact (of_act (free config) (.publishLink _) trivial).seq fun _ => ⟨config, rfl⟩

theorem enterWorking (a : Adapter) :
    (Task.once a.enterWorking Task.outcome).Obeys powerLaw
      (PowerState.Concludes .enterWorking) (.serial .entering none) := by
  have write (offset : Nat) (value : Word)
      (unrelated : RegisterFile.InWindow offset ∧ offset ≠ Register.macConfiguration) :
      (store offset value).Obeys powerLaw (fun _ after => after = .serial .started none)
        (.serial .started none) :=
    of_store (free_at (by decide)) offset value unrelated
  rw [obeys_once]
  unfold Adapter.enterWorking
  rw [obeys_bind]
  refine ⟨⟨none, rfl⟩, fun was => ⟨by rintro ⟨⟩, ?_⟩⟩
  rw [obeys_done, obeys_ite]
  constructor
  · rintro rfl
    exact ⟨.inr (.inl rfl), rfl⟩
  · intro inactive
    have started : powerLaw.after (.serial .entering none) (.setActive true) was =
        .serial .started none := by
      cases was with
      | true => exact absurd rfl inactive
      | false => rfl
    rw [started]
    simp only [Features.queueSize_txFifo, Features.queueSize_rxFifo, pure_bind]
    refine (write _ _ ⟨by decide, by decide⟩).seq fun _ => ?_
    refine (write _ _ ⟨by decide, by decide⟩).seq fun _ => ?_
    refine (write _ _ ⟨by decide, by decide⟩).seq fun _ => ?_
    refine (write _ _ ⟨by decide, by decide⟩).seq fun _ => ?_
    refine (write _ _ ⟨by decide, by decide⟩).seq fun _ => ?_
    rw [obeys_bind, obeys_store]
    refine ⟨⟨(by decide : RegisterFile.InWindow Register.macConfiguration),
      fun _ => ⟨.started, none, rfl, rfl⟩⟩, free_at (by decide), ?_⟩
    rw [obeys_bind]
    refine Obeys.mono (refresh (.inr rfl) _) ?_
    rintro _ _ ⟨config, rfl⟩
    have configured : ¬ (PowerState.serial .configured config).Bound := free_at (by decide)
    have awake : ¬ (PowerState.serial .awake config).Bound := free_at (by decide)
    refine Obeys.seq (of_act configured (.load _) ⟨by decide, by decide⟩) fun stale => ?_
    refine Obeys.seq (.onlyIf fun _ => of_store configured _ _ ⟨by decide, by decide⟩) fun _ => ?_
    refine Obeys.andThen (r := .serial .awake config) ?_ fun _ => ⟨.inr (.inr (.inl rfl)), rfl⟩
    unfold Interrupt.enable
    rw [obeys_locked]
    refine ⟨.inr ⟨config, .inl rfl⟩, fun _ => ⟨by rintro ⟨⟩, ?_⟩⟩
    refine (of_only awake (Interrupt.addWanted_only _) unrelated_of_mask).mono ?_
    rintro _ _ rfl
    exact ⟨trivial, fun _ => ⟨by rintro ⟨⟩, rfl⟩⟩

/-- A call that still has to look at a queue finds it cleared, or stops there. -/
theorem requireCleared (direction : Direction) :
    (Adapter.requireCleared direction).Obeys powerLaw
      (fun _ after => after = .serial .checking none) (.serial .checking none) := by
  refine ⟨⟨none, rfl⟩, fun registered => ⟨by rintro ⟨⟩, ?_⟩⟩
  cases registered with
  | true => exact ⟨⟨none, rfl⟩, by rintro ⟨⟩⟩
  | false => rfl

theorem leaveWorking :
    (Task.once Adapter.leaveWorking Task.outcome).Obeys powerLaw
      (PowerState.Concludes .leaveWorking) (.serial .leaving none) := by
  have inside : RegisterFile.InWindow Register.macConfiguration := by decide
  rw [obeys_once]
  unfold Adapter.leaveWorking
  rw [obeys_bind]
  refine ⟨⟨none, rfl⟩, fun was => ⟨by rintro ⟨⟩, ?_⟩⟩
  rw [obeys_done, obeys_ite]
  constructor
  · rintro rfl
    refine Obeys.andThen (r := .serial .checking none) ?_ fun _ => ?_
    · unfold Interrupt.disable
      rw [obeys_locked]
      refine ⟨.inr ⟨none, .inr rfl⟩, fun _ => ⟨by rintro ⟨⟩, ?_⟩⟩
      have dropped : ¬ (PowerState.serial .dropped none).Bound := free_at (by decide)
      refine (of_only dropped (Interrupt.removeWanted_only _) unrelated_of_mask).mono ?_
      rintro _ _ rfl
      exact ⟨trivial, fun _ => ⟨by rintro ⟨⟩, rfl⟩⟩
    -- Nobody else acts between the end of the section and these two looks at the queues.
    refine (requireCleared _).seq fun _ => (requireCleared _).seq fun _ => ?_
    rw [obeys_bind, obeys_load]
    refine ⟨inside, fun config => ⟨free_at (by decide : ¬ PowerStage.stopping.Bound), ?_⟩⟩
    rw [obeys_bind, obeys_store]
    refine ⟨⟨inside, fun _ => ⟨.stopping, some config, rfl, config, rfl, rfl⟩⟩,
      free_at (by decide : ¬ PowerStage.stopped.Bound), ?_⟩
    exact ⟨.inr (.inr (.inr rfl)), rfl⟩
  · intro inactive
    cases was with
    | true => exact absurd rfl inactive
    | false => exact ⟨.inr (.inl rfl), rfl⟩

theorem deferred :
    (Task.deferred (discard refreshLink)).Obeys powerLaw (PowerState.Concludes .deferred)
      (.serial .still none) := by
  have free (config : Option Word) : ¬ (PowerState.serial .still config).Bound :=
    free_at (by decide)
  unfold Task.deferred Interrupt.work
  simp only [obeys_bind]
  refine ⟨trivial, fun word => ⟨by rintro ⟨⟩, ?_⟩⟩
  rw [obeys_done, obeys_ite]
  refine ⟨fun _ => ⟨.inl rfl, rfl⟩, fun _ => ?_⟩
  rw [obeys_bind]
  unfold Interrupt.serve
  refine Obeys.seq (.onlyIf fun _ => of_act (free _) (.count .abnormal) trivial) fun _ => ?_
  refine Obeys.seq (.onlyIf fun _ => of_act (free _) (.count .fatal) trivial) fun _ => ?_
  have refreshed : (onlyIf (Causes.ofWord word).link do
      act (.count .linkChange)
      discard refreshLink).Obeys powerLaw (fun _ after => ∃ config, after = .serial .still config)
      (.serial .still none) := by
    rw [obeys_onlyIf]
    refine ⟨fun _ => ?_, fun _ => ⟨none, rfl⟩⟩
    exact (of_act (free _) (.count .linkChange) trivial).seq fun _ => refresh (.inl rfl) _
  rw [obeys_bind]
  refine refreshed.mono ?_
  rintro _ _ ⟨config, rfl⟩
  refine (Obeys.onlyIf fun _ => of_section (.inr ⟨config, rfl⟩)
    (Interrupt.serveQueues_only _)).mono ?_
  rintro _ _ rfl
  exact .inr ⟨config, rfl⟩

theorem filter (a : Adapter) (flags : FilterFlags) (multicast : List LinkLayerAddress) :
    (applyFilter a.features.addressCount a.current flags multicast).Obeys powerLaw
      (fun _ after => after = .apart) .apart := by
  refine of_only id (applyFilter_only ..) fun e inside => ?_
  have few := a.features.addressCount_lt
  cases e with
  | store offset value =>
    rcases inside with rfl | ⟨slot, less, either⟩
    · exact ⟨by decide, by decide⟩
    · have low : slot < 32 := by omega
      change (offset < 0x1200 ∧ offset % 4 = 0) ∧ offset ≠ 0
      simp only [Register.addressHigh, Register.addressLow, Register.addressTable,
        Register.addressStride] at either
      omega
  | fault cause =>
    have many : 32 ≤ Register.slotLimit := by decide
    exact absurd inside.2 (by omega)
  | _ => exact inside.elim

theorem handle : Interrupt.handle.Obeys powerLaw (fun _ after => after = .apart) .apart := by
  refine of_only id Interrupt.handle_only fun e inside => ?_
  cases e with
  | load offset => rcases inside with rfl | rfl | rfl <;> exact ⟨by decide, by decide⟩
  | store offset value =>
    cases inside
    exact ⟨by decide, by decide⟩
  | merge | schedule | count => trivial
  | _ => exact inside.elim

/-- What leaves the power state to the device: nothing else writes the configuration. Plain storage
ends with the register window. -/
def Leaves : Operation → Prop
  | .prepare _ _ | .release | .enable _ | .disable _ => False
  | .read offset | .load offset => RegisterFile.InWindow offset
  | .write offset _ => RegisterFile.InWindow offset ∧ offset ≠ Register.macConfiguration
  | _ => True

instance : DecidablePred Leaves
  | .prepare _ _ | .release | .enable _ | .disable _ => inferInstanceAs (Decidable False)
  | .read _ | .load _ => inferInstanceAs (Decidable (RegisterFile.InWindow _))
  | .write _ _ => inferInstanceAs (Decidable (_ ∧ _))
  | .enterWorking | .leaveWorking | .filter _ _ | .register _ _ | .interrupt | .deferred | .wanted
  | .statistics | .inspect | .describe => inferInstanceAs (Decidable True)

theorem task {op : Operation} (leaves : Leaves op) (a : Adapter) :
    (op.task (.device a)).Obeys powerLaw (PowerState.Concludes op) (powerLaw.start op) := by
  have once {α : Type} {p : Program α} {answer : α → Answer}
      (plain : op.serialized = false)
      (kept : p.Obeys powerLaw (fun _ after => after = .apart) .apart) :
      (Task.once p answer).Obeys powerLaw (PowerState.Concludes op) .apart := by
    refine kept.seq fun value => ⟨trivial, ?_⟩
    cases op <;> first | rfl | cases plain
  have within {p : Program Unit} (only : p.Only sectionActions) :
      p.Obeys powerLaw (fun _ after => after = .apart) .apart :=
    of_section (.inl rfl) only
  have read {offset : Nat} (inside : RegisterFile.InWindow offset) :
      (load offset).Obeys powerLaw (fun _ after => after = .apart) .apart :=
    ⟨inside, fun _ => ⟨fun _ => id, rfl⟩⟩
  cases op with
  | prepare | release | enable | disable => exact leaves.elim
  | inspect => exact ⟨trivial, rfl⟩
  | read | load => exact once rfl (read leaves)
  | write offset value => exact once rfl (of_store id offset value leaves)
  | enterWorking => exact enterWorking a
  | leaveWorking => exact leaveWorking
  | deferred => exact deferred
  | filter flags multicast => exact once rfl (filter a flags multicast)
  | register direction queue => exact once rfl (within (Interrupt.register_only direction queue))
  | interrupt => exact once rfl handle
  | wanted => exact once rfl (of_act id .wanted trivial)
  | statistics =>
    refine once rfl (of_only id readStatistics_only fun e inside => ?_)
    cases e with
    | load offset => exact ⟨inside.1, by rintro rfl; exact absurd inside.2 (by decide)⟩
    | _ => exact inside.elim
  | describe =>
    refine (of_act id .wanted trivial).seq fun _ => (of_act id .active trivial).seq fun _ => ?_
    exact ⟨trivial, rfl⟩

end powerLaw

theorem PowerStage.Of.serialized {stage : PowerStage} {op : Operation} (belongs : stage.Of op) :
    op.serialized = true := by
  cases stage with
  | refused => rcases belongs with rfl | rfl <;> rfl
  | _ =>
    cases belongs
    rfl

theorem PowerStage.Of.after {stage : PowerStage} {op : Operation} (belongs : stage.Of op)
    (e : Effect) (answer : e.Answer) : (stage.after e answer).Of op := by
  unfold PowerStage.after
  split
  case h_1 =>
    split
    · exact .inl belongs
    · exact belongs
  case h_4 =>
    split
    · exact belongs
    · exact .inr belongs
  case h_2 | h_7 | h_8 | h_9 => split <;> exact belongs
  all_goals exact belongs

theorem PowerStage.of_after_dropped {stage : PowerStage} {e : Effect} {answer : e.Answer}
    (drops : stage.after e answer = .dropped) : e = .acquire ∨ e ≠ .release ∧ stage = .dropped := by
  unfold PowerStage.after at drops
  split at drops
  case h_5 => exact .inl rfl
  case h_10 =>
    rename_i left _ _ _
    refine .inr ⟨?_, drops⟩
    rintro rfl
    exact left answer drops rfl .rfl
  all_goals first | cases drops | (split at drops <;> cases drops)

namespace powerLaw

theorem called (depth : Nat) (history : History) :
    (powerLaw.state depth history).Of (calls.state depth history) := by
  refine Law.state_related PowerState.Of (by rintro _ ⟨⟩) (fun op => ?_) ?_ depth history
  · cases op with
    | enterWorking | leaveWorking | deferred => exact ⟨_, rfl, rfl⟩
    | _ =>
      rintro _ ⟨⟩
      rfl
  · intro q call e answer belongs
    cases q with
    | apart => exact belongs
    | serial stage config =>
      obtain ⟨op, called, belongs⟩ := belongs
      exact ⟨op, called, belongs.after e answer⟩

theorem holding_of_dropped {depth : Nat} {history : History} {config : Option Word}
    (drops : powerLaw.state depth history = .serial .dropped config) : Holding history depth := by
  have held := @Law.state_related _ powerLaw _ lockLaw
    (fun (q : PowerState) (r : LockUse) =>
      ∀ config, q = .serial .dropped config → r.holds = true)
    (by rintro _ ⟨⟩) (fun op config begins => ?_) (fun q r e answer kept config reaches => ?_)
    depth history
  · exact held config drops
  · cases op <;> cases begins
  · cases q with
    | apart => cases reaches
    | serial stage before =>
      rcases PowerStage.of_after_dropped (PowerState.serial.inj reaches).1 with rfl | ⟨stays, same⟩
      · rfl
      · have held : r.holds = true := kept before (same ▸ rfl)
        cases e with
        | acquire => rfl
        | release => exact absurd rfl stays
        | _ => exact held

end powerLaw

end EthernetMac
