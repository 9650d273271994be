import EthernetMac.Proofs.Footprint

namespace EthernetMac

open Program

def Operation.serialized : Operation → Bool
  | enterWorking | leaveWorking | deferred => true
  | _ => false

structure LinkState.Configured (p : LinkState) (config : Word) : Prop where
  duplex : MacConfiguration.fullDuplex.test config = true ↔ p.duplex = .full
  speed : ∀ port, p.speed.port? = some port → MacConfiguration.portSpeed.get config = port

theorem configured_reconcile (config status : Word) :
    (LinkState.ofStatus status).Configured (reconcile config status) := by
  have assigned (word : Word) (on : Bool) :
      MacConfiguration.fullDuplex.test (MacConfiguration.fullDuplex.assign on word) = on :=
    Field.test_assign MacConfiguration.fullDuplex (by decide) on word
  have apart (port word : Word) : MacConfiguration.fullDuplex.test
      (MacConfiguration.portSpeed.set port word) = MacConfiguration.fullDuplex.test word :=
    Field.test_set_of_apart (by decide) (by decide) port word
  have duplex : MacConfiguration.fullDuplex.test (reconcile config status) =
      MacPhyStatus.fullDuplex.test status := by
    unfold reconcile
    split
    · rw [apart, assigned]
    · exact assigned _ _
  constructor
  · rw [duplex]
    cases full : MacPhyStatus.fullDuplex.test status <;> simp [LinkState.ofStatus, full]
  · intro port known
    change (LinkSpeed.ofClock (MacPhyStatus.speed.get status)).port? = some port at known
    have fits : port &&& MacConfiguration.portSpeed.ones = port := by
      cases speed : LinkSpeed.ofClock (MacPhyStatus.speed.get status) <;>
        rw [speed] at known <;> cases known <;> decide
    unfold reconcile
    rw [known]
    exact (Field.get_set _ _ _).trans fits

theorem LinkState.Configured.stopped {p : LinkState} {config : Word} (configured : p.Configured config) :
    p.Configured (Working.stopped config) := by
  have duplex : MacConfiguration.fullDuplex.test (Working.stopped config) =
      MacConfiguration.fullDuplex.test config :=
    (Field.test_set_of_apart (by decide) (by decide) _ _).trans
      (Field.test_set_of_apart (by decide) (by decide) _ _)
  have speed : MacConfiguration.portSpeed.get (Working.stopped config) =
      MacConfiguration.portSpeed.get config :=
    (Field.get_set_of_apart (by decide) _ _).trans (Field.get_set_of_apart (by decide) _ _)
  constructor
  · rw [duplex]
    exact configured.duplex
  · intro port known
    rw [speed]
    exact configured.speed port known

theorem Causes.link_eq (word : Word) : (Causes.ofWord word).link = word.getLsbD 31 := by
  have only : linkCause = BitVec.twoPow 32 31 := by decide
  change (word &&& linkCause != 0) = word.getLsbD 31
  rw [only, BitVec.and_twoPow]
  cases word.getLsbD 31 <;> decide

inductive LinkPhase where
  | still
  | reset
  | read (status : Word)
  | configured (status config : Word)
  | stopping (config : Word)

/-- What a call owes to the link. -/
inductive LinkDuty where
  | none
  | handling (held : Bool)
  | serial (due : Bool) (phase : LinkPhase)

namespace LinkDuty

def begin : Operation → LinkDuty
  | .interrupt => handling false
  | .enterWorking | .leaveWorking | .deferred => serial false .still
  | _ => none

def Decides (offset : Nat) : Prop :=
  offset = Register.macPhyStatus ∨ offset = Register.macInterruptStatus ∨
    offset = Register.macConfiguration

instance (offset : Nat) : Decidable (Decides offset) := inferInstanceAs (Decidable (_ ∨ _))

def Permits (q : LinkDuty) : Effect → Prop
  | .load offset => offset = Register.macPhyStatus →
      q = handling true ∨ ∃ due phase, q = serial due phase
  | .store offset value => Decides offset → offset = Register.macConfiguration ∧
      ∃ due phase, q = serial due phase ∧
        ∀ config, phase = .stopping config → value = Working.stopped config
  | .publishLink state => ∃ due status config, q = serial due (.configured status config) ∧
      state = .ofStatus status ∧ state.Configured config
  | .merge causes => q = handling true → (Causes.ofWord causes).link = true
  | .drain => ∃ phase, q = serial false phase
  | .fault _ => q = serial false .still
  | .attach _ => False
  | _ => True

def loaded (offset : Nat) (value : Word) : LinkDuty → LinkDuty
  | handling held =>
    if offset = Register.macInterruptStatus then
      handling (held || MacInterruptStatus.linkStatus.test value)
    else handling held
  | serial due phase =>
    if offset = Register.macPhyStatus then serial false (.read value)
    else if offset = Register.macConfiguration then
      match phase with
      | .still => serial due (.stopping value)
      | .read status => serial due (.configured status value)
      | _ => serial due phase
    else serial due phase
  | none => none

def stored (offset : Nat) (value : Word) : LinkDuty → LinkDuty
  | serial due phase =>
    if offset = Register.macConfiguration then
      match phase with
      | .still => serial due .reset
      | .stopping _ => serial due .still
      | .configured status _ => serial due (.configured status value)
      | _ => serial due phase
    else serial due phase
  | q => q

def after (q : LinkDuty) : (e : Effect) → e.Answer → LinkDuty
  | .load offset, value => q.loaded offset value
  | .store offset value, _ => q.stored offset value
  | .publishLink _, _ =>
    match q with
    | serial due _ => serial due .still
    | q => q
  | .merge _, _ =>
    match q with
    | handling _ => handling false
    | q => q
  | .drain, word =>
    match q with
    | serial _ phase => serial (Causes.ofWord word).link phase
    | q => q
  | _, _ => q

def Done (q : LinkDuty) : Prop := q = none ∨ q = handling false ∨ q = serial false .still

end LinkDuty

def linkLaw : Law LinkDuty where
  idle := .none
  start := LinkDuty.begin
  permits := LinkDuty.Permits
  after := LinkDuty.after
  ends := LinkDuty.Done

namespace linkLaw

@[simp] theorem idle_eq : linkLaw.idle = .none := rfl

@[simp] theorem start_eq : linkLaw.start = LinkDuty.begin := rfl

@[simp] theorem permits_eq : linkLaw.permits = LinkDuty.Permits := rfl

@[simp] theorem after_eq : linkLaw.after = LinkDuty.after := rfl

@[simp] theorem yields_eq (q : LinkDuty) : linkLaw.yields q ↔ True := .rfl

@[simp] theorem ends_eq : linkLaw.ends = LinkDuty.Done := rfl

def Unrelated : Effect → Prop
  | .load offset | .store offset _ => ¬ LinkDuty.Decides offset
  | .publishLink _ | .merge _ | .drain | .fault _ | .attach _ => False
  | _ => True

theorem of_unrelated {q : LinkDuty} (e : Effect) (unrelated : Unrelated e) :
    linkLaw.permits q e ∧ ∀ answer, linkLaw.after q e answer = q := by
  cases e with
  | load offset =>
    refine ⟨fun phy => absurd (.inl phy) unrelated, fun answer => ?_⟩
    have outside : offset ≠ Register.macPhyStatus ∧ offset ≠ Register.macInterruptStatus ∧
        offset ≠ Register.macConfiguration := by
      simpa [Unrelated, LinkDuty.Decides] using unrelated
    cases q <;> simp [LinkDuty.after, LinkDuty.loaded, outside]
  | store offset value =>
    refine ⟨fun decides => absurd decides unrelated, fun answer => ?_⟩
    have outside : offset ≠ Register.macConfiguration := fun same => unrelated (.inr (.inr same))
    cases q <;> simp [LinkDuty.after, LinkDuty.stored, outside]
  | publishLink | merge | drain | fault | attach => exact unrelated.elim
  | _ => exact ⟨trivial, fun _ => rfl⟩

theorem of_only {q : LinkDuty} {α : Type} {p : Program α} {allowed : Effect → Prop}
    (only : p.Only allowed) (unrelated : ∀ e, allowed e → Unrelated e) :
    p.Obeys linkLaw (fun _ after => after = q) q :=
  .of_only only (fun e inside => of_unrelated e (unrelated e inside)) trivial

theorem of_act {q : LinkDuty} (e : Effect) (unrelated : Unrelated e) :
    (act e).Obeys linkLaw (fun _ after => after = q) q :=
  of_only (.act unrelated) fun _ => id

theorem of_load {q : LinkDuty} (offset : Nat) (outside : ¬ LinkDuty.Decides offset) :
    (load offset).Obeys linkLaw (fun _ after => after = q) q :=
  of_act (.load offset) outside

theorem of_store {q : LinkDuty} (offset : Nat) (value : Word)
    (outside : ¬ LinkDuty.Decides offset) :
    (store offset value).Obeys linkLaw (fun _ after => after = q) q :=
  of_act (.store offset value) outside

theorem of_section {q : LinkDuty} {p : Program Unit} (only : p.Only sectionActions) :
    p.Obeys linkLaw (fun _ after => after = q) q := by
  refine of_only only ?_
  intro e inside
  cases e with
  | store offset value =>
    rcases inside with rfl | rfl
    · exact (by decide : ¬ LinkDuty.Decides Register.macInterruptEnable)
    · exact (by decide : ¬ LinkDuty.Decides Register.channelInterruptEnable)
  | acquire | release | wanted | mask | setMask | setQueue | takeQueue | count | notify =>
    trivial
  | _ => exact inside.elim

theorem refresh (due : Bool) (phase : LinkPhase) :
    (discard refreshLink).Obeys linkLaw (fun _ after => after = .serial false .still)
      (.serial due phase) := by
  rw [obeys_discard]
  unfold refreshLink
  rw [obeys_bind, obeys_load]
  refine ⟨fun _ => .inr ⟨due, phase, rfl⟩, fun status => ⟨trivial, ?_⟩⟩
  rw [obeys_bind, obeys_load]
  refine ⟨fun _ => .inr ⟨_, _, rfl⟩, fun config => ⟨trivial, ?_⟩⟩
  change Obeys linkLaw _ _ (.serial false (.configured status config))
  have written : (onlyIf (reconcile config status != config)
      (store Register.macConfiguration (reconcile config status))).Obeys linkLaw
      (fun _ after => after = .serial false (.configured status (reconcile config status)))
      (.serial false (.configured status config)) := by
    rw [obeys_onlyIf]
    constructor
    · intro _
      refine ⟨fun _ => ⟨rfl, _, _, rfl, nofun⟩, fun _ => ⟨fun _ => trivial, rfl⟩⟩
    · intro same
      have same : reconcile config status = config := by simpa using same
      rw [same]
  refine written.andThen fun _ => ?_
  exact ⟨⟨_, _, _, rfl, rfl, configured_reconcile config status⟩,
    fun _ => ⟨fun _ => trivial, rfl⟩⟩

theorem handle : Interrupt.handle.Obeys linkLaw (fun _ => LinkDuty.Done) (.handling false) := by
  unfold Interrupt.handle
  rw [obeys_bind, obeys_load]
  refine ⟨nofun, fun mac => ⟨trivial, ?_⟩⟩
  change Obeys linkLaw _ _ (.handling (MacInterruptStatus.linkStatus.test mac))
  refine Obeys.seq (of_load _ (by decide)) fun channel => ?_
  generalize MacInterruptStatus.linkStatus.test mac = link
  dsimp only
  rw [obeys_ite]
  constructor
  · intro nothing
    have none : link = false := by simpa using (Bool.and_eq_true_iff.mp nothing).1
    rw [none]
    exact (of_act (.count .ignored) trivial).seq fun _ => .inr (.inl rfl)
  · intro _
    refine Obeys.seq (.onlyIf fun up => (obeys_discard ..).mpr ?_) fun _ => ?_
    · rw [up]
      exact ⟨fun _ => .inl rfl, fun _ => ⟨fun _ => trivial, rfl⟩⟩
    refine Obeys.seq (.onlyIf fun _ => of_store _ _ (by decide)) fun _ => ?_
    refine ⟨fun held => ?_, fun _ => ⟨nofun, ?_⟩⟩
    · cases held
      simp [Causes.link_eq, linkCause]
    · refine (of_act .schedule trivial).seq fun _ => ?_
      exact (of_act (.count .handled) trivial).seq fun _ => .inr (.inl rfl)

theorem serve (word : Word) :
    (Interrupt.serve (discard refreshLink) (.ofWord word)).Obeys linkLaw
      (fun _ after => after = .serial false .still)
      (.serial (Causes.ofWord word).link .still) := by
  unfold Interrupt.serve
  refine Obeys.seq (.onlyIf fun _ => of_act (.count .abnormal) trivial) fun _ => ?_
  refine Obeys.seq (.onlyIf fun _ => of_act (.count .fatal) trivial) fun _ => ?_
  have refreshed : (onlyIf (Causes.ofWord word).link do
      act (.count .linkChange)
      discard refreshLink).Obeys linkLaw (fun _ after => after = .serial false .still)
      (.serial (Causes.ofWord word).link .still) := by
    rw [obeys_onlyIf]
    refine ⟨fun _ => (of_act (.count .linkChange) trivial).seq fun _ => refresh _ _, fun none => ?_⟩
    rw [none]
  refine refreshed.andThen fun _ => ?_
  exact .onlyIf fun _ => of_section (Interrupt.serveQueues_only _)

theorem deferred : (Task.deferred (discard refreshLink)).Obeys linkLaw (fun _ => LinkDuty.Done)
    (.serial false .still) := by
  unfold Task.deferred Interrupt.work
  simp only [obeys_bind]
  refine ⟨⟨_, rfl⟩, fun word => ⟨by rintro ⟨⟩, ?_⟩⟩
  change Obeys linkLaw _ _ (.serial (Causes.ofWord word).link .still)
  rw [obeys_done, obeys_ite]
  constructor
  · intro nothing
    subst nothing
    exact .inr (.inr rfl)
  · intro _
    exact (serve word).andThen fun _ => .inr (.inr rfl)

theorem enterWorking (a : Adapter) : a.enterWorking.Obeys linkLaw (fun _ => LinkDuty.Done)
    (.serial false .still) := by
  have apart : ∀ offset ∈ Working.setUp, ¬ LinkDuty.Decides offset := by decide
  refine a.enterWorking_parts (q := .serial false .still) (r := .serial false .still) ?turnedOn
    (fun offset member value => of_store offset value (apart offset member)) ?refreshed ?cleared
    ?enabled
  case turnedOn =>
    refine (of_act (.setActive true) trivial).mono fun was _ same => ?_
    cases was with
    | true => exact .inr (.inr same)
    | false => exact same
  case refreshed =>
    exact ⟨fun _ => ⟨rfl, _, _, rfl, nofun⟩, fun _ => ⟨fun _ => trivial, refresh _ .reset⟩⟩
  case cleared =>
    refine (of_load _ (by decide)).seq fun stale => ?_
    exact .onlyIf fun _ => of_store _ _ (by decide)
  case enabled => exact (of_section (Interrupt.enable_only _)).reach fun _ => .inr (.inr rfl)

theorem requireCleared (direction : Direction) :
    (Adapter.requireCleared direction).Obeys linkLaw (fun _ after => after = .serial false .still)
      (.serial false .still) := by
  unfold Adapter.requireCleared
  refine (of_act (.armed direction) trivial).seq fun armed => ?_
  rw [obeys_ite]
  exact ⟨fun _ => ⟨rfl, nofun⟩, fun _ => rfl⟩

theorem leaveWorking : Adapter.leaveWorking.Obeys linkLaw (fun _ => LinkDuty.Done)
    (.serial false .still) := by
  refine Adapter.leaveWorking_parts ?turnedOff (of_section (Interrupt.disable_only _)) requireCleared
    ?stopped
  case turnedOff =>
    refine (of_act (.setActive false) trivial).mono fun was _ same => ?_
    cases was with
    | true => exact same
    | false => exact .inr (.inr same)
  case stopped =>
    refine ⟨nofun, fun config => ⟨fun _ => trivial, ?_⟩⟩
    change Obeys linkLaw _ _ (.serial false (.stopping config))
    refine ⟨fun _ => ⟨rfl, _, _, rfl, ?_⟩, fun _ => ⟨fun _ => trivial, .inr (.inr rfl)⟩⟩
    intro _ same
    cases same
    rfl

theorem high (offset : Nat) (above : Register.macPhyStatus < offset) :
    ¬ LinkDuty.Decides offset := by
  rintro (same | same | same) <;> subst same <;> revert above <;> decide

theorem filter (a : Adapter) (flags : FilterFlags) (multicast : List LinkLayerAddress)
    (q : LinkDuty) :
    (applyFilter a.features.addressCount a.current flags multicast).Obeys linkLaw
      (fun _ after => after = q) q := by
  refine of_only (applyFilter_only ..) ?_
  intro e inside
  have above : Register.macPhyStatus < Register.addressTable := by decide
  cases e with
  | store offset value =>
    rcases inside with rfl | ⟨slot, _, rfl | rfl⟩
    · exact (by decide : ¬ LinkDuty.Decides Register.macPacketFilter)
    · exact high _ (by unfold Register.addressHigh; omega)
    · exact high _ (by unfold Register.addressLow; omega)
  | fault cause =>
    have few := a.features.addressCount_lt
    have many : 32 ≤ Register.slotLimit := by decide
    exact absurd inside.2 (by omega)
  | _ => exact inside.elim

/-- What leaves the link to the device: nothing else reads its status or writes what decides about
it. -/
def Leaves : Operation → Prop
  | .prepare _ _ | .release => False
  | .read offset | .load offset => offset ≠ Register.macPhyStatus
  | .write offset _ => ¬ LinkDuty.Decides offset
  | _ => True

theorem task {op : Operation} (leaves : Leaves op) (a : Adapter) :
    (op.task (.device a)).Obeys linkLaw (fun _ => linkLaw.ends) (linkLaw.start op) := by
  have once {α : Type} {p : Program α} {answer : α → Answer}
      (kept : p.Obeys linkLaw (fun _ after => after = .none) .none) :
      (Task.once p answer).Obeys linkLaw (fun _ => LinkDuty.Done) .none :=
    kept.seq fun _ => .inl rfl
  have within {p : Program Unit} {answer : Unit → Answer} (only : p.Only sectionActions) :
      (Task.once p answer).Obeys linkLaw (fun _ => LinkDuty.Done) .none :=
    once (of_section only)
  have read {offset : Nat} {answer : Word → Answer} (apart : offset ≠ Register.macPhyStatus) :
      (Task.once (load offset) answer).Obeys linkLaw (fun _ => LinkDuty.Done) .none :=
    once ⟨fun phy => absurd phy apart, fun _ => ⟨fun _ => trivial, rfl⟩⟩
  cases op with
  | prepare | release => exact leaves.elim
  | inspect => exact .inl rfl
  | read | load => exact read leaves
  | write offset value => exact once (of_store offset value leaves)
  | enterWorking => exact (obeys_once ..).mpr (enterWorking a)
  | leaveWorking => exact (obeys_once ..).mpr leaveWorking
  | filter flags multicast => exact once (filter a flags multicast .none)
  | register direction queue => exact within (Interrupt.register_only direction queue)
  | enable bits => exact within (Interrupt.enable_only bits)
  | disable bits => exact within (Interrupt.disable_only bits)
  | interrupt => exact (obeys_once ..).mpr handle
  | deferred => exact deferred
  | wanted => exact once (of_act .wanted trivial)
  | statistics =>
    refine once (of_only readStatistics_only fun e inside => ?_)
    cases e with
    | load offset =>
      have above : Register.macPhyStatus < Register.mmcControl := by decide
      exact high offset (Nat.lt_trans above inside.2)
    | _ => exact inside.elim
  | describe =>
    refine (of_act .wanted trivial).seq fun _ => (of_act .active trivial).seq fun _ => ?_
    exact .inl rfl

end linkLaw

end EthernetMac
