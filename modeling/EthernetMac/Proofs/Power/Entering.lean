import EthernetMac.Proofs.Power.Lifecycle
import EthernetMac.Proofs.Power.Programming

/-! Entering the working state does not depend on what went before. What a device held in its
registers leaves no trace in those that are programmed, and neither do interrupts on the way. -/

namespace EthernetMac

open Program

/-- What is known of a station while interrupts may come: whether the device is active, the mask, and
the causes that may still stand in the channel status. -/
structure Outlook where
  active : Bool
  wanted : InterruptMask
  causes : Word

def Effect.wants : Effect → InterruptMask → InterruptMask
  | .setMask new, _ => new
  | .attach _, _ => .none
  | _, current => current

theorem Effect.interrupt_wanted (e : Effect) (i : InterruptState) :
    (e.interrupt i).wanted = e.wants i.wanted := by
  cases e <;> rfl

/-- The causes that may stand in the channel status after an action, when `causes` may have before. -/
def Deed.leaves (causes : Word) : Deed → Word
  | ⟨.load offset, value⟩ => if offset = Register.channelStatus then value else causes
  | ⟨.store offset value, _⟩ =>
    if offset = Register.channelStatus then causes &&& ~~~value else causes
  | _ => causes

namespace Outlook

def after (o : Outlook) (deed : Deed) : Outlook where
  active := deed.effect.activity o.active
  wanted := deed.effect.wants o.wanted
  causes := deed.leaves o.causes

def Tells (o : Outlook) : Deed → Prop
  | ⟨.setActive _, was⟩ => was = o.active
  | ⟨.mask, mask⟩ => mask = o.wanted
  | _ => True

def Sees (o : Outlook) : List Deed → Outlook → Prop
  | [], last => last = o
  | deed :: rest, last => o.Tells deed ∧ (o.after deed).Sees rest last

structure Of (o : Outlook) (s : Station) : Prop where
  active : s.active = o.active
  wanted : s.interrupt.wanted = o.wanted
  causes : ∀ i, (s.registers.cell Register.channelStatus).getLsbD i = true → o.causes.getLsbD i = true

variable {o last : Outlook} {s after : Station} {e : Effect} {answer : e.Answer}

theorem sees_append {first rest : List Deed} :
    o.Sees (first ++ rest) last ↔ ∃ mid, o.Sees first mid ∧ mid.Sees rest last := by
  induction first generalizing o with
  | nil => simp [Sees]
  | cons deed first ih => simp [Sees, ih, and_assoc]

def Plain : Effect → Prop
  | .setActive _ | .mask | .setMask _ | .attach _ => False
  | .load offset | .store offset _ => offset ≠ Register.channelStatus
  | _ => True

theorem plain_stored {words : List (Nat × Word)}
    (apart : ∀ write ∈ words, Register.channelStatus ≠ write.1) :
    ∀ deed ∈ stored words, Plain deed.effect := by
  refine List.forall_mem_map.mpr fun write member => ?_
  exact Ne.symm (apart write member)

theorem plain_refreshDeeds {status config : Word} :
    ∀ deed ∈ refreshDeeds status config, Plain deed.effect := by
  have course := refreshLink_course.mpr ⟨status, config, rfl, rfl⟩
  intro deed member
  have inside := refreshLink_only.course course deed member
  generalize deed.effect = e at inside
  cases e with
  | load =>
    rcases inside with rfl | rfl
    · exact (by decide : Register.macPhyStatus ≠ Register.channelStatus)
    · exact (by decide : Register.macConfiguration ≠ Register.channelStatus)
  | store =>
    cases inside
    exact (by decide : Register.macConfiguration ≠ Register.channelStatus)
  | publishLink => trivial
  | _ => exact inside.elim

theorem sees_plain {deeds : List Deed} (plain : ∀ deed ∈ deeds, Plain deed.effect) :
    o.Sees deeds last ↔ last = o := by
  induction deeds generalizing o with
  | nil => rfl
  | cons deed deeds ih =>
    obtain ⟨now, later⟩ := List.forall_mem_cons.mp plain
    obtain ⟨e, answer⟩ := deed
    have stays : o.after ⟨e, answer⟩ = o := by
      cases e with
      | load | store => exact congrArg (Outlook.mk o.active o.wanted) (if_neg now)
      | setActive | setMask | attach => exact now.elim
      | _ => rfl
    have silent : o.Tells ⟨e, answer⟩ := by
      cases e with
      | setActive | mask => exact now.elim
      | _ => trivial
    unfold Sees
    rw [stays, ih later, and_iff_right silent]

/-- What a handler clears after the call has read the channel status is still in what the call has read,
and so the call clears at least what still stands. -/
theorem Of.causes_after (knows : o.Of s) (device : s.registers.backing = .device)
    (applied : s.apply e = .ok (answer, after)) {i : Nat}
    (standing : (after.registers.cell Register.channelStatus).getLsbD i = true) :
    (Deed.leaves o.causes ⟨e, answer⟩).getLsbD i = true := by
  have stood := knows.causes i (Station.channelStatus_shrinks device applied standing)
  cases e with
  | load offset =>
    unfold Deed.leaves
    dsimp only
    split
    · rename_i here
      subst here
      rwa [Station.load_value applied] at standing
    · exact stood
  | store offset value =>
    unfold Deed.leaves
    dsimp only
    split
    · rename_i here
      subst here
      rw [Station.store_channelStatus device applied, BitVec.getLsbD_and, Bool.and_eq_true] at standing
      rw [BitVec.getLsbD_and, stood, standing.2]
      rfl
    · exact stood
  | _ => exact stood

theorem Of.own (knows : o.Of s) (device : s.registers.backing = .device)
    (applied : s.apply e = .ok (answer, after)) :
    o.Tells ⟨e, answer⟩ ∧ (o.after ⟨e, answer⟩).Of after := by
  constructor
  · have reads := Station.apply_reads applied
    cases e with
    | setActive => exact reads.trans knows.active
    | mask => exact reads.trans knows.wanted
    | _ => trivial
  · refine ⟨?_, ?_, fun _ standing => knows.causes_after device applied standing⟩
    · exact (Station.apply_target applied).2.trans (congrArg e.activity knows.active)
    · rw [Station.apply_interrupt applied, Effect.interrupt_wanted]
      exact congrArg e.wants knows.wanted

theorem Of.other (knows : o.Of s) (device : s.registers.backing = .device) (inside : handlerActions e)
    (applied : s.apply e = .ok (answer, after)) : o.Of after := by
  have active : after.active = e.activity s.active := (Station.apply_target applied).2
  have wanted : after.interrupt.wanted = e.wants s.interrupt.wanted := by
    rw [Station.apply_interrupt applied, Effect.interrupt_wanted]
  have causes (i : Nat) standing :=
    knows.causes i (Station.channelStatus_shrinks device applied standing)
  cases e with
  | load | store | merge | schedule | count =>
    exact ⟨active.trans knows.active, wanted.trans knows.wanted, causes⟩
  | _ => exact inside.elim

theorem sees_snoc {first : Outlook} {deeds : List Deed} {deed : Deed} (sees : first.Sees deeds o)
    (tells : o.Tells deed) : first.Sees (deeds ++ [deed]) (o.after deed) :=
  sees_append.mpr ⟨o, sees, tells, rfl⟩

theorem sees_enableDeeds {bits wanted again : InterruptMask}
    (sees : o.Sees (enableDeeds bits wanted again) last) :
    wanted = o.wanted ∧ again = o.wanted ∧ last = { o with wanted := o.wanted ||| bits } := by
  unfold enableDeeds at sees
  simp only [sees_append] at sees
  obtain ⟨_, ⟨_, ⟨-, read, found, rfl⟩, change⟩, -, rfl⟩ := sees
  obtain rfl : wanted = o.wanted := read
  obtain rfl : again = o.wanted := found
  refine ⟨rfl, rfl, ?_⟩
  split at change
  · rename_i same
    subst change
    exact congrArg (fun mask => Outlook.mk o.active mask o.causes) same
  · obtain ⟨-, -, -, rfl⟩ := change
    rfl

theorem sees_entryDeeds {f : Features} {status config stale : Word} {wanted again : InterruptMask}
    (sees : o.Sees (Adapter.entryDeeds f status config stale wanted again) last) :
    o.active = false ∧ wanted = o.wanted ∧ again = o.wanted ∧
      last = ⟨true, o.wanted ||| .stateOnly, 0⟩ := by
  unfold Adapter.entryDeeds at sees
  simp only [sees_append] at sees
  obtain ⟨now, ⟨_, ⟨_, ⟨_, ⟨_, ⟨off, rfl⟩, settings⟩, refresh⟩, -, rfl⟩, clear⟩, enable⟩ := sees
  obtain rfl := (sees_plain (plain_stored (Working.settings_apart (by decide)))).mp settings
  obtain rfl := (sees_plain plain_refreshDeeds).mp refresh
  have cleared : now = ⟨true, o.wanted, 0⟩ := by
    split at clear
    · rename_i none
      subst none
      exact clear
    · obtain ⟨-, rfl⟩ := clear
      exact congrArg (Outlook.mk true o.wanted) (BitVec.and_not_self stale)
  subst cleared
  obtain ⟨read, again, rfl⟩ := sees_enableDeeds enable
  exact ⟨off.symm, read, again, rfl⟩

end Outlook

def Station.outlook (s : Station) : Outlook :=
  ⟨s.active, s.interrupt.wanted, s.registers.cell Register.channelStatus⟩

def Deed.publication? : Deed → Option LinkState
  | ⟨.publishLink state, _⟩ => some state
  | _ => none

def Entry.publication? : Entry → Option LinkState
  | acted _ _ e answer => Deed.publication? ⟨e, answer⟩
  | _ => none

def publications (history : History) : List LinkState := history.filterMap Entry.publication?

structure Dormant (a : Adapter) (s : Station) : Prop where
  device : s.registers.backing = .device
  target : s.target = .device a
  inactive : s.active = false
  missing : s.interrupt.wanted.state = false
  free : s.interrupt.lock = .free

namespace Entering

/-- Interrupts, and nothing else. -/
def Admits (_ : Machine) (step : Step) : Prop := step = .operation .interrupt

/-- The registers that hold what was written to them last. -/
def Tracked (offset : Nat) : Prop :=
  offset ≠ Register.dmaMode ∧ offset ≠ Register.macInterruptStatus ∧
    offset ≠ Register.channelStatus

instance (offset : Nat) : Decidable (Tracked offset) := inferInstanceAs (Decidable (_ ∧ _))

def registers : List Nat :=
  Working.setUp ++
    [Register.macConfiguration, Register.macInterruptEnable, Register.channelInterruptEnable,
      Register.channelStatus]

theorem tracked_of_programme {f : Features} {status : Word} {wanted : InterruptMask}
    {write : Nat × Word} (member : write ∈ Working.programme f status wanted) : Tracked write.1 := by
  have all : ∀ offset ∈ Working.setUp ++ [Register.macConfiguration, Register.macInterruptEnable,
      Register.channelInterruptEnable], Tracked offset := by decide
  exact all _ (List.mem_map_of_mem member)

structure Known (start : Station) (deeds : List Deed) (history : History) (s : Station) : Prop where
  follows : Follows Tracked start deeds s
  device : s.registers.backing = .device
  target : s.target = start.target
  outlook : ∃ o : Outlook, start.outlook.Sees deeds o ∧ o.Of s
  published : publications history = (deeds.filterMap Deed.publication?).reverse

theorem enterWorking_only (target : Target) :
    (Operation.enterWorking.task target).Only Adapter.enteringActions := by
  cases target with
  | device a => exact a.enterWorking_only.bind fun _ => .pure _
  | _ => exact .pure _

theorem spares (e : Effect) (inside : handlerActions e) : e.Spares Tracked := by
  cases e with
  | store offset value => exact fun tracked => tracked.2.2 inside
  | attach | detach => exact inside.elim
  | _ => trivial

section Known

variable {start s after : Station} {deeds : List Deed} {history : History} {depth : Nat}
  {acting : Operation} {e : Effect} {answer : e.Answer}

theorem Known.congr (known : Known start deeds history s) (registers : after.registers = s.registers)
    (target : after.target = s.target) (active : after.active = s.active)
    (wanted : after.interrupt.wanted = s.interrupt.wanted) : Known start deeds history after := by
  obtain ⟨follows, device, kept, ⟨o, sees, knows⟩, published⟩ := known
  refine ⟨follows.congr (fun _ _ => by rw [registers]) target, registers ▸ device,
    target.trans kept, ⟨o, sees, ?_⟩, published⟩
  exact ⟨active.trans knows.active, wanted.trans knows.wanted, registers ▸ knows.causes⟩

theorem Known.own (known : Known start deeds history s) (inside : Adapter.enteringActions e)
    (applied : s.apply e = .ok (answer, after)) :
    Known start (deeds ++ [⟨e, answer⟩]) (.acted depth acting e answer :: history) after := by
  obtain ⟨follows, device, target, ⟨o, sees, knows⟩, published⟩ := known
  obtain ⟨tells, onward⟩ := knows.own device applied
  refine ⟨follows.snoc (fun _ => id) applied, (Station.apply_backing applied).trans device, ?_,
    ⟨_, Outlook.sees_snoc sees tells, onward⟩, ?_⟩
  · rw [(Station.apply_target applied).1, ← target]
    cases e <;> first | rfl | exact inside.elim
  · rw [List.filterMap_append, List.reverse_append, ← published]
    cases e <;> rfl

theorem Known.other (known : Known start deeds history s) (inside : handlerActions e)
    (applied : s.apply e = .ok (answer, after)) :
    Known start deeds (.acted depth acting e answer :: history) after := by
  obtain ⟨follows, device, target, ⟨o, sees, knows⟩, published⟩ := known
  have spared := spares e inside
  refine ⟨follows.other (fun _ => id) spared applied, (Station.apply_backing applied).trans device,
    ?_, ⟨o, sees, knows.other device inside applied⟩, ?_⟩
  · rw [(Station.apply_target applied).1, spared.target, target]
  · rw [← published]
    cases e <;> first | rfl | exact inside.elim

end Known

theorem chronicle {start : Station} (device : start.registers.backing = .device) :
    Chronicle Admits start .enterWorking handlerActions (Known start) where
  initial := ⟨.refl start, device, rfl, ⟨start.outlook, rfl, rfl, rfl, fun _ => id⟩, rfl⟩
  blind _ known := known.congr rfl rfl rfl rfl
  own now applied known := known.own (now _ (enterWorking_only _)) applied
  other now applied known := known.other now applied
  surround admitted surrounds _ := absurd admitted (surrounds _)
  idle {_ _ _ entry} quiet known := by
    refine { known with published := ?_ }
    rw [← known.published]
    cases entry with
    | acted => exact absurd rfl (quiet _ _ _ _)
    | _ => rfl
  unlocked known := known.congr rfl rfl rfl rfl
  nested _ _ _ admitted := by
    cases admitted
    exact Interrupt.interrupt_only _

structure Entered (a : Adapter) (start m : Station) (inner : History) : Prop where
  active : m.active = true
  wanted : m.interrupt.wanted = start.interrupt.wanted ||| .stateOnly
  programmed : ∀ write ∈ Working.programme a.features (start.registers.cell Register.macPhyStatus)
      m.interrupt.wanted, m.registers.cell write.1 = write.2
  cleared : m.registers.cell Register.channelStatus = 0
  published : publications inner = [.ofStatus (start.registers.cell Register.macPhyStatus)]

theorem publications_entryDeeds {f : Features} {status config stale : Word}
    {wanted again : InterruptMask} :
    (Adapter.entryDeeds f status config stale wanted again).filterMap Deed.publication? =
      [.ofStatus status] := by
  unfold Adapter.entryDeeds refreshDeeds enableDeeds
  split <;> split <;> split <;> rfl

theorem entered {a : Adapter} {start m : Machine} {answer : Answer} {inner : History}
    (dormant : Dormant a start.station)
    (call : Call Admits start .enterWorking (.ok answer) inner m) :
    answer = .ok ∧ Entered a start.station m.station inner := by
  obtain ⟨deeds, known, ⟨course⟩, _⟩ := (chronicle dormant.device).concludes call
  obtain ⟨follows, _, _, ⟨o, sees, knows⟩, published⟩ := known
  have course := course nofun
  rw [dormant.target] at course
  obtain ⟨result, course, same⟩ := (course_once ..).mp course
  rcases a.enterWorking_course course with
    ⟨rfl, rfl⟩ | ⟨status, config, stale, wanted, again, rfl, rfl⟩
  · obtain ⟨was, _⟩ := sees
    exact absurd (was.trans dormant.inactive) nofun
  obtain ⟨_, rfl, rfl, rfl⟩ := Outlook.sees_entryDeeds sees
  obtain ⟨rfl, rfl⟩ := reads_entryDeeds (by decide) (by decide) follows.reads
  cases same
  refine ⟨rfl, knows.active, knows.wanted, ?_, ?_, ?_⟩
  · intro write member
    rw [knows.wanted] at member
    rw [follows.cells write.1 (tracked_of_programme member)]
    exact programmed_entryDeeds dormant.missing write member
  · refine BitVec.eq_of_getLsbD_eq fun i _ => ?_
    have none : (0 : Word).getLsbD i = false := BitVec.getLsbD_zero
    rw [none, Bool.eq_false_iff]
    exact fun standing => Bool.false_ne_true (none.symm.trans (knows.causes i standing))
  · rw [publications_entryDeeds] at published
    exact published

def Polite (m : Machine) (step : Step) : Prop :=
  step = .operation .interrupt ∨
    step = .operation .enterWorking ∧ m.station.interrupt.lock = .free

/-- Nothing stops such a call: the handler does not ask for the lock, and the rest cannot fail. -/
theorem unfaulted {a : Adapter} {start m : Machine} {cause : Fault} {inner : History}
    (dormant : Dormant a start.station) :
    ¬ Call Admits start .enterWorking (.error cause) inner m := by
  intro call
  have inService (n : Machine) (op : Operation) (polite : Polite n (.operation op)) : op.InService := by
    rcases polite with same | ⟨same, _⟩ <;> cases same <;> trivial
  have yields (n : Machine) (op : Operation) (polite : Polite n (.operation op))
      (takes : op.takesLock = true) : n.station.interrupt.lock = .free := by
    rcases polite with same | ⟨_, free⟩
    · cases same
      cases takes
    · exact free
  have stopped : Run (Inside Admits) _ ([] ++ .faulted cause :: inner) m := call.run
  obtain ⟨before, within, ⟨_, ⟨⟩, _⟩ | ⟨_, shown, _⟩⟩ := stopped.before
  obtain ⟨op, target, e, next, below, top, failed⟩ := Machine.entry?_faulted shown
  have whole : Run Polite start _ before :=
    Run.refl.resume call.resting (.inr ⟨rfl, dormant.free⟩) (fun _ admitted => .inl admitted) within
  rcases whole.own_fault call.resting inService dormant.free yields top failed with
    rfl | ⟨memory, _⟩
  · obtain ⟨deeds, _, stands⟩ := (chronicle dormant.device).stands call.resting within
    generalize before.station = s, before.stack = stack at *
    cases stands with
    | @within _ _ above leads nested _ =>
      cases above with
      | nil =>
        cases top
        exact (leads.only _ (enterWorking_only _)).1
      | cons frame above =>
        cases top
        exact (nested _ (.head _)).1.1
    | concluded => cases top
  · rw [dormant.device] at memory
    cases memory

theorem enters {a : Adapter} {start m : Machine} {outcome : Except Fault Answer} {inner : History}
    (dormant : Dormant a start.station) (call : Call Admits start .enterWorking outcome inner m) :
    outcome = .ok .ok ∧ Entered a start.station m.station inner := by
  cases outcome with
  | error cause => exact absurd call (unfaulted dormant)
  | ok answer =>
    obtain ⟨rfl, entered⟩ := entered dormant call
    exact ⟨rfl, entered⟩

theorem Entered.agree {a b : Adapter} {start m other n : Station} {inner inner' : History}
    (entered : Entered a start m inner) (again : Entered b other n inner')
    (features : b.features = a.features)
    (status : other.registers.cell Register.macPhyStatus = start.registers.cell Register.macPhyStatus)
    (wanted : other.interrupt.wanted = start.interrupt.wanted) :
    ∀ offset ∈ registers, n.registers.cell offset = m.registers.cell offset := by
  have mask : n.interrupt.wanted = m.interrupt.wanted := by
    rw [again.wanted, entered.wanted, wanted]
  have programmed := again.programmed
  rw [features, status, mask] at programmed
  intro offset member
  have parts : offset ∈ (Working.programme a.features (start.registers.cell Register.macPhyStatus)
      m.interrupt.wanted).map Prod.fst ++ [Register.channelStatus] := member
  rcases List.mem_append.mp parts with inside | status
  · obtain ⟨write, stands, rfl⟩ := List.mem_map.mp inside
    rw [programmed write stands, entered.programmed write stands]
  · rw [List.mem_singleton.mp status, again.cleared, entered.cleared]

structure Prepared (a : Adapter) (m : Machine) : Prop where
  resting : m.stack = []
  device : m.station.registers.backing = .device
  target : m.station.target = .device a
  inactive : m.station.active = false
  new : m.station.interrupt = {}

section Life

variable {a : Adapter} {prepared start m : Machine} {before : History}

theorem Prepared.dormant (fresh : Prepared a prepared) (run : Run Lifecycle.Admits prepared before m)
    (granted : .faulted .lockHeld ∉ before) (rests : m.stack = [])
    (left : m.station.active = false) :
    Dormant a m.station ∧ ∀ direction : Direction,
      m.station.interrupt.wanted.has direction.category =
        (m.station.interrupt.queue direction).isSome := by
  have inService (n : Machine) (op : Operation) (admitted : Lifecycle.Admits n (.operation op)) :
      op.InService := (Lifecycle.Admits.ofDevice admitted).inService
  obtain ⟨_, sound⟩ := run.sound fresh.resting ⟨a, fresh.target⟩ fresh.inactive fresh.new granted
  have settled := run.settled fresh.resting sound rests
  have free : prepared.station.interrupt.lock = .free := by rw [fresh.new]
  have single := run.single fresh.resting inService free
  have idle := (run.governs fresh.resting (lockLaw.obeyed inService)).2
  rw [rests] at idle
  refine ⟨⟨run.backing.trans fresh.device, (run.serves inService fresh.resting).trans fresh.target,
    left, settled.state.trans left, single.free_of_none fun depth holds => ?_⟩, settled.queues⟩
  unfold Holding at holds
  rw [(idle depth (Nat.zero_le depth)).1] at holds
  cases holds

theorem lives {outcome : Except Fault Answer} {inner : History} (dormant : Dormant a start.station)
    (run : Run Lifecycle.Admits prepared before start)
    (call : Call Admits start .enterWorking outcome inner m) :
    Run Lifecycle.Admits prepared
        (Operation.enterWorking.over outcome :: inner ++
          .begun 0 (.operation .enterWorking) :: before) m ∧
      (.faulted .lockHeld ∉ before → .faulted .lockHeld ∉
        Operation.enterWorking.over outcome :: inner ++
          .begun 0 (.operation .enterWorking) :: before) := by
  constructor
  · refine run.resume call.resting ?_ ?_ call.run
    · refine ⟨trivial, ⟨a, dormant.target⟩, by rintro ⟨⟩, fun _ => ?_⟩
      rw [call.resting]
      exact List.forall_mem_nil _
    · rintro earlier n step within rfl
      obtain ⟨_, known, _⟩ := (chronicle dormant.device).stands call.resting within
      exact ⟨trivial, ⟨a, known.target.trans dormant.target⟩, by rintro ⟨⟩, by rintro ⟨⟩⟩
  · intro granted member
    obtain ⟨rfl, _⟩ := enters dormant call
    obtain ⟨_, _, _, _, unfinished⟩ := (chronicle dormant.device).concludes call
    rcases List.mem_append.mp member with during | earlier
    · rcases List.mem_cons.mp during with ended | during
      · cases ended
      · exact unfinished (.error .lockHeld) during
    · rcases List.mem_cons.mp earlier with begun | earlier
      · cases begun
      · exact granted earlier

/-- The device has entered the working state from `start` at `m`, has left it again in the course of its
life, and rests at `idle`, under the same status and with the same queues registered. -/
structure Returned (a : Adapter) (start m idle : Machine) : Prop where
  prior : ∃ prepared before, Prepared a prepared ∧ Run Lifecycle.Admits prepared before start ∧
    .faulted .lockHeld ∉ before
  since : ∃ between, Run Lifecycle.Admits m between idle ∧ .faulted .lockHeld ∉ between ∧
    (transitions between).head? = some false
  rests : idle.stack = []
  status : idle.station.registers.cell Register.macPhyStatus =
    start.station.registers.cell Register.macPhyStatus
  queues : ∀ direction, (idle.station.interrupt.queue direction).isSome =
    (start.station.interrupt.queue direction).isSome

/-- It is as dormant then as it was before, and wants what it wanted. -/
theorem Returned.dormant {idle : Machine} {outcome : Except Fault Answer} {inner : History}
    (returned : Returned a start m idle) (dormant : Dormant a start.station)
    (call : Call Admits start .enterWorking outcome inner m) :
    Dormant a idle.station ∧ idle.station.interrupt.wanted = start.station.interrupt.wanted := by
  obtain ⟨⟨prepared, before, fresh, run, granted⟩, ⟨between, onward, later, out⟩, rests, _, queues⟩ :=
    returned
  obtain ⟨lived, unfailing⟩ := lives dormant run call
  have whole := lived.trans onward
  have quiet : .faulted .lockHeld ∉ between ++
      (Operation.enterWorking.over outcome :: inner ++
        .begun 0 (.operation .enterWorking) :: before) := by
    intro member
    rcases List.mem_append.mp member with since | prior
    · exact later since
    · exact unfailing granted prior
  obtain ⟨_, sound⟩ := whole.sound fresh.resting ⟨a, fresh.target⟩ fresh.inactive fresh.new quiet
  have settled := whole.settled fresh.resting sound rests
  have inactive : idle.station.active = false := by
    obtain ⟨earlier, passed⟩ := List.head?_eq_some_iff.mp out
    rw [settled.active, transitions_append, passed]
    rfl
  obtain ⟨idles, wants⟩ := fresh.dormant whole quiet rests inactive
  obtain ⟨_, wanted⟩ := fresh.dormant run granted call.resting dormant.inactive
  refine ⟨idles, InterruptMask.eq_of_has (idles.missing.trans dormant.missing.symm) ?_⟩
  intro direction
  rw [wants, wanted, queues]

end Life

structure Forgetful (a : Adapter) (start m : Machine) (outcome : Except Fault Answer) (inner : History) :
    Prop where
  succeeds : outcome = .ok .ok
  entered : Entered a start.station m.station inner
  independent : ∀ {b : Adapter} {other n : Machine} {outcome : Except Fault Answer} {inner : History},
    Dormant b other.station → Call Admits other .enterWorking outcome inner n →
    b.features = a.features →
    other.station.registers.cell Register.macPhyStatus =
      start.station.registers.cell Register.macPhyStatus →
    other.station.interrupt.wanted = start.station.interrupt.wanted →
      ∀ offset ∈ registers, n.station.registers.cell offset = m.station.registers.cell offset
  /-- In the life of a device, leaving the working state and entering it again brings every register
  back. -/
  restored : ∀ {idle n : Machine} {outcome : Except Fault Answer} {inner : History},
    Returned a start m idle → Call Admits idle .enterWorking outcome inner n →
      outcome = .ok .ok ∧
        ∀ offset ∈ registers, n.station.registers.cell offset = m.station.registers.cell offset

end Entering

open Entering in
/-- Entering the working state programs the same words whatever went before, with interrupts in the
middle of it or without. -/
theorem Call.entry_forgetful {a : Adapter} {start m : Machine} {outcome : Except Fault Answer}
    {inner : History} (dormant : Dormant a start.station)
    (call : Call Entering.Admits start .enterWorking outcome inner m) :
    Entering.Forgetful a start m outcome inner where
  succeeds := (enters dormant call).1
  entered := (enters dormant call).2
  independent other again features status wanted :=
    (enters dormant call).2.agree (enters other again).2 features status wanted
  restored returned again := by
    obtain ⟨idles, same⟩ := returned.dormant dormant call
    obtain ⟨succeeds, entered⟩ := enters idles again
    exact ⟨succeeds, (enters dormant call).2.agree entered rfl returned.status same⟩

def leftoverDevice : Machine where
  station :=
    { registers :=
        { cell := fun offset =>
            if offset = Register.macPhyStatus then 0xB0000
            else if offset = Register.channelStatus then 0x8040 else 0xFFFFFFFF }
      target := .device ⟨0, ⟨0, 0, 0x8C0, 0, 0⟩, .ofWidth .bits32, .zero, .zero⟩ }
  hooks :=
    [(.read Register.channelStatus, [.operation .interrupt]),
      (.write Register.macInterruptEnable, [.operation .interrupt, .operation .interrupt])]

theorem Call.entry_forgetful_leftoverDevice :
    ∃ (m idle n : Machine) (inner between again : History) (a : Adapter),
      Call Entering.Admits leftoverDevice .enterWorking (.ok .ok) inner m ∧
      handlerAnswers inner = [false, false, true] ∧
      Entering.Forgetful a leftoverDevice m (.ok .ok) inner ∧
      Run Lifecycle.Admits m between idle ∧ transitions between = [false] ∧
      Call Entering.Admits idle .enterWorking (.ok .ok) again n ∧
      ∀ offset ∈ Entering.registers,
        n.station.registers.cell offset = m.station.registers.cell offset := by
  have call : Call Entering.Admits leftoverDevice .enterWorking (.ok .ok) _ _ :=
    .letting 80 rfl (List.forall_mem_cons.mpr ⟨⟨nofun, rfl⟩, List.forall_mem_cons.mpr ⟨⟨nofun, rfl⟩,
      List.forall_mem_singleton.mpr ⟨nofun, rfl⟩⟩⟩) rfl
  have forgetful := call.entry_forgetful ⟨rfl, rfl, rfl, rfl, rfl⟩
  have left : Run Lifecycle.Admits (leftoverDevice.after .enterWorking 80)
      (_ ++ .begun 0 (.operation .leaveWorking) :: []) _ :=
    Run.refl.alone 40 rfl rfl ⟨trivial, ⟨_, rfl⟩, fun _ _ => rfl, fun _ => List.forall_mem_nil _⟩
  have again : Call Entering.Admits
      ((leftoverDevice.after .enterWorking 80).after .leaveWorking 40) .enterWorking (.ok .ok) _ _ :=
    .alone 60 rfl rfl rfl
  have returned : Entering.Returned _ leftoverDevice _ _ :=
    ⟨⟨_, [], ⟨rfl, rfl, rfl, rfl, rfl⟩, .refl, nofun⟩,
      ⟨_, left, History.not_faulted (by rfl) _, rfl⟩, rfl, rfl, fun direction => by cases direction <;> rfl⟩
  obtain ⟨_, restored⟩ := forgetful.restored returned again
  exact ⟨_, _, _, _, _, _, _, call, rfl, forgetful, left, rfl, again, restored⟩

end EthernetMac
