import EthernetMac.Proofs.Footprint
import EthernetMac.Proofs.Power.Stages

/-! Leaving the working state against the worker's refresh of the link. Both read the configuration
and write it back, and no lock is held between the two accesses: of two calls that read the same
value, the one that writes last decides. -/

namespace EthernetMac

open Program

structure ConfigUse where
  call : Option Operation
  held : Option Word

namespace ConfigUse

def begin (op : Operation) : ConfigUse := ⟨some op, none⟩

inductive Writes : ConfigUse → Word → Prop where
  | stops (old : Word) : Writes ⟨some .leaveWorking, some old⟩ (Working.stopped old)
  | refreshes (old status : Word) : Writes ⟨some .deferred, some old⟩ (reconcile old status)

def Permits (q : ConfigUse) : Effect → Prop
  | .store offset value => offset = Register.macConfiguration → q.Writes value
  | _ => True

def after (q : ConfigUse) : (e : Effect) → e.Answer → ConfigUse
  | .load offset, value =>
    ⟨q.call, if offset = Register.macConfiguration then some value else none⟩
  | _, _ => ⟨q.call, none⟩

end ConfigUse

def configLaw : Law ConfigUse where
  idle := ⟨none, none⟩
  start := .begin
  permits := ConfigUse.Permits
  after := ConfigUse.after

namespace configLaw

@[simp] theorem idle_eq : configLaw.idle = ⟨none, none⟩ := rfl

@[simp] theorem start_eq : configLaw.start = ConfigUse.begin := rfl

@[simp] theorem after_eq : configLaw.after = ConfigUse.after := rfl

theorem call_eq (depth : Nat) (history : History) :
    (configLaw.state depth history).call = calls.state depth history :=
  Law.state_map ConfigUse.call rfl (fun _ => rfl) (fun _ e _ => by cases e <;> rfl) depth history

def Unrelated : Effect → Prop
  | .load offset | .store offset _ => offset ≠ Register.macConfiguration
  | _ => True

theorem Unrelated.load {offset : Nat} (apart : offset ≠ Register.macConfiguration) :
    Unrelated (.load offset) := apart

theorem Unrelated.store {offset : Nat} {value : Word} (apart : offset ≠ Register.macConfiguration) :
    Unrelated (.store offset value) := apart

theorem ignores (op : Operation) (e : Effect) (unrelated : Unrelated e) :
    configLaw.Ignores (.begin op) e := by
  cases e with
  | load offset => exact ⟨trivial, fun _ => congrArg (ConfigUse.mk _) (if_neg unrelated)⟩
  | store offset value => exact ⟨fun here => absurd here unrelated, fun _ => rfl⟩
  | _ => exact ⟨trivial, fun _ => rfl⟩

theorem of_only {op : Operation} {α : Type} {p : Program α} {allowed : Effect → Prop}
    (only : p.Only allowed) (unrelated : ∀ e, allowed e → Unrelated e) :
    p.Obeys configLaw (fun _ after => after = .begin op) (.begin op) :=
  .of_only only (fun e inside => ignores op e (unrelated e inside)) trivial

theorem of_act {op : Operation} (e : Effect) (unrelated : Unrelated e) :
    (act e).Obeys configLaw (fun _ after => after = .begin op) (.begin op) :=
  of_only (.act unrelated) fun _ => id

theorem unrelated_of_section (e : Effect) (inside : sectionActions e) : Unrelated e := by
  cases e with
  | store offset value => rcases inside with rfl | rfl <;> exact .store (by decide)
  | load => exact inside.elim
  | _ => trivial

theorem unrelated_of_filter {tableSize : Nat} (e : Effect) (inside : filterActions tableSize e) :
    Unrelated e := by
  cases e with
  | store offset value =>
    rcases inside with rfl | ⟨slot, _, rfl | rfl⟩
    · exact .store (by decide)
    · exact .store (Nat.ne_of_gt (Nat.add_pos_left (by decide) _))
    · exact .store (Nat.ne_of_gt (Nat.add_pos_left (Nat.add_pos_left (by decide) _) _))
  | load => exact inside.elim
  | _ => trivial

theorem unrelated_of_handler (e : Effect) (inside : handlerActions e) : Unrelated e := by
  cases e with
  | load offset => rcases inside with rfl | rfl | rfl <;> exact .load (by decide)
  | store offset value =>
    cases inside
    exact .store (by decide)
  | _ => trivial

theorem unrelated_of_statistics (e : Effect) (inside : statisticsActions e) : Unrelated e := by
  cases e with
  | load offset => exact Nat.ne_of_gt (Nat.lt_of_le_of_lt (Nat.zero_le _) inside.2)
  | store => exact inside.elim
  | _ => trivial

theorem refresh : (discard refreshLink).Obeys configLaw
    (fun _ after => after = .begin .deferred) (.begin .deferred) := by
  rw [obeys_discard]
  refine Obeys.seq (of_act (.load Register.macPhyStatus) (.load (by decide))) fun status => ?_
  rw [obeys_bind, obeys_load]
  refine ⟨trivial, fun config => ⟨trivial, ?_⟩⟩
  have publish (held : Option Word) :
      (do act (.publishLink (.ofStatus status)); return LinkState.ofStatus status).Obeys configLaw
        (fun _ after => after = ConfigUse.begin .deferred) ⟨some .deferred, held⟩ :=
    ⟨trivial, fun _ => ⟨fun _ => trivial, rfl⟩⟩
  rw [obeys_bind, obeys_onlyIf]
  constructor
  · intro _
    exact (obeys_store ..).mpr ⟨fun _ => .refreshes config status, trivial, publish none⟩
  · intro _
    exact publish (some config)

theorem deferred {linkChange : Program Unit}
    (either : linkChange = act .linkChanged ∨ linkChange = discard refreshLink) :
    (Task.deferred linkChange).Obeys configLaw (fun _ _ => True) (.begin .deferred) := by
  have link : linkChange.Obeys configLaw (fun _ after => after = .begin .deferred)
      (.begin .deferred) := by
    rcases either with rfl | rfl
    · exact of_act .linkChanged trivial
    · exact refresh
  have count (counter : Counter) : (act (.count counter)).Obeys configLaw
      (fun _ after => after = .begin .deferred) (.begin .deferred) :=
    of_act (.count counter) trivial
  have serve (causes : Causes) : (Interrupt.serve linkChange causes).Obeys configLaw
      (fun _ after => after = .begin .deferred) (.begin .deferred) := by
    refine Obeys.seq (.onlyIf fun _ => count .abnormal) fun _ => ?_
    refine Obeys.seq (.onlyIf fun _ => count .fatal) fun _ => ?_
    refine Obeys.seq (.onlyIf fun _ => (count .linkChange).seq fun _ => link) fun _ => ?_
    exact .onlyIf fun _ => of_only (Interrupt.serveQueues_only causes) unrelated_of_section
  refine (obeys_bind ..).mpr (Obeys.seq (of_act .drain trivial) fun word => ?_)
  rw [obeys_ite]
  exact ⟨fun _ => trivial, fun _ => (serve _).seq fun _ => trivial⟩

theorem leaveWorking : Adapter.leaveWorking.Obeys configLaw (fun _ _ => True)
    (.begin .leaveWorking) := by
  have cleared (direction : Direction) : (Adapter.requireCleared direction).Only Unrelated :=
    (Only.act trivial).bind fun _ => .ite (.fail trivial) (.pure ())
  refine Adapter.leaveWorking_parts (q := .begin .leaveWorking) ?turnedOff
    (of_only (Interrupt.disable_only .all) unrelated_of_section)
    (fun direction => of_only (cleared direction) fun _ => id) ?stopped
  case turnedOff =>
    refine (of_act (.setActive false) trivial).mono fun was _ same => ?_
    cases was with
    | true => exact same
    | false => trivial
  case stopped =>
    rw [obeys_bind, obeys_load]
    refine ⟨trivial, fun config => ⟨trivial, ?_⟩⟩
    rw [obeys_store]
    exact ⟨fun _ => .stops config, trivial, trivial⟩

theorem task {op : Operation} (inService : op.InService) (stays : op ≠ .enterWorking)
    (apart : ∀ value, op ≠ .write Register.macConfiguration value) (target : Target) :
    (op.task target).Obeys configLaw (fun _ _ => True) (configLaw.start op) := by
  have once {α : Type} {p : Program α} {answer : α → Answer} {allowed : Effect → Prop}
      (only : p.Only allowed) (unrelated : ∀ e, allowed e → Unrelated e) :
      (Task.once p answer).Obeys configLaw (fun _ _ => True) (.begin op) :=
    (of_only only unrelated).seq fun _ => trivial
  have work := op.work inService target
  generalize op.task target = task at work
  cases work with
  | nothing => trivial
  | read | load => exact ⟨trivial, fun _ => ⟨fun _ => trivial, trivial⟩⟩
  | write offset value =>
    refine once (.store (fun here => ?_ : Unrelated (.store offset value))) fun _ => id
    subst here
    exact apart value rfl
  | statistics => exact once readStatistics_only unrelated_of_statistics
  | filter a flags multicast => exact once (applyFilter_only ..) unrelated_of_filter
  | enterWorking => exact absurd rfl stays
  | leaveWorking => exact (obeys_once ..).mpr leaveWorking
  | register direction queue =>
    exact once (Interrupt.register_only direction queue) unrelated_of_section
  | enable bits => exact once (Interrupt.enable_only bits) unrelated_of_section
  | disable bits => exact once (Interrupt.disable_only bits) unrelated_of_section
  | interrupt => exact once Interrupt.handle_only unrelated_of_handler
  | deferred linkChange either => exact deferred either
  | wanted => exact once (.act trivial : (act .wanted).Only Unrelated) fun _ => id
  | describe a =>
    refine (of_act .wanted trivial).seq fun _ => (of_act .active trivial).seq fun _ => trivial

end configLaw

namespace Overtaking

/-- Operations on a device that does not enter the working state again. Nothing but the device writes
its configuration. -/
def Admits (_ : Machine) : Step → Prop
  | .set offset _ => offset ≠ Register.macConfiguration
  | .operation op =>
    op.InService ∧ op ≠ .enterWorking ∧ ∀ value, op ≠ .write Register.macConfiguration value
  | _ => True

def Reads (depth : Nat) (old : Word) (history : History) : Prop :=
  ∃ since before,
    history = since ++ .acted depth .deferred (.load Register.macConfiguration) old :: before ∧
      ∀ entry ∈ since, Law.SilentAt depth entry

/-- Between the worker's read and its next action another call has written the configuration on its
way out of the working state. -/
def Stale (depth : Nat) (old : Word) (history : History) : Prop :=
  ∃ since leaving value before,
    history = since ++
      .acted leaving .leaveWorking (.store Register.macConfiguration value) () :: before ∧
    leaving ≠ depth ∧ Reads depth old before ∧ ∀ entry ∈ since, Law.SilentAt depth entry

/-- A worker has put back what it had read before the write of a call that left the working state. -/
def Overtaken (history : History) : Prop :=
  ∃ depth old status since before,
    history = since ++
      .acted depth .deferred (.store Register.macConfiguration (reconcile old status)) () :: before ∧
    Stale depth old before ∧ ¬ Working.Enabled false old

def Left (history : History) : Prop :=
  ∃ depth value, .acted depth .leaveWorking (.store Register.macConfiguration value) () ∈ history

def Holds (history : History) (depth : Nat) (old : Word) : Prop :=
  configLaw.state depth history = ⟨some .deferred, some old⟩

variable {history : History} {entry : Entry} {depth : Nat} {old : Word} {s after : Station}

theorem Reads.onward (reads : Reads depth old history) (silent : Law.SilentAt depth entry) :
    Reads depth old (entry :: history) := by
  obtain ⟨since, before, rfl, quiet⟩ := reads
  exact ⟨entry :: since, before, rfl, List.forall_mem_cons.mpr ⟨silent, quiet⟩⟩

theorem Stale.onward (stale : Stale depth old history) (silent : Law.SilentAt depth entry) :
    Stale depth old (entry :: history) := by
  obtain ⟨since, leaving, value, before, rfl, apart, reads, quiet⟩ := stale
  exact ⟨entry :: since, leaving, value, before, rfl, apart, reads,
    List.forall_mem_cons.mpr ⟨silent, quiet⟩⟩

theorem Overtaken.onward (overtaken : Overtaken history) : Overtaken (entry :: history) := by
  obtain ⟨depth, old, status, since, before, rfl, known⟩ := overtaken
  exact ⟨depth, old, status, entry :: since, before, rfl, known⟩

theorem Left.of_cons (left : Left (entry :: history))
    (other : ∀ depth value,
      entry ≠ .acted depth .leaveWorking (.store Register.macConfiguration value) ()) :
    Left history := by
  obtain ⟨depth, value, member⟩ := left
  rcases List.mem_cons.mp member with same | earlier
  · exact absurd same.symm (other depth value)
  · exact ⟨depth, value, earlier⟩

theorem Holds.earlier (holds : Holds (entry :: history) depth old)
    (silent : Law.SilentAt depth entry) : Holds history depth old :=
  (Law.state_of_silent silent).symm.trans holds

/-- Receiver and transmitter are off, and whoever could turn them on again read the configuration
before they went off. -/
def Off (history : History) (s : Station) : Prop :=
  Working.Enabled false (s.registers.cell Register.macConfiguration) ∧
    ∀ depth old, Holds history depth old → Working.Enabled false old ∨ Stale depth old history

structure Sound (history : History) (s : Station) : Prop where
  reads : ∀ depth old, Holds history depth old → Reads depth old history
  off : Left history → Off history s ∨ Overtaken history

namespace Off

theorem onward (off : Off history s)
    (quiet : ∀ depth old, Holds (entry :: history) depth old → Law.SilentAt depth entry)
    (off' : Working.Enabled false (after.registers.cell Register.macConfiguration)) :
    Off (entry :: history) after := by
  refine ⟨off', fun depth old holds => ?_⟩
  have silent := quiet depth old holds
  exact (off.2 depth old (holds.earlier silent)).imp_right (·.onward silent)

end Off

namespace Sound

theorem onward (sound : Sound history s)
    (quiet : ∀ depth old, Holds (entry :: history) depth old → Law.SilentAt depth entry)
    (other : ∀ depth value,
      entry ≠ .acted depth .leaveWorking (.store Register.macConfiguration value) ())
    (same : after.registers.cell Register.macConfiguration =
      s.registers.cell Register.macConfiguration) :
    Sound (entry :: history) after := by
  constructor
  · intro depth old holds
    have silent := quiet depth old holds
    exact (sound.reads depth old (holds.earlier silent)).onward silent
  · intro left
    rcases sound.off (left.of_cons other) with off | overtaken
    · exact .inl (off.onward quiet (same ▸ off.1))
    · exact .inr overtaken.onward

variable {n : Nat} {op : Operation}

theorem load {value : Word} (sound : Sound history s)
    (acting : configLaw.Acting history n op (.load Register.macConfiguration))
    (applied : s.apply (.load Register.macConfiguration) = .ok (value, after)) :
    Sound (.acted n op (.load Register.macConfiguration) value :: history) after := by
  have stays : after.registers.cell Register.macConfiguration =
      s.registers.cell Register.macConfiguration :=
    Station.load_cell applied (by decide) (by decide)
  have reader (old : Word)
      (holds : Holds (.acted n op (.load Register.macConfiguration) value :: history) n old) :
      op = .deferred ∧ old = value := by
    have call : (configLaw.state n history).call = some op :=
      (configLaw.call_eq n history).trans acting.called
    unfold Holds at holds
    rw [Law.state_acted, if_pos rfl, configLaw.after_eq] at holds
    obtain ⟨mine, read⟩ := ConfigUse.mk.inj holds
    exact ⟨Option.some.inj (call.symm.trans mine), (Option.some.inj read).symm⟩
  constructor
  · intro depth old holds
    by_cases here : n = depth
    · subst here
      obtain ⟨rfl, rfl⟩ := reader old holds
      exact ⟨[], history, rfl, List.forall_mem_nil _⟩
    · exact (sound.reads depth old (holds.earlier here)).onward here
  · intro left
    rcases sound.off (left.of_cons fun _ _ => nofun) with ⟨off, stale⟩ | overtaken
    · refine .inl ⟨stays ▸ off, fun depth old holds => ?_⟩
      by_cases here : n = depth
      · subst here
        obtain ⟨_, rfl⟩ := reader old holds
        left
        rw [← Station.load_value applied, stays]
        exact off
      · exact (stale depth old (holds.earlier here)).imp_right (·.onward here)
    · exact .inr overtaken.onward

/-- Whoever writes the configuration has nothing in hand afterwards. -/
theorem quiet_of_store (op : Operation) (value : Word) (depth : Nat) (old : Word)
    (holds : Holds (.acted n op (.store Register.macConfiguration value) () :: history) depth old) :
    Law.SilentAt depth (.acted n op (.store Register.macConfiguration value) ()) := by
  rintro rfl
  unfold Holds at holds
  rw [Law.state_acted, if_pos rfl] at holds
  cases (ConfigUse.mk.inj holds).2

theorem store {value : Word} (sound : Sound history s)
    (acting : configLaw.Acting history n op (.store Register.macConfiguration value))
    (applied : s.apply (.store Register.macConfiguration value) = .ok ((), after)) :
    Sound (.acted n op (.store Register.macConfiguration value) () :: history) after := by
  have stands : after.registers.cell Register.macConfiguration = value :=
    Station.store_value applied (by decide)
  have call : (configLaw.state n history).call = some op :=
    (configLaw.call_eq n history).trans acting.called
  have writes : (configLaw.state n history).Writes value := acting.permitted rfl
  have quiet : ∀ depth old,
      Holds (.acted n op (.store Register.macConfiguration value) () :: history) depth old →
        Law.SilentAt depth (.acted n op (.store Register.macConfiguration value) ()) :=
    quiet_of_store op value
  refine ⟨fun depth old holds => ?_, fun left => ?_⟩
  · have silent := quiet depth old holds
    exact (sound.reads depth old (holds.earlier silent)).onward silent
  generalize here : configLaw.state n history = q at writes call
  cases writes with
  | stops read =>
    obtain rfl : Operation.leaveWorking = op := Option.some.inj call
    -- Whoever has an older value in hand is overtaken from now on.
    refine .inl ⟨stands ▸ Working.enabled_stopped read, fun depth old holds => .inr ?_⟩
    have silent := quiet depth old holds
    exact ⟨[], n, _, history, rfl, silent, sound.reads depth old (holds.earlier silent),
      List.forall_mem_nil _⟩
  | refreshes read status =>
    obtain rfl : Operation.deferred = op := Option.some.inj call
    rcases sound.off (left.of_cons fun _ _ => nofun) with off | overtaken
    · by_cases enabled : Working.Enabled false read
      · exact .inl (off.onward quiet (stands ▸ enabled.reconcile status))
      · have stale := (off.2 n read here).resolve_left enabled
        exact .inr ⟨n, read, status, [], history, rfl, stale, enabled⟩
    · exact .inr overtaken.onward

theorem act {e : Effect} {answer : e.Answer} (sound : Sound history s)
    (acting : configLaw.Acting history n op e) (applied : s.apply e = .ok (answer, after)) :
    Sound (.acted n op e answer :: history) after := by
  -- Any other action takes what was read out of a call's hands.
  have aside (drops : (configLaw.after (configLaw.state n history) e answer).held = none)
      (other : ∀ value, e ≠ .store Register.macConfiguration value)
      (same : after.registers.cell Register.macConfiguration =
        s.registers.cell Register.macConfiguration) :
      Sound (.acted n op e answer :: history) after := by
    refine sound.onward (fun depth old holds => ?_) (fun depth value => ?_) same
    · rintro rfl
      unfold Holds at holds
      rw [Law.state_acted, if_pos rfl] at holds
      rw [holds] at drops
      cases drops
    · intro exits
      cases exits
      exact other value rfl
  cases e with
  | load offset =>
    by_cases here : offset = Register.macConfiguration
    · subst here
      exact sound.load acting applied
    · exact aside (if_neg here) (fun _ => nofun)
        (Station.load_cell applied (by decide) (by decide))
  | store offset value =>
    by_cases here : offset = Register.macConfiguration
    · subst here
      exact sound.store acting applied
    · refine aside rfl (fun other same => ?_) (Station.store_cell applied (Ne.symm here))
      cases same
      exact here rfl
  | _ => exact aside rfl (fun _ => nofun) (by rw [Station.apply_registers applied]; rfl)

end Sound

/-- A call that leaves the working state has written the configuration by its end. -/
theorem store_of_leaving {deeds : List Deed} (course : Adapter.leaveWorking.Course deeds (.ok ())) :
    ∃ value, (⟨.store Register.macConfiguration value, ()⟩ : Deed) ∈ deeds := by
  unfold Adapter.leaveWorking at course
  rw [course_act_bind] at course
  obtain ⟨was, rest, rfl, course⟩ := course
  cases was with
  | false =>
    obtain ⟨_, result⟩ := course
    cases result
  | true =>
    rw [if_pos rfl] at course
    rw [course_bind] at course
    obtain ⟨_, _, _, rfl, _, course⟩ := course
    rw [course_bind] at course
    obtain ⟨_, _, _, rfl, _, course⟩ := course
    rw [course_bind] at course
    obtain ⟨_, _, _, rfl, _, course⟩ := course
    rw [course_load_bind] at course
    obtain ⟨config, _, rfl, course⟩ := course
    rw [course_store_bind] at course
    obtain ⟨_, rfl, _⟩ := course
    exact ⟨Working.stopped config, by simp⟩

theorem store_of_course {target : Target} {deeds : List Deed}
    (course : (Operation.leaveWorking.task target).Course deeds (.finished .ok)) :
    ∃ value, (⟨.store Register.macConfiguration value, ()⟩ : Deed) ∈ deeds := by
  cases target with
  | noDevice => cases course.2
  | interrupts => cases course.2
  | device adapter =>
    obtain ⟨result, leaving, answered⟩ := (course_once ..).mp course
    cases result with
    | ok => exact store_of_leaving leaving
    | error => cases answered

end Overtaking

namespace Run

open Overtaking (Admits Sound Left Holds)

variable {start m : Machine} {history : History} (resting : start.stack = [])
  (run : Run Admits start history m)

include resting run

theorem left_of_ended {depth : Nat} (ended : .ended depth .leaveWorking .ok ∈ history) :
    Left history := by
  obtain ⟨later, earlier, rfl⟩ := List.append_of_mem ended
  obtain ⟨before, reached, ⟨_, ⟨⟩, _⟩ | ⟨_, shown, _⟩⟩ := run.before
  obtain ⟨target, below, top, rfl⟩ := Machine.entry?_ended shown
  obtain ⟨deeds, _, follows, course⟩ :=
    reached.round_course (fun _ _ => True) resting (fun _ _ _ => trivial) top
  obtain ⟨value, member⟩ := Overtaking.store_of_course course
  have acted := reached.trail_acted resting follows member
  exact ⟨_, value, List.mem_append_right _ (.tail _ acted)⟩

theorem config_sound : Sound history m.station := by
  have obeyed (m : Machine) (op : Operation) (admitted : Admits m (.operation op)) :
      (op.task m.station.target).Obeys configLaw (fun _ => configLaw.ends) (configLaw.start op) :=
    configLaw.task admitted.1 admitted.2.1 admitted.2.2 m.station.target
  refine Run.account (P := Sound) ?initial ?blind ?surround ?operate ?act ?renew ?finish ?abort run
  case initial => exact ⟨fun _ _ => nofun, fun ⟨_, _, member⟩ => nomatch member⟩
  case blind => exact fun _ sound => ⟨sound.reads, sound.off⟩
  case surround =>
    intro history m step below _ admitted _ surrounds sound
    refine sound.onward (fun depth _ _ => ?_) (fun _ _ => nofun) ?_
    · cases step with
      | operation op => exact absurd rfl (surrounds op)
      | _ => trivial
    · cases step with
      | set offset value => exact RegisterFile.cell_set_of_ne _ _ (Ne.symm admitted)
      | raiseLink | raiseChannel => exact RegisterFile.cell_set_of_ne _ _ (by decide)
      | _ => rfl
  case operate =>
    intro history m op below _ _ _ sound
    refine sound.onward (fun depth old holds => ?_) (fun _ _ => nofun) rfl
    rintro rfl
    unfold Holds at holds
    rw [Law.state_begun, if_pos rfl] at holds
    cases (ConfigUse.mk.inj holds).2
  case act =>
    intro history m op target e next below answer after run top applied sound
    exact sound.act (run.acting resting obeyed top) applied
  case renew =>
    intro history m op target below _ _ sound
    refine sound.onward (fun depth old holds => ?_) (fun _ _ => nofun) rfl
    rintro rfl
    unfold Holds at holds
    rw [Law.state_renewed, if_pos rfl] at holds
    cases (ConfigUse.mk.inj holds).2
  case finish =>
    intro history m op target answer below _ _ sound
    refine sound.onward (fun depth old holds => ?_) (fun _ _ => nofun) rfl
    rintro rfl
    unfold Holds at holds
    rw [Law.state_ended, if_pos rfl] at holds
    cases (ConfigUse.mk.inj holds).2
  case abort =>
    intro history m op target e next below cause _ _ _ sound
    exact sound.onward (fun _ _ => nofun) (fun _ _ => nofun) rfl

/-- Once a call has left the working state, receiver and transmitter are off, unless a worker puts
back a configuration with one of them on that it read before that call wrote its own. -/
theorem stays_stopped {depth : Nat} (ended : .ended depth .leaveWorking .ok ∈ history) :
    Working.Enabled false (m.station.registers.cell Register.macConfiguration) ∨
      Overtaking.Overtaken history := by
  rcases (run.config_sound resting).off (run.left_of_ended resting ended) with off | overtaken
  · exact .inl off.1
  · exact .inr overtaken

end Run

def linkChanging (point : Point) : Machine where
  station :=
    { registers :=
        { cell := fun offset =>
            if offset = Register.macConfiguration then Working.macConfiguration else 0 }
      target := .device ⟨0, ⟨0, 0, 0, 0, 0⟩, .ofWidth .bits32, .zero, .zero⟩
      active := true
      interrupt := { wanted := .stateOnly, pending := ⟨linkCause⟩ } }
  hooks := [(point, [.operation .leaveWorking])]

theorem Run.stays_stopped_publishing :
    ∃ (history : History) (m : Machine),
      Run Overtaking.Admits (linkChanging .link) history m ∧ m.stack = [] ∧
      .ended 2 .leaveWorking .ok ∈ history ∧
      (Working.Enabled false (m.station.registers.cell Register.macConfiguration) ∨
        Overtaking.Overtaken history) := by
  have run := (@Run.refl Overtaking.Admits (linkChanging .link)).performs (.operation .deferred) rfl
    ⟨trivial, nofun, nofun⟩ 40 (List.forall_mem_singleton.mpr ⟨trivial, nofun, nofun⟩)
  exact ⟨_, _, run, rfl, List.mem_of_getElem? (i := 3) rfl,
    run.stays_stopped rfl (List.mem_of_getElem? (i := 3) rfl)⟩

/-- A call that is let in right after the worker has read the configuration is undone: both have
answered, and receiver and transmitter are on. -/
theorem Overtaking.receiver_on_again :
    ∃ (history : History) (m : Machine),
      Run Overtaking.Admits (linkChanging (.read Register.macConfiguration)) history m ∧
      m.stack = [] ∧ .ended 2 .leaveWorking .ok ∈ history ∧ .ended 0 .deferred .ok ∈ history ∧
      Working.Enabled true (m.station.registers.cell Register.macConfiguration) := by
  have start := @Run.refl Overtaking.Admits (linkChanging (.read Register.macConfiguration))
  have run := start.performs (.operation .deferred) rfl ⟨trivial, nofun, nofun⟩ 40
    (List.forall_mem_singleton.mpr ⟨trivial, nofun, nofun⟩)
  exact ⟨_, _, run, rfl, List.mem_of_getElem? (i := 5) rfl, List.mem_of_getElem? (i := 0) rfl,
    by decide, by decide⟩

end EthernetMac
