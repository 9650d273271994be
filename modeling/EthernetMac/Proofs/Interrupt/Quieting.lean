import EthernetMac.Proofs.Interrupt.Service
import EthernetMac.Proofs.Interrupt.Notices
import EthernetMac.Proofs.Power.Sections
import EthernetMac.Proofs.Reach

/-! A direction is quiet before its queue hears of it: by the time a worker notifies, every direction
that it was handed has left the mask, and the hardware was asked for no more than the mask. -/

namespace EthernetMac

open Program

def halfway : Law Bool where
  idle := false
  start _ := false
  permits _ _ := True
  after q e _ :=
    match e with
    | .store offset _ =>
      if offset = Register.macInterruptEnable then true
      else if offset = Register.channelInterruptEnable then false
      else q
    | _ => q

inductive QuietPhase where
  | out (done : Bool)
  | inside (known : Option InterruptMask) (placed : Bool) (taken : Option Direction)
  | set (mask : InterruptMask)
  | half (mask : InterruptMask)

structure QuietState where
  handed : Option Word
  phase : QuietPhase

namespace QuietState

def Tells (q : QuietState) : Prop :=
  ∃ word mask direction, q.handed = some word ∧ q.phase = .inside (some mask) false (some direction) ∧
    (Causes.ofWord word).has direction = true ∧
    ∀ other, (Causes.ofWord word).has other = true → mask.has other.category = false

def Permits (q : QuietState) : Effect → Prop
  | .load _ | .acquire | .wanted | .armed _ | .drain | .fault _ => ∃ done, q.phase = .out done
  | .linkChanged | .publishLink _ => q.phase = .out false
  | .store offset value =>
    if offset = Register.macInterruptEnable then ∃ mask, q.phase = .set mask
    else if offset = Register.channelInterruptEnable then
      ∃ mask, q.phase = .half mask ∧ value = mask.channelEnable
    else ∃ done, q.phase = .out done
  | .mask | .setMask _ | .setQueue _ _ => ∃ known placed taken, q.phase = .inside known placed taken
  | .takeQueue _ => ∃ known taken, q.phase = .inside known false taken
  | .notify _ => q.Tells
  | .release => ∃ known placed taken, q.phase = .inside known placed taken ∧
      (placed = true → ∃ mask, known = some mask ∧ mask ≠ .none)
  | .attach _ | .detach => False
  | _ => True

def after (q : QuietState) : (e : Effect) → e.Answer → QuietState
  | .drain, word => ⟨some word, .out false⟩
  | .acquire, _ => { q with phase := .inside none false none }
  | .release, _ => { q with phase := .out true }
  | .mask, mask =>
    match q.phase with
    | .inside _ placed taken => { q with phase := .inside (some mask) placed taken }
    | _ => q
  | .setMask mask, _ =>
    match q.phase with
    | .inside _ _ _ => { q with phase := .set mask }
    | _ => q
  | .setQueue _ queue, _ =>
    match q.phase with
    | .inside known placed taken => { q with phase := .inside known (placed || queue.isSome) taken }
    | _ => q
  | .takeQueue direction, answer =>
    match q.phase with
    | .inside known placed _ =>
      { q with phase := .inside known placed (answer.map fun _ => direction) }
    | _ => q
  | .store offset _, _ =>
    match q.phase with
    | .set mask => if offset = Register.macInterruptEnable then { q with phase := .half mask } else q
    | .half mask =>
      if offset = Register.channelInterruptEnable then { q with phase := .inside (some mask) false none }
      else q
    | _ => q
  | _, _ => q

end QuietState

namespace QuietPhase

def Waits : QuietPhase → Prop
  | out _ | half _ => True
  | inside _ placed _ => placed = false
  | set _ => False

def taken? : QuietPhase → Option Direction
  | inside _ _ taken => taken
  | _ => none

end QuietPhase

def quietLaw : Law QuietState where
  idle := ⟨none, .out false⟩
  start _ := ⟨none, .out false⟩
  permits := QuietState.Permits
  after := QuietState.after
  yields q := q.phase.Waits
  ends q := ∃ done, q.phase = .out done

namespace quietLaw

@[simp] theorem idle_eq : quietLaw.idle = ⟨none, .out false⟩ := rfl

@[simp] theorem start_eq (op : Operation) : quietLaw.start op = ⟨none, .out false⟩ := rfl

@[simp] theorem permits_eq : quietLaw.permits = QuietState.Permits := rfl

@[simp] theorem after_eq : quietLaw.after = QuietState.after := rfl

def Aside : Effect → Prop
  | .load _ | .wanted | .armed _ | .fault _ | .linkChanged | .publishLink _ => True
  | .store offset _ => offset ≠ Register.macInterruptEnable ∧ offset ≠ Register.channelInterruptEnable
  | .acquire | .drain | .mask | .setMask _ | .setQueue _ _ | .takeQueue _ | .notify _ | .release
  | .attach _ | .detach => False
  | _ => True

theorem ignores_aside {handed : Option Word} (e : Effect) (aside : Aside e) :
    quietLaw.Ignores ⟨handed, .out false⟩ e := by
  cases e with
  | store offset value =>
    refine ⟨?_, fun _ => rfl⟩
    rw [permits_eq, QuietState.Permits, if_neg aside.1, if_neg aside.2]
    exact ⟨_, rfl⟩
  | load | wanted | armed | fault => exact ⟨⟨_, rfl⟩, fun _ => rfl⟩
  | linkChanged | publishLink => exact ⟨rfl, fun _ => rfl⟩
  | acquire | drain | mask | setMask | setQueue | takeQueue | notify | release | attach | detach =>
    exact aside.elim
  | _ => exact ⟨trivial, fun _ => rfl⟩

theorem of_aside {handed : Option Word} {α : Type} {p : Program α} {allowed : Effect → Prop}
    (only : p.Only allowed) (aside : ∀ e, allowed e → Aside e) :
    p.Obeys quietLaw (fun _ after => after = ⟨handed, .out false⟩) ⟨handed, .out false⟩ :=
  .of_only only (fun e inside => ignores_aside e (aside e inside)) trivial

theorem of_act {handed : Option Word} (e : Effect) (aside : Aside e) :
    (act e).Obeys quietLaw (fun _ after => after = ⟨handed, .out false⟩) ⟨handed, .out false⟩ :=
  of_aside (.act aside) fun _ => id

variable {handed : Option Word} {known : Option InterruptMask} {placed : Bool}

theorem changeMask (new : InterruptMask) :
    (Interrupt.changeMask new).Obeys quietLaw
      (fun _ after => ∃ still, (still = true → placed = true) ∧
        after = ⟨handed, .inside (some new) still none⟩)
      ⟨handed, .inside known placed none⟩ := by
  refine ⟨⟨_, _, _, rfl⟩, fun old => ⟨by rintro ⟨⟩, ?_⟩⟩
  refine (obeys_onlyIf ..).mpr ⟨fun _ => ?_, fun same => ?_⟩
  · refine ⟨⟨_, _, _, rfl⟩, fun _ => ⟨by rintro ⟨⟩, ?_⟩⟩
    refine ⟨⟨_, rfl⟩, fun _ => ⟨fun _ => trivial, ?_⟩⟩
    refine ⟨⟨_, rfl, rfl⟩, fun _ => ⟨fun _ => rfl, ?_⟩⟩
    exact ⟨false, by rintro ⟨⟩, rfl⟩
  · have same : old = new := by simpa using same
    rw [← same]
    exact ⟨placed, id, rfl⟩

theorem addWanted (bits : InterruptMask) :
    (Interrupt.addWanted bits).Obeys quietLaw
      (fun _ after => ∃ (mask : InterruptMask) (still : Bool), (still = true → placed = true) ∧
        after = ⟨handed, .inside (some (mask ||| bits)) still none⟩)
      ⟨handed, .inside known placed none⟩ :=
  ⟨⟨_, _, _, rfl⟩, fun (mask : InterruptMask) => ⟨by rintro ⟨⟩,
    (changeMask (mask ||| bits)).mono fun _ _ post => ⟨mask, post⟩⟩⟩

theorem removeWanted (bits : InterruptMask) :
    (Interrupt.removeWanted bits).Obeys quietLaw
      (fun _ after => ∃ (mask : InterruptMask) (still : Bool), (still = true → placed = true) ∧
        after = ⟨handed, .inside (some (mask.difference bits)) still none⟩)
      ⟨handed, .inside known placed none⟩ :=
  ⟨⟨_, _, _, rfl⟩, fun (mask : InterruptMask) => ⟨by rintro ⟨⟩,
    (changeMask (mask.difference bits)).mono fun _ _ post => ⟨mask, post⟩⟩⟩

theorem locked {done : Bool} {p : Program Unit}
    (body : p.Obeys quietLaw (fun _ after => after.handed = handed ∧ after.Permits .release)
      ⟨handed, .inside none false none⟩) :
    (Program.locked p).Obeys quietLaw (fun _ after => after = ⟨handed, .out true⟩)
      ⟨handed, .out done⟩ := by
  rw [obeys_locked]
  refine ⟨⟨_, rfl⟩, fun _ => ⟨by rintro ⟨⟩, ?_⟩⟩
  rw [obeys_done]
  refine body.mono ?_
  rintro _ ⟨_, phase⟩ ⟨rfl, released⟩
  exact ⟨released, fun _ => ⟨by rintro ⟨⟩, rfl⟩⟩

theorem enable {done : Bool} (bits : InterruptMask) :
    (Interrupt.enable bits).Obeys quietLaw (fun _ after => after = ⟨handed, .out true⟩)
      ⟨handed, .out done⟩ := by
  refine locked ((addWanted bits).mono ?_)
  rintro _ _ ⟨mask, still, was, rfl⟩
  exact ⟨rfl, _, _, _, rfl, fun placed => nomatch was placed⟩

theorem disable {done : Bool} (bits : InterruptMask) :
    (Interrupt.disable bits).Obeys quietLaw (fun _ after => after = ⟨handed, .out true⟩)
      ⟨handed, .out done⟩ := by
  refine locked ((removeWanted bits).mono ?_)
  rintro _ _ ⟨mask, still, was, rfl⟩
  exact ⟨rfl, _, _, _, rfl, fun placed => nomatch was placed⟩

theorem register (direction : Direction) (queue : Option QueueHandle) :
    (Interrupt.register direction queue).Obeys quietLaw
      (fun _ after => after = ⟨handed, .out true⟩) ⟨handed, .out false⟩ := by
  refine locked ⟨⟨_, _, _, rfl⟩, fun _ => ⟨by rintro ⟨⟩, ?_⟩⟩
  cases queue with
  | none =>
    refine (removeWanted (.only direction)).mono ?_
    rintro _ _ ⟨mask, still, was, rfl⟩
    exact ⟨rfl, _, _, _, rfl, fun placed => nomatch was placed⟩
  | some handle =>
    refine (addWanted (.only direction)).mono ?_
    rintro _ _ ⟨mask, still, _, rfl⟩
    refine ⟨rfl, _, _, _, rfl, fun _ => ⟨_, rfl, fun empty => ?_⟩⟩
    have wants : (mask ||| InterruptMask.only direction).has direction.category = true := by
      obtain ⟨state, receive, transmit⟩ := mask
      cases direction <;> exact Bool.or_true _
    rw [empty, InterruptMask.has_none] at wants
    cases wants

section Served

variable {word : Word} {mask : InterruptMask}
  (clear : ∀ direction, (Causes.ofWord word).has direction = true →
    mask.has direction.category = false)

include clear

theorem notifyOnce (direction : Direction) (taken : Option Direction)
    (drained : (Causes.ofWord word).has direction = true) :
    (Interrupt.notifyOnce direction).Obeys quietLaw
      (fun _ after => ∃ taken, after = ⟨some word, .inside (some mask) false taken⟩)
      ⟨some word, .inside (some mask) false taken⟩ := by
  refine ⟨⟨_, _, rfl⟩, fun answer => ⟨by rintro ⟨⟩, ?_⟩⟩
  cases answer with
  | none => exact ⟨none, rfl⟩
  | some queue =>
    refine ⟨trivial, fun _ => ⟨by rintro ⟨⟩, ?_⟩⟩
    exact ⟨⟨word, mask, direction, rfl, rfl, drained, clear⟩, fun _ => ⟨fun _ => rfl, _, rfl⟩⟩

theorem turn {condition : Bool} (direction : Direction) (taken : Option Direction)
    (drained : condition = (Causes.ofWord word).has direction) :
    (onlyIf condition (Interrupt.notifyOnce direction)).Obeys quietLaw
      (fun _ after => ∃ taken, after = ⟨some word, .inside (some mask) false taken⟩)
      ⟨some word, .inside (some mask) false taken⟩ :=
  (obeys_onlyIf ..).mpr ⟨fun yes => notifyOnce clear direction taken (drained ▸ yes),
    fun _ => ⟨taken, rfl⟩⟩

end Served

theorem serveQueues (word : Word) :
    (Interrupt.serveQueues (.ofWord word)).Obeys quietLaw
      (fun _ after => after = ⟨some word, .out true⟩) ⟨some word, .out false⟩ := by
  refine locked ((obeys_bind ..).mpr ((removeWanted _).mono ?_))
  rintro _ _ ⟨mask, still, was, rfl⟩
  have idle : still = false := Bool.eq_false_iff.mpr fun placed => nomatch was placed
  rw [idle]
  have clear (direction : Direction) (drained : (Causes.ofWord word).has direction = true) :
      (mask.difference (Causes.ofWord word).queues).has direction.category = false := by
    cases direction <;> simp [InterruptMask.has, Causes.queues, Direction.category,
      InterruptMask.difference] <;> exact fun _ => drained
  refine (obeys_bind ..).mpr ((turn clear .receive none rfl).mono ?_)
  rintro _ _ ⟨taken, rfl⟩
  refine (turn clear .transmit taken rfl).mono ?_
  rintro _ _ ⟨taken, rfl⟩
  exact ⟨rfl, _, _, _, rfl, by rintro ⟨⟩⟩

theorem aside_of_serve (e : Effect) (inside : serveActions e) : Aside e := by
  cases e with
  | store offset value =>
    rw [show offset = _ from inside]
    exact ⟨by decide, by decide⟩
  | load | publishLink | linkChanged | count => trivial
  | _ => exact inside.elim

theorem deferred {linkChange : Program Unit}
    (either : linkChange = act .linkChanged ∨ linkChange = discard refreshLink) :
    (Task.deferred linkChange).Obeys quietLaw (fun _ => quietLaw.ends) ⟨none, .out false⟩ := by
  unfold Task.deferred Interrupt.work
  simp only [obeys_bind]
  refine ⟨⟨_, rfl⟩, fun word => ⟨by rintro ⟨⟩, ?_⟩⟩
  rw [obeys_done, obeys_ite]
  refine ⟨fun _ => ⟨_, rfl⟩, fun _ => ?_⟩
  rw [obeys_bind]
  refine Interrupt.serve_obeys either (fun e inside => ignores_aside e (aside_of_serve e inside))
    trivial ((obeys_onlyIf ..).mpr ⟨fun _ => ?_, fun _ => ⟨_, rfl⟩⟩)
  exact (serveQueues word).mono fun _ _ same => ⟨true, congrArg QuietState.phase same⟩

theorem enterWorking (a : Adapter) :
    a.enterWorking.Obeys quietLaw (fun _ => quietLaw.ends) ⟨none, .out false⟩ := by
  have write {offset : Nat} (value : Word)
      (aside : offset ≠ Register.macInterruptEnable ∧ offset ≠ Register.channelInterruptEnable) :
      (store offset value).Obeys quietLaw (fun _ after => after = ⟨none, .out false⟩)
        ⟨none, .out false⟩ :=
    of_act _ aside
  have apart : ∀ offset ∈ Working.setUp,
      offset ≠ Register.macInterruptEnable ∧ offset ≠ Register.channelInterruptEnable := by decide
  refine a.enterWorking_parts (q := ⟨none, .out false⟩) (r := ⟨none, .out false⟩) ?turnedOn
    (fun offset member value => write value (apart offset member)) ?refreshed ?cleared ?enabled
  case turnedOn =>
    refine (of_act (.setActive true) trivial).mono fun was _ same => ?_
    cases was with
    | true => exact ⟨_, congrArg QuietState.phase same⟩
    | false => exact same
  case refreshed =>
    refine (write _ (by decide)).seq fun _ => ?_
    exact of_aside (linkChange_only (.inr rfl)) aside_of_serve
  case cleared =>
    exact Obeys.seq (of_act (.load _) trivial) fun stale => .onlyIf fun _ => write _ (by decide)
  case enabled => exact (enable .stateOnly).reach fun _ => ⟨_, rfl⟩

theorem requireCleared (direction : Direction) :
    (Adapter.requireCleared direction).Obeys quietLaw (fun _ after => after = ⟨none, .out true⟩)
      ⟨none, .out true⟩ := by
  refine ⟨⟨_, rfl⟩, fun registered => ⟨by rintro ⟨⟩, ?_⟩⟩
  cases registered with
  | true => exact (obeys_fail _).mpr ⟨_, rfl⟩
  | false => rfl

theorem leaveWorking :
    Adapter.leaveWorking.Obeys quietLaw (fun _ => quietLaw.ends) ⟨none, .out false⟩ := by
  refine Adapter.leaveWorking_parts (q := ⟨none, .out false⟩) ?turnedOff (disable .all)
    requireCleared ?stopped
  case turnedOff =>
    refine (of_act (.setActive false) trivial).mono fun was _ same => ?_
    cases was with
    | true => exact same
    | false => exact ⟨_, congrArg QuietState.phase same⟩
  case stopped =>
    rw [obeys_bind, obeys_load]
    refine ⟨⟨_, rfl⟩, fun config => ⟨trivial, ?_⟩⟩
    rw [obeys_store]
    exact ⟨⟨_, rfl⟩, trivial, _, rfl⟩

theorem task {op : Operation} (inService : op.InService) (target : Target)
    (spares : ∀ offset value, op = .write offset value →
      offset ≠ Register.macInterruptEnable ∧ offset ≠ Register.channelInterruptEnable) :
    (op.task target).Obeys quietLaw (fun _ => quietLaw.ends) (quietLaw.start op) := by
  have once {α : Type} {p : Program α} {answer : α → Answer}
      (ends : p.Obeys quietLaw (fun _ => quietLaw.ends) ⟨none, .out false⟩) :
      (Task.once p answer).Obeys quietLaw (fun _ => quietLaw.ends) ⟨none, .out false⟩ :=
    (obeys_once ..).mpr ends
  have settles {α : Type} {p : Program α} {q : QuietState} {done : Bool}
      (kept : p.Obeys quietLaw (fun _ after => after = ⟨none, .out done⟩) q) :
      p.Obeys quietLaw (fun _ => quietLaw.ends) q :=
    kept.reach fun _ => ⟨done, rfl⟩
  have work := op.work inService target
  generalize op.task target = task at work
  rw [start_eq]
  cases work with
  | nothing => exact ⟨_, rfl⟩
  | read | load => exact once (settles (of_act _ trivial))
  | write offset value => exact once (settles (of_act _ (spares offset value rfl)))
  | statistics =>
    refine once (settles (of_aside readStatistics_only fun e inside => ?_))
    cases e <;> first | exact inside.elim | trivial
  | filter a flags multicast =>
    refine once (settles (of_aside (applyFilter_only ..) fun e inside => ?_))
    cases e with
    | store offset value =>
      rcases inside with rfl | word
      · exact ⟨by decide, by decide⟩
      · have apart := Register.SlotWord.not_listed word (Target.tableSize_le (.device a))
        constructor <;> rintro rfl <;> exact apart (by decide)
    | fault => trivial
    | _ => exact inside.elim
  | enterWorking a => exact once (enterWorking a)
  | leaveWorking => exact once leaveWorking
  | register direction queue => exact once (settles (register direction queue))
  | enable bits => exact once (settles (enable bits))
  | disable bits => exact once (settles (disable bits))
  | interrupt =>
    refine once (settles (of_aside Interrupt.handle_only fun e inside => ?_))
    cases e with
    | store offset value =>
      rw [show offset = _ from inside]
      exact ⟨by decide, by decide⟩
    | load | merge | schedule | count => trivial
    | _ => exact inside.elim
  | deferred linkChange either => exact deferred either
  | wanted => exact once (settles (of_act _ trivial))
  | describe a =>
    exact Obeys.seq (of_act .wanted trivial) fun _ =>
      Obeys.seq (of_act .active trivial) fun _ => ⟨_, rfl⟩

theorem out_or_holding : ∀ depth history,
    (∃ done, (quietLaw.state depth history).phase = .out done) ∨ Holding history depth := by
  refine @Law.outside_or_holding _ quietLaw (fun q => ∃ done, q.phase = .out done) ⟨_, rfl⟩
    (fun _ => ⟨_, rfl⟩) (fun _ => ⟨_, rfl⟩) ?_
  rintro q e answer other ⟨done, out⟩
  cases e with
  | acquire => exact absurd rfl other
  | release | drain => exact ⟨_, rfl⟩
  | mask | setMask | setQueue | takeQueue | store =>
    exact ⟨done, by simp only [after_eq, QuietState.after, out]⟩
  | _ => exact ⟨done, out⟩

theorem halfway_of_half {depth : Nat} {history : History} {mask : InterruptMask}
    (half : (quietLaw.state depth history).phase = .half mask) :
    halfway.state depth history = true := by
  refine @Law.state_related _ quietLaw _ halfway (fun q r => ∀ mask, q.phase = .half mask → r = true)
    (by simp) (by simp) (fun q r e answer kept mask half => ?_) depth history mask half
  rw [after_eq] at half
  revert half
  fun_cases QuietState.after q e answer <;> simp_all [halfway]

theorem handed_eq (depth : Nat) (history : History) :
    (quietLaw.state depth history).handed = drains.state depth history := by
  refine Law.state_map QuietState.handed rfl (fun _ => rfl) (fun q e answer => ?_) depth history
  rw [after_eq]
  cases e with
  | mask | setMask | setQueue | takeQueue => simp only [QuietState.after]; split <;> rfl
  | store => simp only [QuietState.after]; split <;> (try split) <;> rfl
  | _ => rfl

theorem early_of_out {depth : Nat} {history : History}
    (early : (quietLaw.state depth history).phase = .out false) :
    sections.state depth history = false := by
  refine @Law.state_related _ quietLaw _ sections (fun q r => q.phase = .out false → r = false)
    (fun _ => rfl) (fun _ _ => rfl) (fun q r e answer kept early => ?_) depth history early
  rw [after_eq] at early
  revert early
  fun_cases QuietState.after q e answer <;> simp_all [sections]

theorem takes_of_taken {depth : Nat} {history : History} {direction : Direction}
    (taken : (quietLaw.state depth history).phase.taken? = some direction) :
    takes.state depth history = some direction := by
  refine @Law.state_related _ quietLaw _ takes (fun q r =>
    ∀ direction, q.phase.taken? = some direction → r = some direction) (by simp [QuietPhase.taken?])
    (by simp [QuietPhase.taken?]) (fun q r e answer kept direction taken => ?_) depth history
    direction taken
  rw [after_eq] at taken
  revert taken
  fun_cases QuietState.after q e answer <;> simp_all [takes, QuietPhase.taken?]

end quietLaw

def Direction.enable : Direction → Field
  | .receive => ChannelInterruptEnable.receive
  | .transmit => ChannelInterruptEnable.transmit

theorem InterruptMask.test_enable (mask : InterruptMask) (direction : Direction) :
    direction.enable.test mask.channelEnable = mask.has direction.category := by
  obtain ⟨state, receive, transmit⟩ := mask
  cases direction <;> cases state <;> cases receive <;> cases transmit <;> decide

/-- Until a mask was set nothing is wanted and, unless a handle was just `placed`, nobody waits; from
then on the hardware is asked for what is wanted. -/
structure Asked (history : History) (s : Station) (placed : Bool) : Prop where
  wanted : masksSet history = [] → s.interrupt.wanted = .none
  queue : placed = false → masksSet history = [] → ∀ direction, s.interrupt.queue direction = none
  asked : masksSet history ≠ [] →
    s.registers.cell Register.channelInterruptEnable = s.interrupt.wanted.channelEnable

structure Kept (history : History) (s : Station) (later : History) (after : Station) : Prop where
  masks : masksSet later = masksSet history
  wanted : after.interrupt.wanted = s.interrupt.wanted
  queue : after.interrupt.queue = s.interrupt.queue
  cell : after.registers.cell Register.channelInterruptEnable =
    s.registers.cell Register.channelInterruptEnable

section Kept

variable {history later : History} {s after : Station} {q : QuietState} {placed : Bool}

theorem Kept.acted {depth : Nat} {op : Operation} {e : Effect} {answer : e.Answer}
    (applied : s.apply e = .ok (answer, after))
    (masks : masksSet (.acted depth op e answer :: history) = masksSet history)
    (wanted : (e.interrupt s.interrupt).wanted = s.interrupt.wanted)
    (queue : (e.interrupt s.interrupt).queue = s.interrupt.queue)
    (cell : (e.registers s.registers).cell Register.channelInterruptEnable =
      s.registers.cell Register.channelInterruptEnable) :
    Kept history s (.acted depth op e answer :: history) after := by
  refine ⟨masks, ?_, ?_, ?_⟩
  · rw [Station.apply_interrupt applied, wanted]
  · rw [Station.apply_interrupt applied, queue]
  · rw [Station.apply_registers applied, cell]

theorem Asked.kept (asked : Asked history s placed) (kept : Kept history s later after) :
    Asked later after placed := by
  constructor
  · rw [kept.masks, kept.wanted]
    exact asked.wanted
  · rw [kept.masks, kept.queue]
    exact asked.queue
  · rw [kept.masks, kept.wanted, kept.cell]
    exact asked.asked

theorem Asked.setQueue {direction : Direction} {queue : Option QueueHandle} {answer : Unit}
    (asked : Asked history s placed) (depth : Nat) (op : Operation)
    (applied : s.apply (.setQueue direction queue) = .ok (answer, after)) :
    Asked (.acted depth op (.setQueue direction queue) answer :: history) after
      (placed || queue.isSome) := by
  have interrupt := Station.apply_interrupt applied
  have registers := Station.apply_registers applied
  refine ⟨?_, fun unplaced unset other => ?_, ?_⟩
  · rw [interrupt]
    exact asked.wanted
  · obtain ⟨before, none⟩ := Bool.or_eq_false_iff.mp unplaced
    have none : queue = .none := by simpa using none
    rw [interrupt]
    change (if other = direction then queue else s.interrupt.queue other) = .none
    rw [asked.queue before unset other, none, ite_self]
  · rw [interrupt, registers]
    exact asked.asked

theorem Asked.takeQueue {direction : Direction} {answer : Option QueueHandle}
    (asked : Asked history s false) (depth : Nat) (op : Operation)
    (applied : s.apply (.takeQueue direction) = .ok (answer, after)) :
    Asked (.acted depth op (.takeQueue direction) answer :: history) after false := by
  have interrupt := Station.apply_interrupt applied
  have registers := Station.apply_registers applied
  refine ⟨?_, fun _ unset other => ?_, ?_⟩
  · rw [interrupt]
    exact asked.wanted
  · rw [interrupt]
    change (if other = direction then .none else s.interrupt.queue other) = .none
    rw [asked.queue rfl unset other, ite_self]
  · rw [interrupt, registers]
    exact asked.asked

/-- Whoever has placed a handle has read, before the section is over, that something is wanted. -/
theorem Asked.settled {known : Option InterruptMask} (asked : Asked history s placed)
    (knows : ∀ mask, known = some mask → s.interrupt.wanted = mask)
    (wants : placed = true → ∃ mask, known = some mask ∧ mask ≠ .none) : Asked history s false := by
  refine ⟨asked.wanted, fun _ unset => ?_, asked.asked⟩
  refine asked.queue (Bool.eq_false_iff.mpr fun yes => ?_) unset
  obtain ⟨mask, rfl, some⟩ := wants yes
  exact some ((knows mask rfl).symm.trans (asked.wanted unset))

end Kept

namespace QuietPhase

def Fits (history : History) (s : Station) : QuietPhase → Prop
  | out _ => Asked history s false
  | inside known placed taken => Asked history s placed ∧
      (∀ mask, known = some mask → s.interrupt.wanted = mask) ∧
      (taken ≠ none → masksSet history ≠ [])
  | set mask | half mask => s.interrupt.wanted = mask ∧ masksSet history ≠ []

variable {history later : History} {s after : Station} {q : QuietState}

theorem Fits.kept {phase : QuietPhase} (fits : phase.Fits history s)
    (kept : Kept history s later after) : phase.Fits later after := by
  cases phase with
  | out => exact Asked.kept fits kept
  | inside =>
    obtain ⟨asked, known, taken⟩ := fits
    exact ⟨asked.kept kept, by rwa [kept.wanted], by rwa [kept.masks]⟩
  | set | half =>
    unfold Fits at *
    rwa [kept.masks, kept.wanted]

theorem kept_of_out {done : Bool} {e : Effect} {answer : e.Answer} (depth : Nat) (op : Operation)
    (out : q.phase = .out done) (permitted : q.Permits e)
    (applied : s.apply e = .ok (answer, after)) :
    Kept history s (.acted depth op e answer :: history) after := by
  have elsewhere {known placed taken} : q.phase ≠ .inside known placed taken := by simp [out]
  cases e with
  | load offset =>
    exact .acted applied rfl rfl rfl
      (RegisterFile.reading_cell_of_ne (by decide) fun _ => by decide)
  | store offset value =>
    refine .acted applied rfl rfl rfl (RegisterFile.writing_cell_of_ne ?_ value)
    rintro rfl
    simp only [QuietState.Permits, out] at permitted
    obtain ⟨_, ⟨⟩, _⟩ := permitted
  | mask | setMask | setQueue =>
    obtain ⟨_, _, _, inside⟩ := permitted
    exact absurd inside elsewhere
  | takeQueue =>
    obtain ⟨_, _, inside⟩ := permitted
    exact absurd inside elsewhere
  | release =>
    obtain ⟨_, _, _, inside, _⟩ := permitted
    exact absurd inside elsewhere
  | notify =>
    obtain ⟨_, _, _, _, inside, _⟩ := permitted
    exact absurd inside elsewhere
  | attach | detach => exact permitted.elim
  | _ => exact .acted applied rfl rfl rfl rfl

theorem Fits.store {offset : Nat} {value : Word} {answer : Unit} (depth : Nat) (op : Operation)
    (permitted : q.Permits (.store offset value))
    (applied : s.apply (.store offset value) = .ok (answer, after))
    (fits : q.phase.Fits history s) :
    (q.after (.store offset value) answer).phase.Fits
      (.acted depth op (.store offset value) answer :: history) after := by
  have interrupt := Station.apply_interrupt applied
  by_cases mac : offset = Register.macInterruptEnable
  · obtain ⟨mask, phase⟩ : ∃ mask, q.phase = .set mask := by
      rwa [QuietState.Permits, if_pos mac] at permitted
    have onward : (q.after (.store offset value) answer).phase = .half mask := by
      simp only [QuietState.after, phase, if_pos mac]
    rw [onward]
    rw [phase] at fits
    unfold Fits
    rwa [interrupt]
  by_cases channel : offset = Register.channelInterruptEnable
  · subst channel
    obtain ⟨mask, phase, rfl⟩ : ∃ mask, q.phase = .half mask ∧ value = mask.channelEnable := by
      rwa [QuietState.Permits, if_neg mac, if_pos rfl] at permitted
    have onward : (q.after (.store Register.channelInterruptEnable mask.channelEnable) answer).phase =
        .inside (some mask) false none := by
      simp only [QuietState.after, phase, if_true]
    rw [onward]
    rw [phase] at fits
    obtain ⟨rfl, set⟩ := fits
    refine ⟨⟨fun unset => absurd unset set, fun _ unset => absurd unset set, fun _ => ?_⟩, ?_, ?_⟩
    · rw [interrupt]
      exact Station.store_value applied (by decide)
    · rintro _ ⟨⟩
      rw [interrupt]
      rfl
    · exact fun none => absurd rfl none
  · obtain ⟨done, out⟩ : ∃ done, q.phase = .out done := by
      rwa [QuietState.Permits, if_neg mac, if_neg channel] at permitted
    have stays : (q.after (.store offset value) answer).phase = q.phase := by
      simp only [QuietState.after, out]
    rw [stays]
    exact fits.kept (kept_of_out depth op out permitted applied)

/-- Every action of a call keeps the account of its phase, once it is in. -/
theorem Fits.act {e : Effect} {answer : e.Answer} (depth : Nat) (op : Operation)
    (permitted : q.Permits e) (goesOn : e ≠ .acquire)
    (applied : s.apply e = .ok (answer, after)) (fits : q.phase.Fits history s) :
    (q.after e answer).phase.Fits (.acted depth op e answer :: history) after := by
  have interrupt := Station.apply_interrupt applied
  cases e with
  | acquire => exact absurd rfl goesOn
  | attach | detach => exact permitted.elim
  | store offset value => exact fits.store depth op permitted applied
  | load offset =>
    obtain ⟨done, out⟩ := permitted
    exact fits.kept (kept_of_out depth op out ⟨done, out⟩ applied)
  | drain =>
    obtain ⟨done, out⟩ := permitted
    rw [out] at fits
    exact Asked.kept fits (.acted applied rfl rfl rfl rfl)
  | mask =>
    obtain ⟨known, placed, taken, phase⟩ := permitted
    have reads : answer = s.interrupt.wanted := Station.apply_reads applied
    simp only [QuietState.after, phase] at fits ⊢
    obtain ⟨asked, _, set⟩ := fits
    refine ⟨asked.kept (.acted applied rfl rfl rfl rfl), ?_, set⟩
    rintro _ ⟨⟩
    rw [interrupt]
    exact reads.symm
  | setMask new =>
    obtain ⟨known, placed, taken, phase⟩ := permitted
    simp only [QuietState.after, phase]
    exact ⟨by rw [interrupt]; rfl, by simp [masksSet, Entry.maskSet?]⟩
  | setQueue direction queue =>
    obtain ⟨known, placed, taken, phase⟩ := permitted
    simp only [QuietState.after, phase] at fits ⊢
    obtain ⟨asked, known, set⟩ := fits
    refine ⟨asked.setQueue depth op applied, ?_, set⟩
    rw [interrupt]
    exact known
  | takeQueue direction =>
    obtain ⟨known, taken, phase⟩ := permitted
    have reads : answer = s.interrupt.queue direction := Station.apply_reads applied
    simp only [QuietState.after, phase] at fits ⊢
    obtain ⟨asked, known, set⟩ := fits
    refine ⟨asked.takeQueue depth op applied, ?_, fun taken unset => taken ?_⟩
    · rw [interrupt]
      exact known
    · -- A handle in hand is one that was registered, so a mask was set.
      rw [reads, asked.queue rfl unset direction]
      rfl
  | release =>
    obtain ⟨known, placed, taken, phase, wants⟩ := permitted
    rw [phase] at fits
    obtain ⟨asked, known, _⟩ := fits
    exact (asked.settled known wants).kept (.acted applied rfl rfl rfl rfl)
  | _ => exact fits.kept (.acted applied rfl rfl rfl rfl)

end QuietPhase

/-- Only by taking the lock does a call get into a section. -/
theorem QuietState.out_after {q : QuietState} {done : Bool} {e : Effect} {answer : e.Answer}
    (out : q.phase = .out done) (goesOn : e ≠ .acquire) :
    ∃ done, (q.after e answer).phase = .out done := by
  cases e with
  | acquire => exact absurd rfl goesOn
  | release | drain => exact ⟨_, rfl⟩
  | mask | setMask | setQueue | takeQueue | store => exact ⟨done, by simp only [after, out]⟩
  | _ => exact ⟨done, out⟩

/-- What fails, fails outside of the sections. -/
theorem QuietState.out_of_error {q : QuietState} {s : Station} {e : Effect} {cause : Fault}
    (permitted : q.Permits e) (applied : s.apply e = .error cause) : ∃ done, q.phase = .out done := by
  rcases Station.apply_error applied with
    rfl | ⟨_, rfl | rfl | ⟨_, rfl⟩⟩ | ⟨_, offset, outside, rfl | ⟨value, rfl⟩⟩
  · exact permitted
  · exact permitted
  · exact permitted
  · exact permitted
  · exact permitted
  · have mac : offset ≠ Register.macInterruptEnable := by
      rintro rfl
      exact outside (by decide)
    have channel : offset ≠ Register.channelInterruptEnable := by
      rintro rfl
      exact outside (by decide)
    rwa [Permits, if_neg mac, if_neg channel] at permitted

/-- No fault came while the mask was half written. -/
def Whole : History → Prop
  | [] => True
  | .faulted _ :: earlier => (∀ depth, halfway.state depth earlier = false) ∧ Whole earlier
  | _ :: earlier => Whole earlier

def Step.SparesEnables : Step → Prop
  | .set offset _ | .operation (.write offset _) =>
    offset ≠ Register.macInterruptEnable ∧ offset ≠ Register.channelInterruptEnable
  | _ => True

/-- Nobody wrote the enable registers from outside, and no fault came between the two writes of a
change of the mask. -/
structure OwnEnables (history : History) : Prop where
  outside : ∀ step ∈ history.filterMap Entry.begun?, step.SparesEnables
  whole : Whole history

/-- Everything but to set a device up and to give it back. -/
def Quieting.Admits (_ : Machine) (step : Step) : Prop := ∀ op, step = .operation op → op.InService

def Quieting.Spares (m : Machine) (step : Step) : Prop := Quieting.Admits m step ∧ step.SparesEnables

def Quiets (history : History) (s : Station) : Prop :=
  ∃ holder, (∀ depth, depth ≠ holder → ∃ done, (quietLaw.state depth history).phase = .out done) ∧
    (quietLaw.state holder history).phase.Fits history s

namespace Quiets

variable {history : History} {s after : Station} {entry : Entry} {n : Nat} {op : Operation}

theorem turn (quiets : Quiets history s) (others : ∀ depth, depth ≠ n → Law.SilentAt depth entry)
    (masks : masksSet (entry :: history) = masksSet history)
    (before : ∃ done, (quietLaw.state n history).phase = .out done)
    (afterwards : ∃ done, (quietLaw.state n (entry :: history)).phase = .out done) :
    Quiets (entry :: history) s := by
  obtain ⟨holder, outside, fits⟩ := quiets
  refine ⟨holder, fun depth apart => ?_, ?_⟩
  · by_cases here : depth = n
    · rwa [here]
    · rw [Law.state_of_silent (others depth here)]
      exact outside depth apart
  · by_cases here : holder = n
    · subst here
      obtain ⟨_, before⟩ := before
      obtain ⟨_, afterwards⟩ := afterwards
      rw [before] at fits
      rw [afterwards]
      exact fits.kept ⟨masks, rfl, rfl, rfl⟩
    · rw [Law.state_of_silent (others holder here)]
      exact fits.kept ⟨masks, rfl, rfl, rfl⟩

theorem enter {answer : Unit} (quiets : Quiets history s)
    (applied : s.apply .acquire = .ok (answer, after))
    (outside : ∀ depth, ∃ done, (quietLaw.state depth history).phase = .out done) :
    Quiets (.acted n op .acquire answer :: history) after := by
  obtain ⟨holder, _, fits⟩ := quiets
  obtain ⟨done, out⟩ := outside holder
  rw [out] at fits
  refine ⟨n, fun depth apart => ?_, ?_⟩
  · simpa [Ne.symm apart] using outside depth
  · rw [Law.state_acted, if_pos rfl]
    have asked : Asked (.acted n op .acquire answer :: history) after false :=
      Asked.kept fits (.acted applied rfl rfl rfl rfl)
    exact ⟨asked, by rintro _ ⟨⟩, fun taken => absurd rfl taken⟩

theorem act {e : Effect} {answer : e.Answer} (quiets : Quiets history s)
    (permitted : (quietLaw.state n history).Permits e) (goesOn : e ≠ .acquire)
    (applied : s.apply e = .ok (answer, after)) :
    Quiets (.acted n op e answer :: history) after := by
  obtain ⟨holder, outside, fits⟩ := quiets
  by_cases here : n = holder
  · subst here
    refine ⟨n, fun depth apart => ?_, ?_⟩
    · simpa [Ne.symm apart] using outside depth apart
    · rw [Law.state_acted, if_pos rfl]
      exact fits.act n op permitted goesOn applied
  · obtain ⟨done, out⟩ := outside n here
    refine ⟨holder, fun depth apart => ?_, ?_⟩
    · by_cases own : n = depth
      · subst own
        rw [Law.state_acted, if_pos rfl]
        exact QuietState.out_after out goesOn
      · simpa [own] using outside depth apart
    · rw [Law.state_acted, if_neg here]
      exact fits.kept (QuietPhase.kept_of_out n op out permitted applied)

/-- What a fault leaves, of which the calls in progress know nothing any more. -/
theorem abort {cause : Fault} {e : Effect} (quiets : Quiets history s)
    (acting : quietLaw.Acting history n op e) (failed : s.apply e = .error cause)
    (whole : ∀ depth, halfway.state depth history = false) :
    Quiets (.faulted cause :: history) s.unlocked := by
  obtain ⟨holder, outside, fits⟩ := quiets
  have asked : Asked history s false := by
    rcases Nat.lt_trichotomy holder n with under | rfl | above
    · have waits := acting.below holder under
      cases phase : (quietLaw.state holder history).phase with
      | out done =>
        rw [phase] at fits
        exact fits
      | inside known placed taken =>
        have unplaced : placed = false := by
          change (quietLaw.state holder history).phase.Waits at waits
          rwa [phase] at waits
        rw [phase] at fits
        exact unplaced ▸ fits.1
      | set mask =>
        change (quietLaw.state holder history).phase.Waits at waits
        rw [phase] at waits
        exact waits.elim
      | half mask =>
        have halfway := quietLaw.halfway_of_half phase
        rw [whole holder] at halfway
        cases halfway
    · obtain ⟨done, out⟩ := QuietState.out_of_error acting.permitted failed
      rw [out] at fits
      exact fits
    · rw [acting.above holder above] at fits
      exact fits
  exact ⟨0, fun _ _ => ⟨_, rfl⟩, asked.kept ⟨rfl, rfl, rfl, rfl⟩⟩

end Quiets

namespace Run

variable {start m : Machine} {history : History}

theorem quieting_obeyed (m : Machine) (op : Operation) (admitted : Quieting.Spares m (.operation op)) :
    (op.task m.station.target).Obeys quietLaw (fun _ => quietLaw.ends) (quietLaw.start op) :=
  quietLaw.task (admitted.1 op rfl) m.station.target (by rintro _ _ rfl; exact admitted.2)

variable (resting : start.stack = []) (free : start.station.interrupt.lock = .free)
  (unwanted : start.station.interrupt.wanted = .none)
  (unregistered : ∀ direction, start.station.interrupt.queue direction = none)

include resting free unwanted unregistered

theorem quiets (run : Run Quieting.Spares start history m) (whole : Whole history) :
    Quiets history m.station := by
  have inService : ∀ m op, Quieting.Spares m (.operation op) → op.InService :=
    fun _ op admitted => admitted.1 op rfl
  refine Run.account (P := fun history s => Whole history → Quiets history s) ?initial ?blind
    ?surround ?operate ?act ?renew ?finish ?abort run whole
  case initial =>
    intro _
    exact ⟨0, fun _ _ => ⟨_, rfl⟩, fun _ => unwanted, fun _ _ => unregistered,
      fun set => absurd rfl set⟩
  case blind =>
    intro history s trace kept whole
    obtain ⟨holder, outside, fits⟩ := kept whole
    exact ⟨holder, outside, fits.kept ⟨rfl, rfl, rfl, rfl⟩⟩
  case surround =>
    intro history m step below run admitted _ surrounds kept whole
    obtain ⟨holder, outside, fits⟩ := kept whole
    refine ⟨holder, fun depth apart => ?_, ?_⟩
    · rw [Law.state_surround surrounds]
      exact outside depth apart
    · rw [Law.state_surround surrounds]
      have interrupt := m.station.meet_interrupt step
      refine fits.kept ⟨rfl, by rw [interrupt], by rw [interrupt], ?_⟩
      cases step with
      | set other value => exact RegisterFile.cell_set_of_ne _ _ (Ne.symm admitted.2.2)
      | raiseChannel | raiseLink => exact RegisterFile.cell_set_of_ne _ _ (by decide)
      | _ => rfl
  case operate =>
    intro history m op below run admitted awaits kept whole
    have opening := run.opening resting quieting_obeyed awaits
    refine (kept whole).turn (n := m.stack.length) (fun _ other => Ne.symm other) rfl ?_ ?_
    · exact ⟨_, congrArg QuietState.phase opening.idle⟩
    · exact ⟨false, by simp⟩
  case act =>
    intro history m op target e next below answer after run top applied kept whole
    have acting := run.acting resting quieting_obeyed top
    by_cases begins : e = .acquire
    -- The lock is free here, and whoever is in a section holds it.
    · subst begins
      have lock := run.single resting inService free
      rw [Station.apply_acquire applied] at lock
      refine (kept whole).enter applied fun depth => ?_
      exact (quietLaw.out_or_holding depth history).resolve_right (lock.none_of_free depth)
    · exact (kept whole).act acting.permitted begins applied
  case renew =>
    intro history m op target below run top kept whole
    obtain ⟨_, ends⟩ := run.ending resting quieting_obeyed top
    exact (kept whole).turn (n := below.length) (fun _ other => Ne.symm other) rfl ends
      ⟨false, by simp⟩
  case finish =>
    intro history m op target answer below run top kept whole
    obtain ⟨_, ends⟩ := run.ending resting quieting_obeyed top
    exact (kept whole).turn (n := below.length) (fun _ other => Ne.symm other) rfl ends
      ⟨false, by simp⟩
  case abort =>
    intro history m op target e next below cause run top failed kept whole
    exact (kept whole.2).abort (run.acting resting quieting_obeyed top) failed whole.1

/-- Alone and with nothing nested, the worker serves all that is pending: it counts the two summaries,
reports a link change, takes what was handed to it off the mask, with one pair of writes where that
is a change, and then notifies, receive first, who was registered for it. And whatever is nested, as
long as interrupt handling has the enable registers to itself, a link change comes before the section,
and once somebody is notified every direction of the word is off the mask and the hardware is not
asked for it. -/
theorem masked_before_notified (run : Run Quieting.Admits start history m) :
    (m.stack = [] → m.hooks = [] → m.station.target = .interrupts →
      let word := m.station.interrupt.pending.word
      let drained := ({ m.station with trace := [] } : Station).mapInterrupt ({ · with pending := .empty })
      m.execute (.operation .deferred) =
        { m with
          station := drained.serving
            { receive := word.getLsbD 6
              transmit := word.getLsbD 0
              abnormal := word.getLsbD 14
              fatal := word.getLsbD 12
              link := word.getLsbD 31 }
          answer := some .ok }) ∧
    (OwnEnables history → ∀ (op : Operation) (target : Target) (e : Effect)
      (next : e.Answer → Task) (below : List Frame),
      m.stack = .running op target (.perform e next) :: below →
        ((e = .linkChanged ∨ ∃ state, e = .publishLink state) →
          sections.state below.length history = false) ∧
        ∀ queue, e = .notify queue → ∃ word direction,
          drains.state below.length history = some word ∧
          takes.state below.length history = some direction ∧
          (Causes.ofWord word).has direction = true ∧
          ∀ other, (Causes.ofWord word).has other = true →
            m.station.interrupt.wanted.has other.category = false ∧
            other.enable.test (m.station.registers.cell Register.channelInterruptEnable) = false) := by
  constructor
  · intro idle calm alone
    have inService : ∀ m op, Quieting.Admits m (.operation op) → op.InService :=
      fun _ op admitted => admitted op rfl
    have lock : m.station.interrupt.lock = .free := by
      refine (run.single resting inService free).free_of_none fun depth holds => ?_
      obtain ⟨_, empty⟩ := run.governs resting (lockLaw.obeyed inService)
      rw [Holding, (empty depth (by simp [idle])).1] at holds
      cases holds
    rw [Machine.execute_deferred idle calm alone lock, Station.serviced, Causes.ofWord_eq]
  intro own op target e next below top
  have run : Run Quieting.Spares start history m :=
    run.narrow (fun _ _ admitted spares => ⟨admitted, spares⟩) own.outside
  have acting := run.acting resting quieting_obeyed top
  constructor
  · rintro (rfl | ⟨state, rfl⟩)
    · exact quietLaw.early_of_out acting.permitted
    · exact quietLaw.early_of_out acting.permitted
  · rintro queue rfl
    obtain ⟨word, mask, direction, handed, inside, drained, clear⟩ := acting.permitted
    have taken : (quietLaw.state below.length history).phase.taken? = some direction := by
      rw [inside]
      rfl
    obtain ⟨holder, outside, fits⟩ :=
      run.quiets resting free unwanted unregistered own.whole
    have here : below.length = holder := by
      refine Decidable.of_not_not fun apart => ?_
      obtain ⟨done, out⟩ := outside below.length apart
      rw [inside] at out
      cases out
    rw [← here, inside] at fits
    obtain ⟨asked, known, set⟩ := fits
    have wanted := known mask rfl
    refine ⟨word, direction, (quietLaw.handed_eq ..).symm.trans handed, quietLaw.takes_of_taken taken,
      drained, fun other has => ?_⟩
    rw [asked.asked (set (by simp)), InterruptMask.test_enable, wanted]
    exact ⟨clear other has, clear other has⟩

end Run

theorem Run.masked_before_notified_receivePending :
    let waiting :=
      Machine.advanceFor 20 (receivePending.begin (.operation (.register .receive (some ⟨"rx"⟩))))
    let notifying := Machine.advanceFor 9 (waiting.begin (.operation .deferred))
    (waiting.execute (.operation .deferred)).station.trace =
      [.notify ⟨"rx"⟩,
        .write Register.channelInterruptEnable InterruptMask.none.channelEnable,
        .write Register.macInterruptEnable InterruptMask.none.macEnable] ∧
      (∃ next, notifying.stack = [.running .deferred .interrupts (.perform (.notify ⟨"rx"⟩) next)]) ∧
      notifying.station.interrupt.wanted.has .receive = false ∧
      ChannelInterruptEnable.receive.test
        (notifying.station.registers.cell Register.channelInterruptEnable) = false := by
  have begun : Run Quieting.Admits receivePending _
      (receivePending.begin (.operation (.register .receive (some ⟨"rx"⟩)))) :=
    Run.refl.begin rfl (by rintro _ ⟨⟩; trivial)
  have waiting := begun.advances 20 ⟨rfl, by rintro _ (_ | ⟨_, ⟨⟩⟩) _ ⟨⟩⟩
  obtain ⟨serves, _⟩ := waiting.masked_before_notified rfl rfl rfl (fun _ => rfl)
  have called := @Run.begin _ _ _ _ (.operation .deferred) waiting rfl (by rintro _ ⟨⟩; trivial)
  have notifying := called.advances 9 ⟨rfl, by rintro _ (_ | ⟨_, ⟨⟩⟩) _ ⟨⟩⟩
  obtain ⟨_, calls⟩ := notifying.masked_before_notified rfl rfl rfl (fun _ => rfl)
  obtain ⟨_, told⟩ := calls ⟨by rintro _ (_ | ⟨_, _ | ⟨_, ⟨⟩⟩⟩) <;> trivial, trivial⟩ _ _ _ _ [] rfl
  obtain ⟨word, direction, handed, _, _, off⟩ := told ⟨"rx"⟩ rfl
  have handed : some (0x40 : Word) = some word := handed
  cases handed
  refine ⟨?_, ⟨_, rfl⟩, off .receive (by decide)⟩
  rw [serves rfl rfl rfl]
  rfl

end EthernetMac
