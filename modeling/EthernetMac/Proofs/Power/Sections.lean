import EthernetMac.Proofs.Interrupt.Edits

/-! What the sections under the lock lead to. Inside of one the mask and the queue handles can
disagree, but what the mask will be when it is over is known all along, and by then a direction is
wanted exactly when a queue is registered for it. -/

namespace EthernetMac

open Program

def Direction.category : Direction → Category
  | receive => .receive
  | transmit => .transmit

@[simp] theorem InterruptMask.has_only (direction : Direction) (c : Category) :
    (InterruptMask.only direction).has c = decide (c = direction.category) := by
  cases direction <;> cases c <;> rfl

@[simp] theorem InterruptMask.has_difference (a b : InterruptMask) (c : Category) :
    (a.difference b).has c = (a.has c && !b.has c) := by
  cases c <;> rfl

@[simp] theorem InterruptMask.has_none (c : Category) : InterruptMask.none.has c = false := by
  cases c <;> rfl

theorem InterruptMask.eq_of_has {x y : InterruptMask} (state : x.state = y.state)
    (directions : ∀ direction : Direction, x.has direction.category = y.has direction.category) :
    x = y := by
  have receive : x.receive = y.receive := directions .receive
  have transmit : x.transmit = y.transmit := directions .transmit
  cases x
  cases y
  cases state
  cases receive
  cases transmit
  rfl

def Operation.OfDevice : Operation → Prop
  | prepare _ _ | release | enable _ | disable _ => False
  | _ => True

theorem Operation.OfDevice.inService {op : Operation} (ofDevice : op.OfDevice) : op.InService := by
  cases op <;> first | exact ofDevice | trivial

/-- What a call enters its section with: the directions whose handles it will take, and its edit of
the mask. A registration sets a handle first, and has no edit before that. -/
def Operation.opening (handed : Option Word) : Operation → InterruptMask × Option Edit
  | enterWorking => (.none, some ⟨.stateOnly, true⟩)
  | leaveWorking => (.none, some ⟨.all, false⟩)
  | deferred =>
    let taken := (handed.map fun word => (Causes.ofWord word).queues).getD .none
    (taken, some ⟨taken, false⟩)
  | _ => (.none, none)

inductive SectionPhase where
  | out
  /-- The handles of `left` are still to be taken. An edit that is still to be made stands beside the
  masks read for it. -/
  | inside (left : InterruptMask) (edit : Option (Edit × List InterruptMask))

structure SectionState where
  call : Option Operation
  handed : Option Word
  phase : SectionPhase

namespace SectionPhase

def Made : Option (Edit × List InterruptMask) → Prop
  | none => True
  | some (edit, reads) => ∃ mask ∈ reads, edit.apply mask ∈ reads

/-- The mask as it will be when the section is over. -/
def goal (i : InterruptState) : SectionPhase → InterruptMask
  | inside _ (some (edit, _)) => edit.apply i.wanted
  | _ => i.wanted

def armed (i : InterruptState) (direction : Direction) : SectionPhase → Bool
  | inside left _ => !left.has direction.category && (i.queue direction).isSome
  | out => (i.queue direction).isSome

end SectionPhase

namespace SectionState

def opened (q : SectionState) : SectionPhase :=
  match q.call.map (·.opening q.handed) with
  | some (left, edit) => .inside left (edit.map (·, []))
  | none => .inside .none none

def Permits (q : SectionState) : Effect → Prop
  | .acquire => q.phase = .out
  | .mask => q.phase ≠ .out
  | .setMask new => ∃ left edit reads mask, q.phase = .inside left (some (edit, reads)) ∧
      mask ∈ reads ∧ new = edit.apply mask
  | .setQueue _ _ => q.phase = .inside .none none
  | .takeQueue direction => ∃ left edit, q.phase = .inside left edit ∧
      left.has direction.category = true
  | .release => ∃ edit, q.phase = .inside .none edit ∧ SectionPhase.Made edit
  | .attach _ | .detach => False
  | _ => True

def after (q : SectionState) : (e : Effect) → e.Answer → SectionState
  | .drain, word => { q with handed := some word }
  | .acquire, _ => { q with phase := q.opened }
  | .release, _ => { q with phase := .out }
  | .mask, mask =>
    match q.phase with
    | .inside left (some (edit, reads)) =>
      { q with phase := .inside left (some (edit, mask :: reads)) }
    | _ => q
  | .setMask _, _ =>
    match q.phase with
    | .inside left _ => { q with phase := .inside left none }
    | .out => q
  | .setQueue direction queue, _ =>
    match q.phase with
    | .inside left _ =>
      { q with phase := .inside left (some (⟨.only direction, queue.isSome⟩, [])) }
    | .out => q
  | .takeQueue direction, _ =>
    match q.phase with
    | .inside left edit => { q with phase := .inside (left.difference (.only direction)) edit }
    | .out => q
  | _, _ => q

theorem after_call (q : SectionState) (e : Effect) (answer : e.Answer) :
    (q.after e answer).call = q.call := by
  cases e with
  | mask | setMask | setQueue | takeQueue => simp only [after]; split <;> rfl
  | _ => rfl

end SectionState

def sectionLaw : Law SectionState where
  idle := ⟨none, none, .out⟩
  start op := ⟨some op, none, .out⟩
  permits := SectionState.Permits
  after := SectionState.after
  ends q := q.phase = .out

namespace sectionLaw

@[simp] theorem idle_eq : sectionLaw.idle = ⟨none, none, .out⟩ := rfl

@[simp] theorem start_eq (op : Operation) : sectionLaw.start op = ⟨some op, none, .out⟩ := rfl

@[simp] theorem permits_eq : sectionLaw.permits = SectionState.Permits := rfl

@[simp] theorem after_eq : sectionLaw.after = SectionState.after := rfl

@[simp] theorem yields_eq (q : SectionState) : sectionLaw.yields q ↔ True := .rfl

@[simp] theorem ends_eq (q : SectionState) : sectionLaw.ends q ↔ q.phase = .out := .rfl

def Unrelated : Effect → Prop
  | .acquire | .release | .mask | .setMask _ | .setQueue _ _ | .takeQueue _ | .drain | .attach _
  | .detach => False
  | _ => True

theorem ignores {q : SectionState} (e : Effect) (unrelated : Unrelated e) :
    sectionLaw.Ignores q e := by
  cases e <;> first | exact unrelated.elim | exact ⟨trivial, fun _ => rfl⟩

theorem of_only {q : SectionState} {α : Type} {p : Program α} {allowed : Effect → Prop}
    (only : p.Only allowed) (unrelated : ∀ e, allowed e → Unrelated e) :
    p.Obeys sectionLaw (fun _ after => after = q) q :=
  .of_only only (fun e inside => ignores e (unrelated e inside)) trivial

theorem of_act {q : SectionState} (e : Effect) (unrelated : Unrelated e) :
    (act e).Obeys sectionLaw (fun _ after => after = q) q :=
  of_only (.act unrelated) fun _ => id

def Ready (call : Option Operation) (handed : Option Word) (left : InterruptMask)
    (q : SectionState) : Prop :=
  ∃ edit, q = ⟨call, handed, .inside left edit⟩ ∧ SectionPhase.Made edit

variable {call : Option Operation} {handed : Option Word} {left : InterruptMask}

theorem changeMask (edit : Edit) (mask : InterruptMask) :
    (Interrupt.changeMask (edit.apply mask)).Obeys sectionLaw (fun _ => Ready call handed left)
      ⟨call, handed, .inside left (some (edit, [mask]))⟩ := by
  unfold Interrupt.changeMask
  rw [obeys_bind]
  refine ⟨by simp [SectionState.Permits], fun old => ⟨fun _ => trivial, ?_⟩⟩
  change Obeys sectionLaw _ _ ⟨call, handed, .inside left (some (edit, [old, mask]))⟩
  rw [obeys_done, obeys_onlyIf]
  constructor
  · intro _
    refine ⟨⟨left, edit, [old, mask], mask, rfl, by simp, rfl⟩, fun _ => ⟨fun _ => trivial, ?_⟩⟩
    have write (offset : Nat) (value : Word) :
        (store offset value).Obeys sectionLaw
          (fun _ after => after = ⟨call, handed, .inside left none⟩)
          ⟨call, handed, .inside left none⟩ :=
      of_act (.store offset value) trivial
    exact (write _ _).seq fun _ => (write _ _).reach fun _ => ⟨none, rfl, trivial⟩
  · intro same
    have same : old = edit.apply mask := by simpa using same
    exact ⟨_, rfl, mask, by simp, by simp [same]⟩

theorem addWanted (bits : InterruptMask) :
    (Interrupt.addWanted bits).Obeys sectionLaw (fun _ => Ready call handed left)
      ⟨call, handed, .inside left (some (⟨bits, true⟩, []))⟩ :=
  ⟨by simp [SectionState.Permits], fun mask => ⟨fun _ => trivial, changeMask ⟨bits, true⟩ mask⟩⟩

theorem removeWanted (bits : InterruptMask) :
    (Interrupt.removeWanted bits).Obeys sectionLaw (fun _ => Ready call handed left)
      ⟨call, handed, .inside left (some (⟨bits, false⟩, []))⟩ :=
  ⟨by simp [SectionState.Permits], fun mask => ⟨fun _ => trivial, changeMask ⟨bits, false⟩ mask⟩⟩

theorem locked {p : Program Unit} {op : Operation}
    (body : p.Obeys sectionLaw (fun _ => Ready (some op) handed .none)
      ⟨some op, handed, .inside (op.opening handed).1 ((op.opening handed).2.map (·, []))⟩) :
    (Program.locked p).Obeys sectionLaw (fun _ after => after = ⟨some op, handed, .out⟩)
      ⟨some op, handed, .out⟩ := by
  rw [obeys_locked]
  refine ⟨rfl, fun _ => ⟨fun _ => trivial, ?_⟩⟩
  refine Obeys.mono (p := p) body ?_
  rintro _ _ ⟨edit, rfl, made⟩
  exact ⟨⟨edit, rfl, made⟩, fun _ => ⟨fun _ => trivial, rfl⟩⟩

theorem register (direction : Direction) (queue : Option QueueHandle) :
    (Interrupt.register direction queue).Obeys sectionLaw
      (fun _ after => after = ⟨some (.register direction queue), none, .out⟩)
      ⟨some (.register direction queue), none, .out⟩ := by
  refine locked ⟨rfl, fun _ => ⟨fun _ => trivial, ?_⟩⟩
  cases queue with
  | none => exact removeWanted _
  | some handle => exact addWanted _

theorem notifyOnce (direction : Direction) (waits : left.has direction.category = true)
    {q : SectionState} (ready : Ready call handed left q) :
    (Interrupt.notifyOnce direction).Obeys sectionLaw
      (fun _ => Ready call handed (left.difference (.only direction))) q := by
  obtain ⟨edit, rfl, made⟩ := ready
  refine ⟨⟨left, edit, rfl, waits⟩, fun answer => ⟨fun _ => trivial, ?_⟩⟩
  have taken : Ready call handed (left.difference (.only direction))
      ⟨call, handed, .inside (left.difference (.only direction)) edit⟩ := ⟨edit, rfl, made⟩
  cases answer with
  | none => exact taken
  | some queue =>
    exact (of_act (.count direction.counter) trivial).seq fun _ =>
      (of_act (.notify queue) trivial).reach fun _ => taken

theorem serveQueues (word : Word) :
    (Interrupt.serveQueues (.ofWord word)).Obeys sectionLaw
      (fun _ after => after = ⟨some .deferred, some word, .out⟩)
      ⟨some .deferred, some word, .out⟩ := by
  refine locked ?_
  rw [obeys_bind]
  refine (removeWanted _).mono fun _ q ready => ?_
  change Ready _ _ (Causes.ofWord word).queues q at ready
  generalize Causes.ofWord word = causes at ready
  obtain ⟨receive, transmit, _, _, _⟩ := causes
  have told (asked : Bool) (direction : Direction) {left : InterruptMask} {q : SectionState}
      (waits : left.has direction.category = asked)
      (ready : Ready (some .deferred) (some word) left q) :
      (onlyIf asked (Interrupt.notifyOnce direction)).Obeys sectionLaw
        (fun _ => Ready (some .deferred) (some word) (left.difference (.only direction))) q := by
    rw [obeys_onlyIf]
    refine ⟨fun yes => notifyOnce direction (waits.trans yes) ready, fun no => ?_⟩
    have same : left.difference (.only direction) = left := by
      obtain ⟨x, y, z⟩ := left
      rw [no] at waits
      cases direction <;> cases waits <;>
        simp [InterruptMask.difference, InterruptMask.only, InterruptMask.receiveOnly,
          InterruptMask.transmitOnly]
    rw [same]
    exact ready
  rw [obeys_bind]
  refine (told receive .receive rfl ready).mono fun _ q ready => ?_
  refine (told transmit .transmit ?_ ready).mono fun _ q ready => ?_
  · cases receive <;> cases transmit <;> rfl
  · have none : ((⟨false, receive, transmit⟩ : InterruptMask).difference (.only .receive)).difference
        (.only .transmit) = .none := by
      cases receive <;> cases transmit <;> rfl
    exact none ▸ ready

theorem deferred {linkChange : Program Unit}
    (either : linkChange = act .linkChanged ∨ linkChange = discard refreshLink) :
    (Task.deferred linkChange).Obeys sectionLaw (fun _ => sectionLaw.ends)
      ⟨some .deferred, none, .out⟩ := by
  unfold Task.deferred Interrupt.work
  simp only [obeys_bind]
  refine ⟨trivial, fun word => ⟨fun _ => trivial, ?_⟩⟩
  rw [obeys_done, obeys_ite]
  refine ⟨fun _ => rfl, fun _ => ?_⟩
  have served : (Interrupt.serve linkChange (.ofWord word)).Obeys sectionLaw
      (fun _ after => after = ⟨some .deferred, some word, .out⟩)
      ⟨some .deferred, some word, .out⟩ := by
    refine Interrupt.serve_obeys either (fun e inside => ignores e ?_) trivial
      (.onlyIf fun _ => serveQueues word)
    cases e <;> first | exact inside.elim | trivial
  exact served.andThen fun _ => rfl

theorem task {op : Operation} (ofDevice : op.OfDevice) (target : Target) :
    (op.task target).Obeys sectionLaw (fun _ => sectionLaw.ends) (sectionLaw.start op) := by
  have once {α : Type} {p : Program α} {answer : α → Answer}
      (kept : p.Obeys sectionLaw (fun _ after => after = ⟨some op, none, .out⟩)
        ⟨some op, none, .out⟩) :
      (Task.once p answer).Obeys sectionLaw (fun _ => sectionLaw.ends) ⟨some op, none, .out⟩ :=
    kept.seq fun _ => rfl
  have work := op.work ofDevice.inService target
  generalize op.task target = task at work
  by_cases coordinating : op.Coordinating
  · cases work with
    | enable | disable => exact ofDevice.elim
    | nothing => exact rfl
    | wanted => exact once (of_act .wanted trivial)
    | register direction queue => exact once (register direction queue)
    | interrupt =>
      refine once (of_only Interrupt.handle_only fun e inside => ?_)
      cases e <;> first | exact inside.elim | trivial
    | deferred linkChange either => exact deferred either
    | _ => exact coordinating.elim
  · refine (work.beside coordinating (fun e inside => ignores e ?_) trivial ?_ ?_).reach fun _ => rfl
    · cases e <;> first | exact inside.elim | trivial
    · rintro rfl
      exact locked (addWanted _)
    · rintro rfl
      exact locked (removeWanted _)

theorem call_eq (depth : Nat) (history : History) :
    (sectionLaw.state depth history).call = calls.state depth history :=
  Law.state_map SectionState.call rfl (fun _ => rfl) SectionState.after_call depth history

theorem out_or_holding :
    ∀ depth history, (sectionLaw.state depth history).phase = .out ∨ Holding history depth := by
  refine @Law.outside_or_holding _ sectionLaw (·.phase = .out) rfl (fun _ => rfl) (fun _ => rfl) ?_
  intro q e answer other out
  cases e with
  | acquire => exact absurd rfl other
  | mask | setMask | setQueue | takeQueue => simp only [after_eq, SectionState.after, out]
  | release => rfl
  | _ => exact out

end sectionLaw

def Operation.statesWanted (kept : Bool) : Operation → Bool
  | enterWorking => true
  | leaveWorking => false
  | _ => kept

namespace SectionPhase

structure Sound (phase : SectionPhase) (i : InterruptState) : Prop where
  armed : ∀ direction : Direction,
    (phase.goal i).has direction.category = phase.armed i direction
  read : ∀ left edit reads, phase = .inside left (some (edit, reads)) →
    ∀ mask ∈ reads, mask = i.wanted

variable {i later : InterruptState} {phase : SectionPhase}

theorem goal_congr (wanted : later.wanted = i.wanted) : phase.goal later = phase.goal i := by
  unfold goal
  rw [wanted]

theorem Sound.congr (sound : phase.Sound i) (wanted : later.wanted = i.wanted)
    (queue : later.queue = i.queue) : phase.Sound later where
  armed direction := by
    have same : phase.armed later direction = phase.armed i direction := by
      unfold SectionPhase.armed
      rw [queue]
    rw [goal_congr wanted, same]
    exact sound.armed direction
  read := by
    rw [wanted]
    exact sound.read

theorem Sound.entered {left : InterruptMask} {edit : Edit}
    (agree : ∀ direction : Direction, (if edit.bits.has direction.category then edit.adds
      else i.wanted.has direction.category) =
        (!left.has direction.category && (i.queue direction).isSome)) :
    (inside left (some (edit, []))).Sound i where
  armed direction := (edit.has_apply i.wanted _).trans (agree direction)
  read := by
    rintro _ _ _ ⟨⟩
    exact nofun

/-- A call enters its section, and none was under way. Who leaves the working state drops every
category, and no queue is registered. -/
theorem Sound.open (sound : SectionPhase.out.Sound i) (op : Operation) (handed : Option Word)
    (cleared : op = .leaveWorking → ∀ direction, i.queue direction = none) :
    (⟨some op, handed, .out⟩ : SectionState).opened.Sound i ∧
      ((⟨some op, handed, .out⟩ : SectionState).opened.goal i).state =
        op.statesWanted i.wanted.state := by
  have armed (direction : Direction) :
      i.wanted.has direction.category = (i.queue direction).isSome := sound.armed direction
  have quiet : (inside .none none).Sound i :=
    ⟨by simpa [goal, SectionPhase.armed] using armed, nofun⟩
  cases op with
  | enterWorking =>
    refine ⟨.entered fun direction => ?_, Edit.has_apply ⟨.stateOnly, true⟩ i.wanted .state⟩
    rw [armed]
    cases direction <;> rfl
  | leaveWorking =>
    refine ⟨.entered fun direction => ?_, Edit.has_apply ⟨.all, false⟩ i.wanted .state⟩
    rw [cleared rfl]
    cases direction <;> rfl
  | deferred =>
    -- The worker drops the directions that it has been handed, and then takes their queues one by one.
    generalize taken : (handed.map fun word => (Causes.ofWord word).queues).getD .none = left
    have state : left.state = false := by
      rw [← taken]
      cases handed <;> rfl
    have opens : (⟨some .deferred, handed, .out⟩ : SectionState).opened =
        .inside left (some (⟨left, false⟩, [])) := by
      rw [← taken]
      rfl
    rw [opens]
    refine ⟨.entered fun direction => ?_, ?_⟩
    · rw [armed]
      cases left.has direction.category <;> simp
    · refine (Edit.has_apply ⟨left, false⟩ i.wanted .state).trans ?_
      rw [InterruptMask.has, state]
      rfl
  | _ => exact ⟨quiet, rfl⟩

theorem Sound.reads {left : InterruptMask} {edit : Edit} {masks : List InterruptMask}
    (sound : (inside left (some (edit, masks))).Sound i) :
    (inside left (some (edit, i.wanted :: masks))).Sound i := by
  refine ⟨sound.armed, ?_⟩
  rintro _ _ _ ⟨⟩ mask member
  rcases List.mem_cons.mp member with rfl | old
  · rfl
  · exact sound.read _ _ _ rfl mask old

theorem Sound.setQueue (sound : (inside .none none).Sound i) (direction : Direction)
    (queue : Option QueueHandle) :
    (inside .none (some (⟨.only direction, queue.isSome⟩, []))).Sound (i.setQueue direction queue) ∧
      ((inside .none (some (⟨.only direction, queue.isSome⟩, []))).goal
        (i.setQueue direction queue)).state = i.wanted.state := by
  have armed (other : Direction) : i.wanted.has other.category = (i.queue other).isSome := by
    simpa [goal, SectionPhase.armed] using sound.armed other
  constructor
  · refine .entered fun other => ?_
    change (if (InterruptMask.only direction).has other.category then queue.isSome
      else i.wanted.has other.category) =
        (!InterruptMask.none.has other.category &&
          (if other = direction then queue else i.queue other).isSome)
    rw [armed]
    cases other <;> cases direction <;> simp [Direction.category]
  · refine (Edit.has_apply ⟨.only direction, queue.isSome⟩ i.wanted .state).trans ?_
    cases direction <;> rfl

theorem Sound.takeQueue {left : InterruptMask} {edit : Option (Edit × List InterruptMask)}
    {direction : Direction} (sound : (inside left edit).Sound i)
    (waits : left.has direction.category = true) :
    (inside (left.difference (.only direction)) edit).Sound (i.setQueue direction none) ∧
      (inside (left.difference (.only direction)) edit).goal (i.setQueue direction none) =
        (inside left edit).goal i := by
  have goal : (inside (left.difference (.only direction)) edit).goal (i.setQueue direction none) =
      (inside left edit).goal i := by
    cases edit <;> rfl
  refine ⟨⟨fun other => ?_, ?_⟩, goal⟩
  · refine (congrArg (·.has other.category) goal).trans ((sound.armed other).trans ?_)
    change (!left.has other.category && (i.queue other).isSome) =
      (!(left.difference (.only direction)).has other.category &&
        (if other = direction then none else i.queue other).isSome)
    by_cases same : other = direction
    · rw [same, waits]
      simp
    · have apart : other.category ≠ direction.category := by
        cases other <;> cases direction <;> first | exact absurd rfl same | decide
      simp [same, apart]
  · rintro _ _ _ ⟨⟩
    exact sound.read _ _ _ rfl

/-- Whoever gives the lock back has written the mask he edited, or read that it was right already. -/
theorem Sound.wanted_of_made {left : InterruptMask} {edit : Option (Edit × List InterruptMask)}
    (sound : (inside left edit).Sound i) (made : Made edit) :
    i.wanted = (inside left edit).goal i := by
  cases edit with
  | none => rfl
  | some pair =>
    obtain ⟨mask, member, still⟩ := made
    have read := sound.read _ _ _ rfl
    rw [read mask member] at still
    exact (read _ still).symm

theorem Sound.release {edit : Option (Edit × List InterruptMask)}
    (sound : (inside .none edit).Sound i) (made : Made edit) : out.Sound i := by
  refine ⟨fun other => ?_, nofun⟩
  have goal := sound.wanted_of_made made
  refine (congrArg (·.has other.category) goal).trans ((sound.armed other).trans ?_)
  change (!InterruptMask.none.has other.category && (i.queue other).isSome) = (i.queue other).isSome
  simp

variable {s : Station} {q : SectionState} {e : Effect} {answer : e.Answer}

theorem Sound.act (sound : q.phase.Sound s.interrupt) (permitted : q.Permits e)
    (reads : e.Reads s answer) (goesOn : e ≠ .acquire) :
    (q.after e answer).phase.Sound (e.interrupt s.interrupt) ∧
      ((q.after e answer).phase.goal (e.interrupt s.interrupt)).state =
        (q.phase.goal s.interrupt).state := by
  obtain ⟨call, handed, phase⟩ := q
  cases e with
  | acquire => exact absurd rfl goesOn
  | attach | detach => exact permitted.elim
  | mask =>
    cases phase with
    | out => exact absurd rfl permitted
    | inside left edit =>
      cases edit with
      | none => exact ⟨sound, rfl⟩
      | some pair =>
        cases reads
        exact ⟨sound.reads, rfl⟩
  | setMask new =>
    obtain ⟨left, edit, masks, mask, rfl, member, rfl⟩ := permitted
    rw [sound.read _ _ _ rfl mask member]
    exact ⟨⟨sound.armed, nofun⟩, rfl⟩
  | setQueue direction queue =>
    cases permitted
    exact sound.setQueue direction queue
  | takeQueue direction =>
    obtain ⟨left, edit, rfl, waits⟩ := permitted
    obtain ⟨taken, goal⟩ := sound.takeQueue waits
    exact ⟨taken, congrArg InterruptMask.state goal⟩
  | release =>
    obtain ⟨edit, rfl, made⟩ := permitted
    exact ⟨(sound.release made).congr rfl rfl,
      congrArg InterruptMask.state (sound.wanted_of_made made)⟩
  | _ => exact ⟨sound.congr rfl rfl, rfl⟩

/-- Outside the sections nothing touches what the lock guards. -/
theorem idle_act (out : q.phase = .out) (permitted : q.Permits e) (outside : e ≠ .acquire) :
    (q.after e answer).phase = .out ∧
      (e.interrupt s.interrupt).wanted = s.interrupt.wanted ∧
      (e.interrupt s.interrupt).queue = s.interrupt.queue := by
  cases e with
  | acquire => exact absurd rfl outside
  | attach | detach => exact permitted.elim
  | mask => exact absurd out permitted
  | setMask | setQueue | takeQueue | release => simp [SectionState.Permits, out] at permitted
  | _ => exact ⟨out, rfl, rfl⟩

end SectionPhase

def Effect.statesWanted (op : Operation) (kept : Bool) : Effect → Bool
  | .acquire => op.statesWanted kept
  | _ => kept

/-- At most one section is under way. It leads to a mask that wants what is registered, and the
state category if `wants` says so. -/
def SectionsSound (history : History) (i : InterruptState) (wants : Bool) : Prop :=
  ∃ holder, (∀ depth, depth ≠ holder → (sectionLaw.state depth history).phase = .out) ∧
    (sectionLaw.state holder history).phase.Sound i ∧
    ((sectionLaw.state holder history).phase.goal i).state = wants

namespace SectionsSound

variable {history : History} {entry : Entry} {i later : InterruptState} {s after : Station}
  {wants : Bool}

theorem onward (kept : SectionsSound history i wants)
    (phases : ∀ depth, (sectionLaw.state depth (entry :: history)).phase =
      (sectionLaw.state depth history).phase)
    (wanted : later.wanted = i.wanted) (queue : later.queue = i.queue) :
    SectionsSound (entry :: history) later wants := by
  obtain ⟨holder, others, sound, goal⟩ := kept
  refine ⟨holder, fun depth apart => (phases depth).trans (others depth apart), ?_, ?_⟩
  · rw [phases]
    exact sound.congr wanted queue
  · rw [phases, SectionPhase.goal_congr wanted]
    exact goal

variable {n : Nat} {op : Operation} {e : Effect} {answer : e.Answer}

theorem turn (kept : SectionsSound history i wants)
    (others : ∀ depth, depth ≠ n → Law.SilentAt depth entry)
    (before : (sectionLaw.state n history).phase = .out)
    (afterwards : (sectionLaw.state n (entry :: history)).phase = .out) :
    SectionsSound (entry :: history) i wants := by
  refine kept.onward (fun depth => ?_) rfl rfl
  by_cases here : depth = n
  · rw [here, afterwards, before]
  · rw [Law.state_of_silent (others depth here)]

theorem enter {answer : Unit} (kept : SectionsSound history s.interrupt wants)
    (applied : s.apply .acquire = .ok (answer, after))
    (called : calls.state n history = some op)
    (quiet : ∀ depth, (sectionLaw.state depth history).phase = .out)
    (cleared : op = .leaveWorking → ∀ direction, s.interrupt.queue direction = none) :
    SectionsSound (.acted n op .acquire answer :: history) after.interrupt
      (op.statesWanted wants) := by
  obtain ⟨holder, _, sound, goal⟩ := kept
  rw [quiet holder] at sound goal
  have opens : (sectionLaw.state n (.acted n op .acquire answer :: history)).phase =
      (⟨some op, (sectionLaw.state n history).handed, .out⟩ : SectionState).opened := by
    have call := (sectionLaw.call_eq n history).trans called
    simp [SectionState.after, SectionState.opened, call]
  obtain ⟨opened, state⟩ := sound.open op (sectionLaw.state n history).handed cleared
  refine ⟨n, fun depth apart => ?_, ?_, ?_⟩
  · simpa [Ne.symm apart] using quiet depth
  · rw [opens, Station.apply_interrupt applied]
    exact opened.congr rfl rfl
  · rw [opens, Station.apply_interrupt applied]
    exact (state.trans (congrArg op.statesWanted goal) :)

theorem act (kept : SectionsSound history s.interrupt wants)
    (single : SingleHolder s.interrupt.lock history) (called : calls.state n history = some op)
    (permitted : (sectionLaw.state n history).Permits e)
    (applied : s.apply e = .ok (answer, after))
    (cleared : e = .acquire → op = .leaveWorking →
      ∀ direction, s.interrupt.queue direction = none) :
    SectionsSound (.acted n op e answer :: history) after.interrupt (e.statesWanted op wants) := by
  by_cases begins : e = .acquire
  · subst begins
    rw [Station.apply_acquire applied] at single
    exact kept.enter applied called (fun depth =>
      (sectionLaw.out_or_holding depth history).resolve_right (single.none_of_free depth))
      (cleared rfl)
  · have same : e.statesWanted op wants = wants := by
      cases e <;> first | rfl | exact absurd rfl begins
    rw [same, Station.apply_interrupt applied]
    obtain ⟨holder, others, sound, goal⟩ := kept
    by_cases here : n = holder
    · subst here
      obtain ⟨sound, state⟩ := sound.act permitted (Station.apply_reads applied) begins
      refine ⟨n, fun depth apart => ?_, ?_, ?_⟩
      · simpa [Ne.symm apart] using others depth apart
      · rw [Law.state_acted, if_pos rfl]
        exact sound
      · rw [Law.state_acted, if_pos rfl]
        exact state.trans goal
    · obtain ⟨stays, wanted, queue⟩ := SectionPhase.idle_act (others n here) permitted begins
      refine onward ⟨holder, others, sound, goal⟩ (fun depth => ?_) wanted queue
      by_cases own : n = depth
      · subst own
        rw [Law.state_acted, if_pos rfl, others n here]
        exact stays
      · simp [own]

end SectionsSound

end EthernetMac
