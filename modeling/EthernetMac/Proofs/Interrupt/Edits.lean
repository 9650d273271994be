import EthernetMac.Proofs.Interrupt.Lock

/-! Edits of the mask: which calls make them, in which order, and how each is carried out under the
lock. -/

namespace EthernetMac

open Program

inductive Category where
  | state
  | receive
  | transmit
  deriving DecidableEq

def InterruptMask.has (mask : InterruptMask) : Category → Bool
  | .state => mask.state
  | .receive => mask.receive
  | .transmit => mask.transmit

structure Edit where
  bits : InterruptMask
  adds : Bool

namespace Edit

def apply (edit : Edit) (mask : InterruptMask) : InterruptMask :=
  if edit.adds then mask ||| edit.bits else mask.difference edit.bits

/-- Of a category that it mentions, an edit decides; others it leaves alone. -/
theorem has_apply (edit : Edit) (mask : InterruptMask) (c : Category) :
    (edit.apply mask).has c = if edit.bits.has c then edit.adds else mask.has c := by
  obtain ⟨bits, adds⟩ := edit
  obtain ⟨_, _, _⟩ := mask
  obtain ⟨x, y, z⟩ := bits
  cases adds <;> cases c <;>
    simp only [apply, InterruptMask.has, InterruptMask.difference, OrOp.or, HOr.hOr,
      InterruptMask.union, if_true, Bool.false_eq_true, if_false]
  · cases x <;> simp
  · cases y <;> simp
  · cases z <;> simp
  · cases x <;> simp
  · cases y <;> simp
  · cases z <;> simp

/-- Made on its own, an edit is one writing borrow of the mask. -/
theorem writing (edit : Edit) {s after : Station} {done : Unit}
    (ran : (if edit.adds then Interrupt.enable edit.bits else Interrupt.disable edit.bits).run s =
      (.ok done, after)) :
    (Guarded.Access.writing do Guarded.Access.store (edit.apply (← Guarded.Access.value))).run
      (s.guarded (·.wanted)) = (some done, after.guarded (·.wanted)) := by
  obtain ⟨bits, adds⟩ := edit
  cases adds with
  | true => exact ((changeMask_updates (· ||| bits)).locked (fun _ _ => rfl) s).2 done after ran
  | false =>
    exact ((changeMask_updates (·.difference bits)).locked (fun _ _ => rfl) s).2 done after ran

end Edit

def maskOf : List Edit → InterruptMask
  | [] => .none
  | edit :: earlier => edit.apply (maskOf earlier)

theorem has_maskOf (edits : List Edit) (c : Category) :
    (maskOf edits).has c = true ↔ ∃ edit, edits.find? (·.bits.has c) = some edit ∧
      edit.adds = true := by
  induction edits with
  | nil => cases c <;> simp [maskOf, InterruptMask.none, InterruptMask.has]
  | cons edit earlier ih =>
    rw [maskOf, Edit.has_apply, List.find?_cons]
    cases mentions : edit.bits.has c with
    | true => simp
    | false => simpa using ih

def sections : Law Bool where
  idle := false
  start _ := false
  permits _ _ := True
  after q e _ :=
    match e with
    | .drain => false
    | .acquire => true
    | _ => q

/-- The edit of a call that takes the lock. A worker edits the mask for the causes it was handed. -/
def Operation.edit? (handed : Option Word) : Operation → Option Edit
  | enable bits => some ⟨bits, true⟩
  | disable bits => some ⟨bits, false⟩
  | register direction queue => some ⟨.only direction, queue.isSome⟩
  | deferred => handed.map fun word => ⟨(Causes.ofWord word).queues, false⟩
  | _ => none

/-- The edits of the mask, latest first, in the order in which their sections took the lock. -/
def edits : History → List Edit
  | [] => []
  | .acted depth op .acquire _ :: earlier =>
    (op.edit? (drains.state depth earlier)).toList ++ edits earlier
  | _ :: earlier => edits earlier

def Made (depth : Nat) (op : Operation) (history : History) : Prop :=
  ∀ edit, op.edit? (drains.state depth history) = some edit → edit.bits ≠ .none →
    sections.state depth history = true

def Entry.maskSet? : Entry → Option InterruptMask
  | .acted _ _ (.setMask mask) _ => some mask
  | _ => none

def masksSet (history : History) : List InterruptMask := history.filterMap Entry.maskSet?

def Entry.enableWrite? : Entry → Option (Nat × Word)
  | .acted _ _ (.store offset value) _ =>
    if offset = Register.macInterruptEnable ∨ offset = Register.channelInterruptEnable then
      some (offset, value)
    else none
  | _ => none

def enableWrites (history : History) : List (Nat × Word) := history.filterMap Entry.enableWrite?

def enablePair (mask : InterruptMask) : List (Nat × Word) :=
  [(Register.channelInterruptEnable, mask.channelEnable),
    (Register.macInterruptEnable, mask.macEnable)]

inductive EditPhase where
  | out
  | entered (edit : Edit)
  | asked (edit : Edit) (mask : InterruptMask)
  | seen (edit : Edit) (mask old : InterruptMask)
  | set (mask : InterruptMask)
  | half (mask : InterruptMask)
  | settled

structure EditState where
  call : Option Operation
  handed : Option Word
  phase : EditPhase
  made : Bool

namespace EditState

def Permits (q : EditState) : Effect → Prop
  | .load offset => RegisterFile.InWindow offset
  | .store offset value => RegisterFile.InWindow offset ∧
      (offset = Register.macInterruptEnable →
        ∃ mask, q.phase = .set mask ∧ value = mask.macEnable) ∧
      (offset = Register.channelInterruptEnable →
        ∃ mask, q.phase = .half mask ∧ value = mask.channelEnable)
  | .acquire => q.phase = .out ∧ ∃ op edit, q.call = some op ∧ op.edit? q.handed = some edit
  | .mask => (∃ edit, q.phase = .entered edit) ∨ ∃ edit mask, q.phase = .asked edit mask
  | .setMask new =>
    ∃ edit mask old, q.phase = .seen edit mask old ∧ new = edit.apply mask ∧ old ≠ new
  | .release => q.phase = .settled ∨
      ∃ edit mask old, q.phase = .seen edit mask old ∧ old = edit.apply mask
  | .attach _ | .fault _ => False
  | _ => True

def Ends (q : EditState) : Prop :=
  q.phase = .out ∧ ∀ op edit, q.call = some op → op.edit? q.handed = some edit →
    edit.bits ≠ .none → q.made = true

theorem Ends.of_made {q : EditState} (out : q.phase = .out) (made : q.made = true) : q.Ends :=
  ⟨out, fun _ _ _ _ _ => made⟩

def onward (q : EditState) (phase : EditPhase) : EditState := { q with phase }

def after (q : EditState) : (e : Effect) → e.Answer → EditState
  | .drain, word => { q with handed := some word, made := false }
  | .acquire, _ =>
    match q.call.bind (·.edit? q.handed) with
    | some edit => { q with phase := .entered edit, made := true }
    | none => { q with made := true }
  | .mask, mask =>
    match q.phase with
    | .entered edit => q.onward (.asked edit mask)
    | .asked edit first => q.onward (.seen edit first mask)
    | _ => q
  | .setMask mask, _ =>
    match q.phase with
    | .seen _ _ _ => q.onward (.set mask)
    | _ => q
  | .store offset _, _ =>
    match q.phase with
    | .set mask => if offset = Register.macInterruptEnable then q.onward (.half mask) else q
    | .half _ => if offset = Register.channelInterruptEnable then q.onward .settled else q
    | _ => q
  | .release, _ => q.onward .out
  | _, _ => q

/-- An action moves the phase on. The rest of the state goes its own way. -/
theorem after_parts (q : EditState) (e : Effect) (answer : e.Answer) :
    ∃ phase, q.after e answer =
      ⟨q.call, drains.after q.handed e answer, phase, sections.after q.made e answer⟩ := by
  cases e with
  | acquire => simp only [after]; split <;> exact ⟨_, rfl⟩
  | mask | setMask => simp only [after]; split <;> exact ⟨_, rfl⟩
  | store offset value => simp only [after]; split <;> (try split) <;> exact ⟨_, rfl⟩
  | _ => exact ⟨_, rfl⟩

end EditState

def editLaw : Law EditState where
  idle := ⟨none, none, .out, false⟩
  start op := ⟨some op, none, .out, false⟩
  permits := EditState.Permits
  after := EditState.after
  ends := EditState.Ends

namespace editLaw

@[simp] theorem idle_eq : editLaw.idle = ⟨none, none, .out, false⟩ := rfl

@[simp] theorem start_eq (op : Operation) : editLaw.start op = ⟨some op, none, .out, false⟩ := rfl

@[simp] theorem permits_eq : editLaw.permits = EditState.Permits := rfl

@[simp] theorem after_eq : editLaw.after = EditState.after := rfl

@[simp] theorem yields_eq (q : EditState) : editLaw.yields q ↔ True := .rfl

@[simp] theorem ends_eq : editLaw.ends = EditState.Ends := rfl

def Unrelated : Effect → Prop
  | .load offset => RegisterFile.InWindow offset
  | .store offset _ => RegisterFile.InWindow offset ∧ offset ≠ Register.macInterruptEnable ∧
      offset ≠ Register.channelInterruptEnable
  | .drain | .acquire | .mask | .setMask _ | .release | .attach _ | .fault _ => False
  | _ => True

theorem of_unrelated {q : EditState} (e : Effect) (unrelated : Unrelated e) :
    editLaw.permits q e ∧ ∀ answer, editLaw.after q e answer = q := by
  cases e with
  | load offset => exact ⟨unrelated, fun _ => rfl⟩
  | store offset value =>
    obtain ⟨inside, mac, channel⟩ := unrelated
    refine ⟨⟨inside, fun same => absurd same mac, fun same => absurd same channel⟩, fun _ => ?_⟩
    simp only [after_eq, EditState.after, if_neg mac, if_neg channel]
    split <;> rfl
  | drain | acquire | mask | setMask | release | attach | fault => exact unrelated.elim
  | _ => exact ⟨trivial, fun _ => rfl⟩

theorem of_act {q : EditState} (e : Effect) (unrelated : Unrelated e) :
    (act e).Obeys editLaw (fun _ after => after = q) q :=
  .of_only (.act unrelated) of_unrelated trivial

def Ready (call : Option Operation) (handed : Option Word) (q : EditState) : Prop :=
  q.call = call ∧ q.handed = handed ∧ q.made = true ∧ q.Permits .release

theorem changeMask {call : Option Operation} {handed : Option Word} (edit : Edit)
    (mask : InterruptMask) :
    (Interrupt.changeMask (edit.apply mask)).Obeys editLaw (fun _ => Ready call handed)
      ⟨call, handed, .asked edit mask, true⟩ := by
  unfold Interrupt.changeMask
  rw [obeys_bind]
  refine ⟨.inr ⟨edit, mask, rfl⟩, fun old => ⟨nofun, ?_⟩⟩
  change Obeys editLaw _ _ ⟨call, handed, .seen edit mask old, true⟩
  rw [obeys_done, obeys_onlyIf]
  constructor
  · intro differs
    have differs : old ≠ edit.apply mask := by simpa using differs
    refine ⟨⟨edit, mask, old, rfl, rfl, differs⟩, fun _ => ⟨nofun, ?_⟩⟩
    refine ⟨⟨by decide, fun _ => ⟨_, rfl, rfl⟩, nofun⟩, fun _ => ⟨fun _ => trivial, ?_⟩⟩
    refine ⟨⟨by decide, nofun, fun _ => ⟨_, rfl, rfl⟩⟩, fun _ => ⟨fun _ => trivial, ?_⟩⟩
    exact ⟨rfl, rfl, rfl, .inl rfl⟩
  · intro same
    have same : old = edit.apply mask := by simpa using same
    exact ⟨rfl, rfl, rfl, .inr ⟨edit, mask, old, rfl, same⟩⟩

theorem addWanted {call : Option Operation} {handed : Option Word} (bits : InterruptMask) :
    (Interrupt.addWanted bits).Obeys editLaw (fun _ => Ready call handed)
      ⟨call, handed, .entered ⟨bits, true⟩, true⟩ :=
  ⟨.inl ⟨_, rfl⟩, fun mask => ⟨nofun, changeMask ⟨bits, true⟩ mask⟩⟩

theorem removeWanted {call : Option Operation} {handed : Option Word} (bits : InterruptMask) :
    (Interrupt.removeWanted bits).Obeys editLaw (fun _ => Ready call handed)
      ⟨call, handed, .entered ⟨bits, false⟩, true⟩ :=
  ⟨.inl ⟨_, rfl⟩, fun mask => ⟨nofun, changeMask ⟨bits, false⟩ mask⟩⟩

theorem locked {p : Program Unit} {op : Operation} {handed : Option Word} {edit : Edit}
    {made : Bool} (makes : op.edit? handed = some edit)
    (body : p.Obeys editLaw (fun _ => Ready (some op) handed)
      ⟨some op, handed, .entered edit, true⟩) :
    (Program.locked p).Obeys editLaw (fun _ after => after = ⟨some op, handed, .out, true⟩)
      ⟨some op, handed, .out, made⟩ := by
  rw [obeys_locked]
  refine ⟨⟨rfl, op, edit, rfl, makes⟩, fun _ => ⟨by rintro ⟨⟩, ?_⟩⟩
  have entered : editLaw.after ⟨some op, handed, .out, made⟩ .acquire () =
      ⟨some op, handed, .entered edit, true⟩ := by
    simp only [after_eq, EditState.after, Option.bind_some, makes]
  rw [obeys_done, entered]
  refine body.mono ?_
  rintro _ ⟨_, _, phase, _⟩ ⟨rfl, rfl, rfl, ready⟩
  exact ⟨ready, fun _ => ⟨by rintro ⟨⟩, rfl⟩⟩

theorem register (direction : Direction) (queue : Option QueueHandle) :
    (Interrupt.register direction queue).Obeys editLaw
      (fun _ after => after = ⟨some (.register direction queue), none, .out, true⟩)
      ⟨some (.register direction queue), none, .out, false⟩ := by
  refine locked rfl ?_
  refine (of_act (.setQueue direction queue) trivial).seq fun _ => ?_
  cases queue with
  | none => exact removeWanted _
  | some handle => exact addWanted _

theorem notifyOnce (direction : Direction) (q : EditState) :
    (Interrupt.notifyOnce direction).Obeys editLaw (fun _ after => after = q) q := by
  refine (of_act (.takeQueue direction) trivial).seq fun answer => ?_
  cases answer with
  | none => rfl
  | some queue =>
    exact (of_act (.count direction.counter) trivial).seq fun _ => of_act (.notify queue) trivial

theorem handle (q : EditState) : Interrupt.handle.Obeys editLaw (fun _ after => after = q) q := by
  refine .of_only Interrupt.handle_only (fun e inside => of_unrelated e ?_) trivial
  cases e with
  | load offset =>
    change RegisterFile.InWindow offset
    rcases inside with rfl | rfl | rfl <;> decide
  | store offset value =>
    cases inside
    exact ⟨by decide, by decide, by decide⟩
  | merge | schedule | count => trivial
  | _ => exact inside.elim

theorem serve {linkChange : Program Unit} (word : Word)
    (either : linkChange = act .linkChanged ∨ linkChange = discard refreshLink) :
    (Interrupt.serve linkChange (.ofWord word)).Obeys editLaw (fun _ => EditState.Ends)
      ⟨some .deferred, some word, .out, false⟩ := by
  refine Interrupt.serve_obeys either (fun e inside => of_unrelated e ?_) trivial ?_
  · cases e with
    | load offset =>
      change RegisterFile.InWindow offset
      rcases inside with rfl | rfl <;> decide
    | store offset value =>
      cases inside
      exact ⟨by decide, by decide, by decide⟩
    | publishLink | linkChanged | count => trivial
    | _ => exact inside.elim
  rw [obeys_onlyIf]
  constructor
  · intro _
    refine (locked rfl ?_).mono fun _ q after => ?_
    · rw [obeys_bind]
      refine (removeWanted _).mono ?_
      intro _ q ready
      have told (condition : Bool) (direction : Direction) :
          (onlyIf condition (Interrupt.notifyOnce direction)).Obeys editLaw
            (fun _ after => after = q) q :=
        .onlyIf fun _ => notifyOnce direction q
      exact (told _ _).seq fun _ => (told _ _).mono fun _ _ same => same ▸ ready
    · rw [after]
      exact .of_made rfl rfl
  · intro none
    refine ⟨rfl, fun op edit called makes bits => ?_⟩
    cases called
    cases makes
    simp [InterruptMask.isEmpty] at none
    exact absurd none bits

theorem deferred {linkChange : Program Unit}
    (either : linkChange = act .linkChanged ∨ linkChange = discard refreshLink) :
    (Task.deferred linkChange).Obeys editLaw (fun _ => editLaw.ends)
      ⟨some .deferred, none, .out, false⟩ := by
  unfold Task.deferred Interrupt.work
  simp only [obeys_bind]
  refine ⟨trivial, fun word => ⟨by rintro ⟨⟩, ?_⟩⟩
  rw [obeys_done, obeys_ite]
  constructor
  · intro same
    subst same
    refine ⟨rfl, fun op edit called makes bits => ?_⟩
    cases called
    cases makes
    exact absurd (by decide) bits
  · intro _
    rw [obeys_bind]
    exact (serve word either).mono fun _ _ ends => ends

theorem task {op : Operation} {target : Target} (coordinating : op.Coordinating)
    (present : target ≠ .noDevice) :
    (op.task target).Obeys editLaw (fun _ => editLaw.ends) (editLaw.start op) := by
  have edits {p : Program Unit} {answer : Unit → Answer}
      (made : p.Obeys editLaw (fun _ after => after = ⟨some op, none, .out, true⟩)
        ⟨some op, none, .out, false⟩) :
      (Task.once p answer).Obeys editLaw (fun _ => editLaw.ends) ⟨some op, none, .out, false⟩ :=
    (obeys_once ..).mpr (made.mono fun _ _ after => after ▸ .of_made rfl rfl)
  have plain {α : Type} {p : Program α} {answer : α → Answer} (none : op.edit? none = none)
      (kept : p.Obeys editLaw (fun _ after => after = ⟨some op, .none, .out, false⟩)
        ⟨some op, .none, .out, false⟩) :
      (Task.once p answer).Obeys editLaw (fun _ => editLaw.ends) ⟨some op, .none, .out, false⟩ := by
    refine kept.seq fun _ => ⟨rfl, fun caller edit called makes => ?_⟩
    cases called
    rw [none] at makes
    cases makes
  obtain ⟨linkChange, either, work⟩ := coordinating.task present
  generalize op.task target = task at work
  cases op with
  | register direction queue =>
    cases work
    exact edits (register direction queue)
  | enable bits =>
    cases work
    exact edits (locked rfl (addWanted bits))
  | disable bits =>
    cases work
    exact edits (locked rfl (removeWanted bits))
  | interrupt =>
    cases work
    exact plain rfl (handle _)
  | deferred =>
    cases work
    exact deferred either
  | wanted =>
    cases work
    exact plain rfl (of_act .wanted trivial)
  | _ => exact coordinating.elim

theorem call_eq (depth : Nat) (history : History) :
    (editLaw.state depth history).call = calls.state depth history := by
  refine Law.state_map EditState.call rfl (fun _ => rfl) (fun q e answer => ?_) depth history
  obtain ⟨_, parts⟩ := q.after_parts e answer
  rw [after_eq, parts]
  rfl

theorem made_eq (depth : Nat) (history : History) :
    (editLaw.state depth history).made = sections.state depth history := by
  refine Law.state_map EditState.made rfl (fun _ => rfl) (fun q e answer => ?_) depth history
  obtain ⟨_, parts⟩ := q.after_parts e answer
  rw [after_eq, parts]

theorem handed_eq (depth : Nat) (history : History) :
    (editLaw.state depth history).handed = drains.state depth history := by
  refine Law.state_map EditState.handed rfl (fun _ => rfl) (fun q e answer => ?_) depth history
  obtain ⟨_, parts⟩ := q.after_parts e answer
  rw [after_eq, parts]

theorem out_or_holding :
    ∀ depth history, (editLaw.state depth history).phase = .out ∨ Holding history depth := by
  refine @Law.outside_or_holding _ editLaw (·.phase = .out) rfl (fun _ => rfl) (fun _ => rfl) ?_
  intro q e answer other out
  cases e with
  | acquire => exact absurd rfl other
  | mask | setMask | store => simp only [after_eq, EditState.after, out]
  | release => rfl
  | _ => exact out

theorem made_of_ends (depth : Nat) (op : Operation) (history : History)
    (called : calls.state depth history = some op)
    (ends : editLaw.ends (editLaw.state depth history)) : Made depth op history := by
  intro edit makes bits
  rw [← made_eq]
  apply ends.2 op edit
  · rw [call_eq, called]
  · rw [handed_eq, makes]
  · exact bits

end editLaw

end EthernetMac
