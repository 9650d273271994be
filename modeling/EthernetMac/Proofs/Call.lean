import EthernetMac.Proofs.Action
import EthernetMac.Proofs.Footprint

/-! Calls at top level, from the machine at which they begin to their end. What is nested in a call
leaves some registers alone; those the call finds and leaves as if it ran by itself. -/

namespace EthernetMac

open Program

def Deed.write? : Deed → Option (Nat × Word)
  | ⟨.store offset value, _⟩ => some (offset, value)
  | _ => none

def writes (deeds : List Deed) : List (Nat × Word) := deeds.filterMap Deed.write?

@[simp] theorem writes_nil : writes [] = [] := rfl

@[simp] theorem writes_append (first rest : List Deed) :
    writes (first ++ rest) = writes first ++ writes rest :=
  List.filterMap_append

theorem writes_cons (deed : Deed) (deeds : List Deed) :
    writes (deed :: deeds) = writes [deed] ++ writes deeds :=
  writes_append [deed] deeds

theorem mem_writes {deeds : List Deed} {offset : Nat} {value : Word} :
    (offset, value) ∈ writes deeds ↔ (⟨.store offset value, ()⟩ : Deed) ∈ deeds := by
  refine List.mem_filterMap.trans ⟨?_, fun member => ⟨_, member, rfl⟩⟩
  rintro ⟨⟨e, answer⟩, member, wrote⟩
  cases e with
  | store other word =>
    cases wrote
    exact member
  | _ => cases wrote

def put (cell : Nat → Word) (write : Nat × Word) : Nat → Word :=
  fun offset => if offset = write.1 then write.2 else cell offset

def written (cell : Nat → Word) (writes : List (Nat × Word)) : Nat → Word := writes.foldl put cell

section Written

variable {cell : Nat → Word}

@[simp] theorem written_nil : written cell [] = cell := rfl

@[simp] theorem written_cons (write : Nat × Word) (rest : List (Nat × Word)) :
    written cell (write :: rest) = written (put cell write) rest := rfl

@[simp] theorem written_append (first rest : List (Nat × Word)) :
    written cell (first ++ rest) = written (written cell first) rest :=
  List.foldl_append

theorem put_self (offset : Nat) (value : Word) : put cell (offset, value) offset = value :=
  if_pos rfl

theorem put_of_ne {offset : Nat} {write : Nat × Word} (apart : offset ≠ write.1) :
    put cell write offset = cell offset :=
  if_neg apart

theorem put_put (offset : Nat) (first last : Word) :
    put (put cell (offset, first)) (offset, last) = put cell (offset, last) := by
  funext other
  by_cases here : other = offset <;> simp [put, here]

theorem written_of_apart {offset : Nat} {writes : List (Nat × Word)}
    (apart : ∀ write ∈ writes, offset ≠ write.1) : written cell writes offset = cell offset := by
  induction writes generalizing cell with
  | nil => rfl
  | cons write rest ih =>
    obtain ⟨first, later⟩ := List.forall_mem_cons.mp apart
    rw [written_cons, ih later, put_of_ne first]

end Written

section Tracked

variable (tracked : Nat → Prop)

def Deed.ReadsFrom (cell : Nat → Word) : Deed → Prop
  | ⟨.load offset, value⟩ => tracked offset → value = cell offset
  | _ => True

def Faithful : (Nat → Word) → List Deed → Prop
  | _, [] => True
  | cell, deed :: rest => deed.ReadsFrom tracked cell ∧ Faithful (written cell (writes [deed])) rest

/-- `e` neither writes a tracked register nor changes the target. -/
def Effect.Spares : Effect → Prop
  | .store offset _ => ¬ tracked offset
  | .attach _ | .detach => False
  | _ => True

theorem Effect.Spares.target {tracked : Nat → Prop} {e : Effect} (spares : e.Spares tracked)
    (target : Target) : e.target target = target := by
  cases e <;> first | rfl | exact spares.elim

structure Follows (s : Station) (deeds : List Deed) (t : Station) : Prop where
  cells : ∀ offset, tracked offset →
    t.registers.cell offset = written s.registers.cell (writes deeds) offset
  target : t.target = deeds.foldl (fun target deed => deed.effect.target target) s.target
  reads : Faithful tracked s.registers.cell deeds

variable {tracked}

theorem faithful_append {cell : Nat → Word} {first rest : List Deed} :
    Faithful tracked cell (first ++ rest) ↔
      Faithful tracked cell first ∧ Faithful tracked (written cell (writes first)) rest := by
  induction first generalizing cell with
  | nil => simp [Faithful]
  | cons deed first ih =>
    rw [List.cons_append, Faithful, Faithful, ih, writes_cons deed first, written_append, and_assoc]

def Settles (tracked : Nat → Prop) : Prop :=
  ∀ offset, tracked offset → offset ≠ Register.dmaMode ∧ offset ≠ Register.macInterruptStatus ∧
    offset ≠ Register.channelStatus

namespace Follows

variable {s t u : Station} {deeds : List Deed} {e : Effect} {answer : e.Answer}

theorem refl (s : Station) : Follows tracked s [] s := ⟨fun _ _ => rfl, rfl, trivial⟩

theorem congr (follows : Follows tracked s deeds t)
    (cells : ∀ offset, tracked offset → u.registers.cell offset = t.registers.cell offset)
    (target : u.target = t.target) : Follows tracked s deeds u :=
  ⟨fun offset inside => (cells offset inside).trans (follows.cells offset inside),
    target.trans follows.target, follows.reads⟩

theorem target_eq (follows : Follows tracked s deeds t)
    (keeps : ∀ deed ∈ deeds, ∀ target, deed.effect.target target = target) :
    t.target = s.target := by
  rw [follows.target]
  generalize s.target = target
  clear follows
  induction deeds with
  | nil => rfl
  | cons deed deeds ih =>
    obtain ⟨now, later⟩ := List.forall_mem_cons.mp keeps
    rw [List.foldl_cons, now]
    exact ih later

theorem other (settles : Settles tracked) (follows : Follows tracked s deeds t)
    (spares : e.Spares tracked) (applied : t.apply e = .ok (answer, u)) :
    Follows tracked s deeds u := by
  refine follows.congr (fun offset inside => ?_) ?_
  · obtain ⟨mode, latch, _⟩ := settles offset inside
    cases e with
    | load => exact Station.load_cell applied mode latch
    | store other value =>
      refine Station.store_cell applied ?_
      rintro rfl
      exact spares inside
    | _ =>
      rw [Station.apply_registers applied]
      rfl
  · rw [(Station.apply_target applied).1]
    exact spares.target _

theorem snoc (settles : Settles tracked) (follows : Follows tracked s deeds t)
    (applied : t.apply e = .ok (answer, u)) : Follows tracked s (deeds ++ [⟨e, answer⟩]) u := by
  constructor
  · intro offset inside
    obtain ⟨mode, latch, status⟩ := settles offset inside
    rw [writes_append, written_append]
    cases e with
    | store other value =>
      by_cases here : offset = other
      · subst here
        exact (Station.store_value applied status).trans (put_self _ _).symm
      · exact (Station.store_cell applied here).trans
          ((follows.cells offset inside).trans (put_of_ne here).symm)
    | load => exact (Station.load_cell applied mode latch).trans (follows.cells offset inside)
    | _ =>
      rw [Station.apply_registers applied]
      exact follows.cells offset inside
  · rw [(Station.apply_target applied).1, follows.target, List.foldl_append]
    rfl
  · refine faithful_append.mpr ⟨follows.reads, ?_, trivial⟩
    cases e with
    | load offset =>
      intro inside
      obtain ⟨mode, latch, _⟩ := settles offset inside
      rw [← follows.cells offset inside, ← Station.load_cell applied mode latch]
      exact (Station.load_value applied).symm
    | _ => trivial

end Follows

end Tracked

def Inside (admits : Machine → Step → Prop) (m : Machine) (step : Step) : Prop :=
  m.stack ≠ [] ∧ admits m step

def Operation.over (op : Operation) : Except Fault Answer → Entry
  | .ok answer => .ended 0 op answer
  | .error cause => .faulted cause

/-- `op`, called while `start` rests, comes to `outcome` at `m`; `inner` is what happens until then. -/
structure Call (admits : Machine → Step → Prop) (start : Machine) (op : Operation)
    (outcome : Except Fault Answer) (inner : History) (m : Machine) : Prop where
  resting : start.stack = []
  run : Run (Inside admits) (start.begin (.operation op)) (op.over outcome :: inner) m

/-- What is nested in `op` keeps to `nestable`, and so spares the tracked registers. -/
structure Confines (admits : Machine → Step → Prop) (op : Operation) (tracked : Nat → Prop)
    (nestable : Effect → Prop) : Prop where
  settles : Settles tracked
  spares : ∀ e, nestable e → e.Spares tracked
  surround : ∀ m step, admits m step → (∀ op, step ≠ .operation op) → ∀ offset, tracked offset →
    (m.station.meet step).registers.cell offset = m.station.registers.cell offset
  nested : ∀ m other, (∃ frame ∈ m.stack, frame.operation? = some op) →
    admits m (.operation other) → (other.task m.station.target).Only nestable

def Frame.Only (allowed : Effect → Prop) : Frame → Prop
  | .steps _ => True
  | .running op target rest => rest.Only allowed ∧ (op.task target).Only allowed

structure Deeds (tracked : Nat → Prop) (nestable : Effect → Prop) (start : Station) (op : Operation)
    (deeds : List Deed) (history : History) (s : Station) : Prop where
  follows : Follows tracked start deeds s
  own : ∀ allowed, (op.task start.target).Only allowed → ∀ deed ∈ deeds, allowed deed.effect
  acted : ∀ depth other e answer, .acted depth other e answer ∈ history →
    nestable e ∨ (⟨e, answer⟩ : Deed) ∈ deeds

inductive Ended (nestable : Effect → Prop) (start : Station) (op : Operation) (deeds : List Deed) :
    Except Fault Answer → Prop where
  | answered {answer : Answer}
      (course : op ≠ .deferred → (op.task start.target).Course deeds (.finished answer)) :
      Ended nestable start op deeds (.ok answer)
  | unwound {cause : Fault} {s : Station} {e : Effect} (failed : s.apply e = .error cause)
      (allowed : nestable e ∨ ∀ allowed, (op.task start.target).Only allowed → allowed e) :
      Ended nestable start op deeds (.error cause)

structure Leads (start : Station) (op : Operation) (deeds : List Deed) (rest : Task) : Prop where
  only : ∀ allowed, (op.task start.target).Only allowed → rest.Only allowed
  course : op ≠ .deferred → ∀ more round, rest.Course more round →
    (op.task start.target).Course (deeds ++ more) round

/-- Where a call stands: in progress, with some levels above it, or at its end. -/
inductive Stands (nestable : Effect → Prop) (start : Station) (op : Operation) (deeds : List Deed) :
    History → List Frame → Prop where
  | within {history : History} {rest : Task} (above : List Frame)
      (leads : Leads start op deeds rest) (nested : ∀ frame ∈ above, frame.Only nestable)
      (unfinished : ∀ outcome, op.over outcome ∉ history) :
      Stands nestable start op deeds history (above ++ [.running op start.target rest])
  | concluded {outcome : Except Fault Answer} {inner : History}
      (ended : Ended nestable start op deeds outcome)
      (unfinished : ∀ outcome, op.over outcome ∉ inner) :
      Stands nestable start op deeds (op.over outcome :: inner) []

def Entry.Inner : Entry → Prop
  | .ended depth _ _ => 0 < depth
  | .faulted _ => False
  | _ => True

/-- Something that is known of a call from what it has done, and that all which happens keeps: what
the call does itself, and what is nested in it. -/
structure Chronicle (admits : Machine → Step → Prop) (start : Station) (op : Operation)
    (nestable : Effect → Prop) (known : List Deed → History → Station → Prop) : Prop where
  initial : known [] [] start
  blind : ∀ {deeds history s} trace, known deeds history s → known deeds history { s with trace }
  own : ∀ {deeds history s after depth} {e : Effect} {answer : e.Answer},
    (∀ allowed, (op.task start.target).Only allowed → allowed e) →
    s.apply e = .ok (answer, after) → known deeds history s →
    known (deeds ++ [⟨e, answer⟩]) (.acted depth op e answer :: history) after
  other : ∀ {deeds history s after depth acting} {e : Effect} {answer : e.Answer}, nestable e →
    s.apply e = .ok (answer, after) → known deeds history s →
    known deeds (.acted depth acting e answer :: history) after
  surround : ∀ {deeds history m depth step}, admits m step → (∀ op, step ≠ .operation op) →
    known deeds history m.station → known deeds (.begun depth step :: history) (m.station.meet step)
  idle : ∀ {deeds history s entry},
    (∀ depth acting e answer, entry ≠ .acted depth acting e answer) →
    known deeds history s → known deeds (entry :: history) s
  unlocked : ∀ {deeds history s}, known deeds history s → known deeds history s.unlocked
  nested : ∀ m other, (∃ frame ∈ m.stack, frame.operation? = some op) →
    admits m (.operation other) → (other.task m.station.target).Only nestable

section Moves

variable {admits : Machine → Step → Prop} {op : Operation} {tracked : Nat → Prop}
  {nestable : Effect → Prop} {start s after : Station} {deeds : List Deed} {history : History}
  {stack : List Frame} {rest : Task}

theorem Operation.over_not_inner (op : Operation) (outcome : Except Fault Answer) :
    ¬ (op.over outcome).Inner := by
  cases outcome with
  | ok => exact Nat.lt_irrefl 0
  | error => exact id

theorem unfinished_cons {entry : Entry} (inner : entry.Inner)
    (unfinished : ∀ outcome, op.over outcome ∉ history) :
    ∀ outcome, op.over outcome ∉ entry :: history := by
  intro outcome member
  rcases List.mem_cons.mp member with same | member
  · exact op.over_not_inner outcome (same ▸ inner)
  · exact unfinished outcome member

theorem Deeds.idle (done : Deeds tracked nestable start op deeds history s) (entry : Entry)
    (quiet : ∀ depth other e answer, entry ≠ .acted depth other e answer)
    (cells : ∀ offset, tracked offset → after.registers.cell offset = s.registers.cell offset)
    (target : after.target = s.target) :
    Deeds tracked nestable start op deeds (entry :: history) after := by
  refine ⟨done.follows.congr cells target, done.own, ?_⟩
  intro depth other e answer member
  rcases List.mem_cons.mp member with rfl | member
  · exact absurd rfl (quiet depth other e answer)
  · exact done.acted depth other e answer member

theorem Deeds.other {depth : Nat} {acting : Operation} {e : Effect} {answer : e.Answer}
    (settles : Settles tracked) (spares : e.Spares tracked) (now : nestable e)
    (applied : s.apply e = .ok (answer, after))
    (done : Deeds tracked nestable start op deeds history s) :
    Deeds tracked nestable start op deeds (.acted depth acting e answer :: history) after := by
  refine ⟨done.follows.other settles spares applied, done.own, ?_⟩
  intro depth acting performed reply member
  rcases List.mem_cons.mp member with same | member
  · cases same
    exact .inl now
  · exact done.acted depth acting performed reply member

theorem Deeds.snoc {depth : Nat} {e : Effect} {answer : e.Answer} (settles : Settles tracked)
    (applied : s.apply e = .ok (answer, after))
    (now : ∀ allowed, (op.task start.target).Only allowed → allowed e)
    (done : Deeds tracked nestable start op deeds history s) :
    Deeds tracked nestable start op (deeds ++ [⟨e, answer⟩])
      (.acted depth op e answer :: history) after := by
  refine ⟨done.follows.snoc settles applied, ?_, ?_⟩
  · intro allowed only deed member
    rcases List.mem_append.mp member with member | member
    · exact done.own allowed only deed member
    · rw [List.mem_singleton.mp member]
      exact now allowed only
  · intro depth other performed reply member
    rcases List.mem_cons.mp member with same | member
    · cases same
      exact .inr (by simp)
    · exact (done.acted depth other performed reply member).imp_right (List.mem_append_left _)

theorem Frame.only_of_let {e : Effect} {pushed : List Frame} (allowed : Effect → Prop)
    (lets : pushed = [] ∨ e.point?.isSome ∧ ∃ steps, pushed = [.steps steps]) :
    ∀ frame ∈ pushed, frame.Only allowed := by
  rcases lets with rfl | ⟨_, steps, rfl⟩
  · exact List.forall_mem_nil _
  · exact List.forall_mem_singleton.mpr trivial

variable {known : List Deed → History → Station → Prop}

theorem Chronicle.proceed {entry : Option Entry} (chronicle : Chronicle admits start op nestable known)
    (leads : Leads start op deeds rest) (done : known deeds history s)
    (unfinished : ∀ outcome, op.over outcome ∉ history)
    (move : Move s [.running op start.target rest] entry after stack) :
    ∃ deeds, known deeds (entry.toList ++ history) after ∧
      Stands nestable start op deeds (entry.toList ++ history) stack := by
  cases move with
  | surround awaits => cases awaits
  | operate awaits => cases awaits
  | @act _ _ e next _ pushed answer _ applied lets =>
    simp only [Option.toList_some, List.singleton_append]
    have now : ∀ allowed, (op.task start.target).Only allowed → allowed e :=
      fun allowed only => (leads.only allowed only).1
    have onward : Leads start op (deeds ++ [⟨e, answer⟩]) (next answer) := by
      refine ⟨fun allowed only => ((leads.only allowed only).2 answer).2, ?_⟩
      intro once more round course
      rw [List.append_assoc]
      exact leads.course once _ round ⟨answer, more, rfl, course⟩
    exact ⟨_, chronicle.own now applied done,
      .within pushed onward (Frame.only_of_let _ lets) (unfinished_cons trivial unfinished)⟩
  | renew =>
    simp only [Option.toList_some, List.singleton_append]
    -- A program that goes in rounds does not lead to an end, so only what it may do is left to show.
    have again : Leads start op deeds (op.task start.target) := by
      refine ⟨fun _ => id, fun once => absurd ?_ once⟩
      exact Operation.again_only (leads.course once [] _ ⟨rfl, rfl⟩)
    exact ⟨deeds, chronicle.idle (fun _ _ _ _ => nofun) done,
      .within [] again (List.forall_mem_nil _) (unfinished_cons trivial unfinished)⟩
  | @finish _ _ answer =>
    have stays : known deeds (op.over (.ok answer) :: history) s :=
      chronicle.idle (fun _ _ _ _ => nofun) done
    refine ⟨deeds, stays, .concluded (.answered fun once => ?_) unfinished⟩
    simpa using leads.course once [] _ ⟨rfl, rfl⟩
  | @abort _ _ e _ _ cause failed =>
    have stays : known deeds (op.over (.error cause) :: history) s.unlocked :=
      chronicle.idle (fun _ _ _ _ => nofun) (chronicle.unlocked done)
    refine ⟨deeds, stays, .concluded (.unwound failed (.inr fun allowed only => ?_)) unfinished⟩
    exact (leads.only allowed only).1

theorem Chronicle.interrupted {entry : Option Entry}
    (chronicle : Chronicle admits start op nestable known) {m : Machine} {frame : Frame}
    {above : List Frame} (leads : Leads start op deeds rest)
    (nested : ∀ other ∈ frame :: above, other.Only nestable) (done : known deeds history m.station)
    (unfinished : ∀ outcome, op.over outcome ∉ history)
    (here : m.stack = frame :: (above ++ [.running op start.target rest]))
    (admitted : ∀ depth step, entry = some (.begun depth step) → Inside admits m step)
    (move : Move m.station (frame :: (above ++ [.running op start.target rest])) entry after stack) :
    known deeds (entry.toList ++ history) after ∧
      Stands nestable start op deeds (entry.toList ++ history) stack := by
  obtain ⟨top, lower⟩ := List.forall_mem_cons.mp nested
  have under (entry : Entry) (inner : entry.Inner) (frames : List Frame)
      (allowed : ∀ other ∈ frames, other.Only nestable) :
      Stands nestable start op deeds (entry :: history)
        (frames ++ (above ++ [.running op start.target rest])) := by
    rw [← List.append_assoc]
    exact .within _ leads (List.forall_mem_append.mpr ⟨allowed, lower⟩)
      (unfinished_cons inner unfinished)
  cases move with
  | @surround step _ below awaits surrounds =>
    obtain ⟨_, allowed⟩ := admitted _ _ rfl
    simp only [Option.toList_some, List.singleton_append]
    cases awaits with
    | @nested later _ =>
      refine ⟨chronicle.surround allowed surrounds done,
        under (.begun _ step) trivial [.steps later] ?_⟩
      exact List.forall_mem_singleton.mpr trivial
  | @operate other _ below awaits =>
    obtain ⟨_, allowed⟩ := admitted _ _ rfl
    simp only [Option.toList_some, List.singleton_append]
    have own : ∃ frame ∈ m.stack, frame.operation? = some op :=
      ⟨.running op start.target rest, by simp [here], rfl⟩
    have only := chronicle.nested m other own allowed
    cases awaits with
    | @nested later _ =>
      refine ⟨chronicle.idle (fun _ _ _ _ => nofun) done,
        under (.begun _ (.operation other)) trivial
          [.running other m.station.target (other.task m.station.target), .steps later] ?_⟩
      exact List.forall_mem_cons.mpr ⟨⟨only, only⟩, List.forall_mem_singleton.mpr trivial⟩
  | leave => exact ⟨done, .within _ leads lower unfinished⟩
  | @act other target e next _ pushed answer _ applied lets =>
    obtain ⟨⟨now, later⟩, whole⟩ := top
    simp only [Option.toList_some, List.singleton_append]
    refine ⟨chronicle.other now applied done, ?_⟩
    have onward : ∀ frame ∈ pushed ++ [.running other target (next answer)], frame.Only nestable :=
      List.forall_mem_append.mpr ⟨Frame.only_of_let _ lets,
        List.forall_mem_singleton.mpr ⟨(later answer).2, whole⟩⟩
    have stands := under
      (.acted (above ++ [Frame.running op start.target rest]).length other e answer) trivial _ onward
    simpa using stands
  | @renew other target =>
    simp only [Option.toList_some, List.singleton_append]
    refine ⟨chronicle.idle (fun _ _ _ _ => nofun) done,
      under (.renewed _ other) trivial [.running other target (other.task target)] ?_⟩
    exact List.forall_mem_singleton.mpr ⟨top.2, top.2⟩
  | finish =>
    simp only [Option.toList_some, List.singleton_append]
    have inner : 0 < (above ++ [Frame.running op start.target rest]).length := by simp
    exact ⟨chronicle.idle (fun _ _ _ _ => nofun) done,
      under (.ended _ _ _) inner [] (List.forall_mem_nil _)⟩
  | @abort _ _ e _ _ cause failed =>
    have stays : known deeds (op.over (.error cause) :: history) m.station.unlocked :=
      chronicle.idle (fun _ _ _ _ => nofun) (chronicle.unlocked done)
    exact ⟨stays, .concluded (.unwound failed (.inl top.1.1)) unfinished⟩

end Moves

section Calls

variable {admits : Machine → Step → Prop} {op : Operation} {nestable : Effect → Prop}
  {known : List Deed → History → Station → Prop} {start m : Machine}

/-- A call in progress, or at its end, has done what its program says, and what is known of such calls
holds. -/
theorem Chronicle.stands (chronicle : Chronicle admits start.station op nestable known)
    {history : History} (resting : start.stack = [])
    (run : Run (Inside admits) (start.begin (.operation op)) history m) :
    ∃ deeds, known deeds history m.station ∧
      Stands nestable start.station op deeds history m.stack := by
  refine Run.keeps (P := fun history s stack =>
    ∃ deeds, known deeds history s ∧
      Stands nestable start.station op deeds history stack) ?_ ?_ ?_ run
  · have leads : Leads start.station op [] (op.task start.station.target) :=
      ⟨fun _ => id, fun _ _ _ => id⟩
    have begun : Stands nestable start.station op [] []
        [.running op start.station.target (op.task start.station.target)] :=
      .within [] leads (List.forall_mem_nil _) fun _ => List.not_mem_nil
    have initial : known [] [] { start.station with trace := [] } :=
      chronicle.blind [] chronicle.initial
    refine ⟨[], initial, ?_⟩
    simpa [Machine.begin, Machine.issue, Machine.start, resting] using begun
  · rintro history s stack trace ⟨deeds, done, stands⟩
    exact ⟨deeds, chronicle.blind trace done, stands⟩
  · rintro history m entry after stack run move admitted ⟨deeds, done, stands⟩
    generalize here : m.stack = levels at move stands
    cases stands with
    | @within _ rest above leads nested unfinished =>
      cases above with
      | nil => exact chronicle.proceed leads done unfinished move
      | cons frame above =>
        exact ⟨deeds, chronicle.interrupted leads nested done unfinished here admitted move⟩
    | concluded ended unfinished =>
      cases move with
      | surround => exact absurd here (admitted _ _ rfl).1
      | operate => exact absurd here (admitted _ _ rfl).1

/-- So has a call that is over, and nothing else is in progress then. -/
theorem Chronicle.concludes (chronicle : Chronicle admits start.station op nestable known)
    {outcome : Except Fault Answer} {inner : History} (call : Call admits start op outcome inner m) :
    ∃ deeds, known deeds (op.over outcome :: inner) m.station ∧
      Ended nestable start.station op deeds outcome ∧ m.stack = [] ∧
      ∀ outcome, op.over outcome ∉ inner := by
  obtain ⟨deeds, done, stands⟩ := chronicle.stands call.resting call.run
  refine ⟨deeds, done, ?_⟩
  generalize whole : op.over outcome :: inner = history at stands
  generalize m.stack = stack at stands
  cases stands with
  | within _ leads nested unfinished => exact absurd (whole ▸ .head _) (unfinished outcome)
  | @concluded other _ ended unfinished =>
    obtain ⟨same, rfl⟩ := List.cons.inj whole
    obtain rfl : outcome = other := by
      cases outcome <;> cases other <;> cases same <;> rfl
    exact ⟨ended, rfl, unfinished⟩

variable {tracked : Nat → Prop}

theorem Confines.chronicle (confines : Confines admits op tracked nestable) (start : Station) :
    Chronicle admits start op nestable (Deeds tracked nestable start op) where
  initial := ⟨.refl start, fun _ _ => List.forall_mem_nil _,
    fun _ _ _ _ member => absurd member List.not_mem_nil⟩
  blind _ done := ⟨done.follows.congr (fun _ _ => rfl) rfl, done.own, done.acted⟩
  own now applied done := done.snoc confines.settles applied now
  other now applied done := done.other confines.settles (confines.spares _ now) now applied
  surround allowed surrounds done :=
    done.idle _ (fun _ _ _ _ => nofun) (confines.surround _ _ allowed surrounds)
      (Station.meet_target _).1
  idle quiet done := done.idle _ quiet (fun _ _ => rfl) rfl
  unlocked done := ⟨done.follows.congr (fun _ _ => rfl) rfl, done.own, done.acted⟩
  nested := confines.nested

end Calls

/-- A call does what its program says, as far as the tracked registers go, and what else happens in
it is what may be nested in it. -/
theorem Call.follows {admits : Machine → Step → Prop} {op : Operation} {tracked : Nat → Prop}
    {nestable : Effect → Prop} (confines : Confines admits op tracked nestable) {start m : Machine}
    {outcome : Except Fault Answer} {inner : History} (call : Call admits start op outcome inner m) :
    ∃ deeds, Deeds tracked nestable start.station op deeds inner m.station ∧
      Ended nestable start.station op deeds outcome ∧ m.stack = [] := by
  obtain ⟨deeds, done, ended, rests, _⟩ := (confines.chronicle start.station).concludes call
  exact ⟨deeds, ⟨done.follows, done.own, fun depth other e answer member =>
    done.acted depth other e answer (.tail _ member)⟩, ended, rests⟩

theorem Machine.Calm.begin {start : Machine} (resting : start.stack = [])
    (unhooked : start.hooks = []) (op : Operation) : (start.begin (.operation op)).Calm := by
  refine ⟨unhooked, List.forall_mem_cons.mpr ⟨fun _ => nofun, ?_⟩⟩
  rw [resting]
  exact List.forall_mem_nil _

def Machine.after (m : Machine) (op : Operation) (moves : Nat) : Machine :=
  Machine.advanceFor moves (m.begin (.operation op))

def Machine.record (m : Machine) (op : Operation) (moves : Nat) : History :=
  (m.begin (.operation op)).entries moves

theorem Run.alone {admits : Machine → Step → Prop} {start m : Machine} {history : History}
    (run : Run admits start history m) {op : Operation} (moves : Nat) (resting : m.stack = [])
    (unhooked : m.hooks = []) (admitted : admits m (.operation op)) :
    Run admits start (m.record op moves ++ .begun 0 (.operation op) :: history) (m.after op moves) :=
  (run.begin resting admitted).advances moves (.begin resting unhooked op)

theorem Call.alone {admits : Machine → Step → Prop} {start : Machine} {op : Operation}
    {outcome : Except Fault Answer} (moves : Nat) (resting : start.stack = [])
    (unhooked : start.hooks = []) (ends : (start.record op moves).head? = some (op.over outcome)) :
    Call admits start op outcome (start.record op moves).tail (start.after op moves) := by
  have run : Run (Inside admits) _ _ _ := Run.refl.advances moves (.begin resting unhooked op)
  obtain ⟨rest, same⟩ := List.head?_eq_some_iff.mp ends
  rw [List.append_nil] at run
  change Run _ _ (start.record op moves) (start.after op moves) at run
  rw [same] at run ⊢
  exact ⟨resting, run⟩

theorem Call.letting {admits : Machine → Step → Prop} {start : Machine} {op : Operation}
    {outcome : Except Fault Answer} (moves : Nat) (resting : start.stack = [])
    (allowed : ∀ opening ∈ (start.begin (.operation op)).beginnings moves,
      Inside admits opening.1 opening.2)
    (ends : (start.record op moves).head? = some (op.over outcome)) :
    Call admits start op outcome (start.record op moves).tail (start.after op moves) := by
  have run : Run (Inside admits) _ _ _ := Run.refl.goesOn moves allowed
  obtain ⟨rest, same⟩ := List.head?_eq_some_iff.mp ends
  rw [List.append_nil] at run
  change Run _ _ (start.record op moves) (start.after op moves) at run
  rw [same] at run ⊢
  exact ⟨resting, run⟩

/-- What holds while the machine rests, if every step and every call at top level keeps it. -/
theorem Run.by_calls {admits : Machine → Step → Prop} {tracked : Nat → Prop}
    {nestable : Operation → Effect → Prop}
    (confines : ∀ op, Confines admits op tracked (nestable op)) {start : Machine}
    (resting : start.stack = []) {P : History → Station → Prop} (initial : P [] start.station)
    (blind : ∀ {history s} trace, P history s → P history { s with trace })
    (surround : ∀ {history m step}, P history m.station → m.stack = [] → admits m step →
      (∀ op, step ≠ .operation op) → P (.begun 0 step :: history) (m.station.meet step))
    (call : ∀ {history m op outcome inner after}, P history m.station → admits m (.operation op) →
      Call admits m op outcome inner after →
      P (op.over outcome :: inner ++ .begun 0 (.operation op) :: history) after.station)
    {history : History} {m : Machine} (run : Run admits start history m) (rests : m.stack = []) :
    P history m.station := by
  -- In the middle of a call nothing is known but what held when it began and how it went since.
  suffices all : (m.stack = [] → P history m.station) ∧ (m.stack ≠ [] →
      ∃ earlier before op inner, P earlier before.station ∧ before.stack = [] ∧
        admits before (.operation op) ∧ history = inner ++ .begun 0 (.operation op) :: earlier ∧
        Run (Inside admits) (before.begin (.operation op)) inner m) from all.1 rests
  clear rests
  induction run with
  | refl => exact ⟨fun _ => initial, fun busy => absurd resting busy⟩
  | @begin history m next run rests admitted ih =>
    by_cases surrounds : ∀ op, next ≠ .operation op
    · obtain ⟨after, trace, move, same⟩ := Machine.begin_reached next rests
      generalize (m.begin next).stack = stack at move
      rw [rests] at move
      cases move with
      | operate => exact absurd rfl (surrounds _)
      | surround awaits =>
        cases awaits
        rw [same]
        exact ⟨fun _ => blind trace (surround (ih.1 rests) rests admitted surrounds),
          fun busy => absurd rfl busy⟩
    · obtain ⟨op, rfl⟩ : ∃ op, next = .operation op := by simpa using surrounds
      exact ⟨fun stays => absurd stays (List.cons_ne_nil _ _),
        fun _ => ⟨history, m, op, [], ih.1 rests, rests, admitted, rfl, .refl⟩⟩
  | @advance history m run busy admitted ih =>
    obtain ⟨earlier, before, op, inner, good, rests, called, rfl, within⟩ := ih.2 busy
    have onward := within.advance busy fun depth step shown => ⟨busy, admitted depth step shown⟩
    refine ⟨fun stays => ?_, fun _ => ⟨earlier, before, op, _, good, rests, called, ?_, onward⟩⟩
    · obtain ⟨deeds, _, stands⟩ := ((confines op).chronicle before.station).stands rests onward
      rw [← List.append_assoc]
      generalize m.entry?.toList ++ inner = whole at onward stands
      generalize here : m.advance.stack = stack at stands
      cases stands with
      | within => simp [stays] at here
      | concluded => exact call good called ⟨rests, onward⟩
    · rw [List.append_assoc]

theorem Run.resume {admits wider : Machine → Step → Prop} {first start m : Machine} {op : Operation}
    {history inner : History} (run : Run wider first history start) (resting : start.stack = [])
    (admitted : wider start (.operation op))
    (allowed : ∀ {inner n step}, Run (Inside admits) (start.begin (.operation op)) inner n →
      admits n step → wider n step)
    (within : Run (Inside admits) (start.begin (.operation op)) inner m) :
    Run wider first (inner ++ .begun 0 (.operation op) :: history) m := by
  induction within with
  | refl => exact run.begin resting admitted
  | begin _ rests inside => exact absurd rests inside.1
  | advance within busy inside ih =>
    rw [List.append_assoc]
    exact ih.advance busy fun depth step shown => allowed within (inside depth step shown).2

theorem Run.serves {admits : Machine → Step → Prop} {start m : Machine} {history : History}
    (serving : ∀ m op, admits m (.operation op) → op.InService) (resting : start.stack = [])
    (run : Run admits start history m) : m.station.target = start.station.target := by
  have obeyed (m : Machine) (op : Operation) (admitted : admits m (.operation op)) :
      (op.task m.station.target).Obeys (.only fun e => ∀ target, e.target target = target)
        (fun _ _ => True) () := by
    refine (Operation.task_only (serving m op admitted) _).mono fun e inside => ?_
    cases e <;> first | exact inside.elim | exact fun _ => rfl
  refine Run.account (P := fun _ s => s.target = start.station.target) rfl (fun _ kept => kept)
    ?_ (fun _ _ _ kept => kept) ?_ (fun _ _ kept => kept) (fun _ _ kept => kept)
    (fun _ _ _ kept => kept) run
  · intro _ m step _ _ _ _ _ kept
    exact (m.station.meet_target step).1.trans kept
  · intro history m op target e next below answer after run top applied kept
    rw [(Station.apply_target applied).1]
    have keeps : ∀ target, e.target target = target := (run.acting resting obeyed top).permitted
    rw [keeps, kept]

end EthernetMac
