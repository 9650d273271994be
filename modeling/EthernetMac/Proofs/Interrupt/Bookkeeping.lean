import EthernetMac.Proofs.Adapter.Window
import EthernetMac.Proofs.Interrupt.Turns

namespace EthernetMac

open Program

inductive Item where
  | counted (c : Counter)
  | scheduled
  | merged
  | drained
  | notified (direction : Direction)
  | published
  | refreshed
  | announced
  | answered (raised : Bool)
  | entered
  deriving DecidableEq

namespace Item

def ofPublication : Option Operation → List Item
  | some .deferred => [published, refreshed]
  | some (.prepare _ _) => [published, announced]
  | _ => [published]

def ofAction (call : Option Operation) (taken : Option Direction) :
    (e : Effect) → e.Answer → List Item
  | .count c, _ => [counted c]
  | .schedule, _ => [scheduled]
  | .merge _, _ => [merged]
  | .drain, word => if word = (0 : Word) then [] else [drained]
  | .notify _, _ => taken.toList.map notified
  | .publishLink _, _ => ofPublication call
  | _, _ => []

def ofAnswer : Operation → Answer → List Item
  | .interrupt, .truth raised => [answered raised]
  | .enterWorking, .ok => [entered]
  | _, _ => []

def ofRound (op : Operation) : Round Answer → List Item
  | .again => []
  | .finished answer => ofAnswer op answer

end Item

/-- For each handled interrupt there was one answer, one merge and one request for the worker; for each
count of a direction a notification; for each count of a link change a refresh; each publication has a
reason; and what a worker counts it was handed. -/
structure Balanced (items : List Item) : Prop where
  handled : items.count (.counted .handled) = items.count (.answered true)
  ignored : items.count (.counted .ignored) = items.count (.answered false)
  scheduled : items.count .scheduled = items.count (.answered true)
  merged : items.count .merged = items.count (.answered true)
  notified : ∀ direction ∈ [Direction.receive, .transmit],
    items.count (.counted direction.counter) = items.count (.notified direction)
  refreshed : items.count (.counted .linkChange) = items.count .refreshed
  published : items.count .published =
    items.count .announced + items.count .entered + items.count .refreshed
  drained : ∀ c ∈ [Counter.linkChange, .abnormal, .fatal],
    items.count (.counted c) ≤ items.count .drained

namespace Balanced

variable {one other : List Item}

instance (items : List Item) : Decidable (Balanced items) :=
  decidable_of_iff
    (((items.count (.counted .handled) = items.count (.answered true) ∧
      items.count (.counted .ignored) = items.count (.answered false)) ∧
      items.count .scheduled = items.count (.answered true) ∧
      items.count .merged = items.count (.answered true)) ∧
    (∀ direction ∈ [Direction.receive, .transmit],
      items.count (.counted direction.counter) = items.count (.notified direction)) ∧
    items.count (.counted .linkChange) = items.count .refreshed ∧
    items.count .published =
      items.count .announced + items.count .entered + items.count .refreshed ∧
    ∀ c ∈ [Counter.linkChange, .abnormal, .fatal], items.count (.counted c) ≤ items.count .drained)
    ⟨fun ⟨⟨⟨handled, ignored⟩, scheduled, merged⟩, notified, refreshed, published, drained⟩ =>
      ⟨handled, ignored, scheduled, merged, notified, refreshed, published, drained⟩,
    fun ⟨handled, ignored, scheduled, merged, notified, refreshed, published, drained⟩ =>
      ⟨⟨⟨handled, ignored⟩, scheduled, merged⟩, notified, refreshed, published, drained⟩⟩

theorem append (first : Balanced one) (second : Balanced other) : Balanced (one ++ other) := by
  constructor
  case notified =>
    intro direction either
    simp only [List.count_append, first.notified direction either, second.notified direction either]
  case drained =>
    intro c served
    simp only [List.count_append]
    exact Nat.add_le_add (first.drained c served) (second.drained c served)
  case published =>
    simp only [List.count_append, first.published, second.published]
    omega
  all_goals simp only [List.count_append]
  · rw [first.handled, second.handled]
  · rw [first.ignored, second.ignored]
  · rw [first.scheduled, second.scheduled]
  · rw [first.merged, second.merged]
  · rw [first.refreshed, second.refreshed]

theorem congr (balanced : Balanced one) (same : ∀ item, other.count item = one.count item) :
    Balanced other := by
  obtain ⟨handled, ignored, scheduled, merged, notified, refreshed, published, drained⟩ := balanced
  constructor <;> simpa only [same]

end Balanced

structure Booking where
  call : Option Operation
  attached : Bool
  taken : Option Direction
  items : List Item

namespace Booking

def Serves (q : Booking) : Prop :=
  ∃ op, q.call = some op ∧ WindowStage.ofOperation op = .service

def Prepares (q : Booking) : Prop := ∃ config resources, q.call = some (.prepare config resources)

/-- Only operations on the device leave something to count, but that a preparation publishes, once,
before there is a device. -/
def Permits (q : Booking) : Effect → Prop
  | .count _ | .schedule | .merge _ | .drain | .notify _ => q.Serves
  | .publishLink _ => q.Serves ∨ q.Prepares ∧ q.attached = false
  | .attach _ => q.items.count .announced = 1
  | _ => True

def after (q : Booking) (e : Effect) (answer : e.Answer) : Booking where
  call := q.call
  attached := match e with
    | .attach _ => true
    | _ => q.attached
  taken := takes.after q.taken e answer
  items := Item.ofAction q.call q.taken e answer ++ q.items

end Booking

def bookLaw : Law Booking where
  idle := ⟨none, false, none, []⟩
  start op := ⟨some op, false, none, []⟩
  permits := Booking.Permits
  after := Booking.after

namespace bookLaw

@[simp] theorem idle_eq : bookLaw.idle = ⟨none, false, none, []⟩ := rfl

@[simp] theorem start_eq (op : Operation) : bookLaw.start op = ⟨some op, false, none, []⟩ := rfl

@[simp] theorem permits_eq : bookLaw.permits = Booking.Permits := rfl

@[simp] theorem after_eq : bookLaw.after = Booking.after := rfl

def Settled (op : Operation) (round : Round Answer) (q : Booking) : Prop :=
  Balanced (Item.ofRound op round ++ q.items)

def Plain : Effect → Prop
  | .count _ | .schedule | .merge _ | .drain | .notify _ | .publishLink _ | .takeQueue _ | .attach _ =>
    False
  | _ => True

variable {q : Booking}

theorem of_plain {α : Type} {p : Program α} {allowed : Effect → Prop} (only : p.Only allowed)
    (plain : ∀ e, allowed e → Plain e) : p.Obeys bookLaw (fun _ after => after = q) q := by
  refine .of_only only (fun e inside => ?_) trivial
  have plain := plain e inside
  cases e with
  | count | schedule | merge | drain | notify | publishLink | takeQueue | attach => exact plain.elim
  | _ => exact ⟨trivial, fun _ => rfl⟩

theorem of_act (e : Effect) (plain : Plain e) :
    (act e).Obeys bookLaw (fun _ after => after = q) q :=
  of_plain (.act plain) fun _ => id

theorem of_mask {p : Program Unit} (only : p.Only maskActions) :
    p.Obeys bookLaw (fun _ after => after = q) q := by
  refine of_plain only fun e inside => ?_
  cases e <;> first | exact inside.elim | trivial

theorem locked {p : Program Unit} {post : Booking → Prop}
    (body : p.Obeys bookLaw (fun _ => post) q) :
    (Program.locked p).Obeys bookLaw (fun _ => post) q := by
  rw [obeys_locked]
  refine ⟨trivial, fun _ => ⟨by rintro ⟨⟩, body.mono fun _ _ holds => ?_⟩⟩
  exact ⟨trivial, fun _ => ⟨by rintro ⟨⟩, holds⟩⟩

theorem refresh (serves : q.Serves) :
    (discard refreshLink).Obeys bookLaw
      (fun _ after => after = { q with items := Item.ofPublication q.call ++ q.items }) q := by
  rw [obeys_discard]
  unfold refreshLink
  refine Obeys.seq (of_act (.load _) trivial) fun status => ?_
  refine Obeys.seq (of_act (.load _) trivial) fun config => ?_
  refine Obeys.seq (.onlyIf fun _ => of_act (.store ..) trivial) fun _ => ?_
  exact ⟨.inl serves, fun _ => ⟨fun _ => trivial, rfl⟩⟩

theorem handle :
    Interrupt.handle.Obeys bookLaw (fun raised q => Settled .interrupt (.finished (.truth raised)) q)
      (bookLaw.start .interrupt) := by
  have serves : Booking.Serves ⟨some .interrupt, false, none, []⟩ := ⟨_, rfl, rfl⟩
  unfold Interrupt.handle
  refine Obeys.seq (of_act (.load _) trivial) fun mac => ?_
  refine Obeys.seq (of_act (.load _) trivial) fun channel => ?_
  rw [obeys_ite]
  refine ⟨fun _ => ⟨serves, fun _ => ⟨by rintro ⟨⟩, ?_⟩⟩, fun _ => ?_⟩
  · change Balanced [.answered false, .counted .ignored]
    decide
  refine Obeys.seq (.onlyIf fun _ => (obeys_discard ..).mpr (of_act (.load _) trivial)) fun _ => ?_
  refine Obeys.seq (.onlyIf fun _ => of_act (.store ..) trivial) fun _ => ?_
  refine ⟨serves, fun _ => ⟨fun _ => trivial, serves, fun _ => ⟨fun _ => trivial, serves, fun _ => ?_⟩⟩⟩
  refine ⟨fun _ => trivial, ?_⟩
  change Balanced [.answered true, .counted .handled, .scheduled, .merged]
  decide

section Worker

def working (taken : Option Direction) (items : List Item) : Booking :=
  ⟨some .deferred, false, taken, items⟩

variable {taken : Option Direction} {items : List Item}

theorem working_serves : (working taken items).Serves := ⟨_, rfl, rfl⟩

theorem count {condition : Bool} (c : Counter) :
    (onlyIf condition (act (.count c))).Obeys bookLaw
      (fun _ after => after = working taken ((if condition then [.counted c] else []) ++ items))
      (working taken items) := by
  refine (obeys_onlyIf ..).mpr ⟨?_, ?_⟩
  · rintro rfl
    exact ⟨working_serves, fun _ => ⟨by rintro ⟨⟩, rfl⟩⟩
  · rintro rfl
    rfl

theorem linkChange {condition : Bool} :
    (onlyIf condition (do act (.count .linkChange); discard refreshLink)).Obeys bookLaw
      (fun _ after => after = working taken
        ((if condition then [.published, .refreshed, .counted .linkChange] else []) ++ items))
      (working taken items) := by
  refine (obeys_onlyIf ..).mpr ⟨?_, ?_⟩
  · rintro rfl
    refine ⟨working_serves, fun _ => ⟨by rintro ⟨⟩, ?_⟩⟩
    exact refresh (q := working taken (.counted .linkChange :: items)) working_serves
  · rintro rfl
    rfl

theorem notifyOnce {condition : Bool} (direction : Direction) (balanced : Balanced items) :
    (onlyIf condition (Interrupt.notifyOnce direction)).Obeys bookLaw
      (fun _ after => ∃ taken items, Balanced items ∧ after = working taken items)
      (working taken items) := by
  refine (obeys_onlyIf ..).mpr ⟨fun _ => ?_, fun _ => ⟨_, _, balanced, rfl⟩⟩
  refine ⟨trivial, fun answer => ⟨by rintro ⟨⟩, ?_⟩⟩
  cases answer with
  | none => exact ⟨_, _, balanced, rfl⟩
  | some queue =>
    refine ⟨working_serves, fun _ => ⟨by rintro ⟨⟩, working_serves, fun _ => ⟨fun _ => trivial, ?_⟩⟩⟩
    have pair : Balanced [.notified direction, .counted direction.counter] := by
      cases direction <;> decide
    exact ⟨some direction, _, pair.append balanced, rfl⟩

theorem serveQueues (causes : Causes) (balanced : Balanced items) :
    (Interrupt.serveQueues causes).Obeys bookLaw
      (fun _ after => ∃ taken items, Balanced items ∧ after = working taken items)
      (working taken items) := by
  refine locked ((of_mask (Interrupt.removeWanted_only _)).seq fun _ => ?_)
  refine (obeys_bind ..).mpr ((notifyOnce .receive balanced).mono ?_)
  rintro _ _ ⟨taken, items, balanced, rfl⟩
  exact notifyOnce .transmit balanced

theorem deferred :
    (Task.deferred (discard refreshLink)).Obeys bookLaw (Settled .deferred)
      (bookLaw.start .deferred) := by
  unfold Task.deferred Interrupt.work
  simp only [obeys_bind]
  refine ⟨⟨_, rfl, rfl⟩, fun word => ⟨by rintro ⟨⟩, ?_⟩⟩
  rw [obeys_done, obeys_ite]
  refine ⟨?_, fun busy => ?_⟩
  · rintro rfl
    change Balanced []
    decide
  have drained : bookLaw.after (bookLaw.start .deferred) .drain word = working none [.drained] := by
    simp only [after_eq, Booking.after, Item.ofAction, if_neg busy]
    rfl
  rw [drained, obeys_bind]
  unfold Interrupt.serve
  refine (count .abnormal).andThen fun _ => (count .fatal).andThen fun _ => ?_
  refine linkChange.andThen fun _ => ?_
  have balanced (abnormal fatal link : Bool) :
      Balanced ((if link then [.published, .refreshed, .counted .linkChange] else []) ++
        ((if fatal then [.counted .fatal] else []) ++
          ((if abnormal then [.counted .abnormal] else []) ++ [.drained]))) := by
    cases abnormal <;> cases fatal <;> cases link <;> decide
  refine (obeys_onlyIf ..).mpr ⟨fun _ => ?_, fun _ => balanced ..⟩
  refine (serveQueues _ (balanced ..)).mono ?_
  rintro _ _ ⟨taken, items, balanced, rfl⟩
  exact balanced

end Worker

theorem enterWorking (a : Adapter) :
    (Task.once a.enterWorking Task.outcome).Obeys bookLaw (Settled .enterWorking)
      (bookLaw.start .enterWorking) := by
  have entered : Balanced [.entered, .published] := by decide
  rw [obeys_once]
  refine a.enterWorking_parts (q := bookLaw.start .enterWorking)
    (r := ⟨some .enterWorking, false, none, [.published]⟩) ?turnedOn
    (fun _ _ _ => of_act _ trivial) ?refreshed ?cleared ?enabled
  case turnedOn =>
    refine (of_act (.setActive true) trivial).mono fun was _ same => ?_
    cases was with
    | true =>
      subst same
      exact (by decide : Balanced [])
    | false => exact same
  case refreshed =>
    exact Obeys.seq (of_act (.store ..) trivial) fun _ => refresh ⟨_, rfl, rfl⟩
  case cleared =>
    exact Obeys.seq (of_act (.load _) trivial) fun stale => .onlyIf fun _ => of_act (.store ..) trivial
  case enabled => exact (locked (of_mask (Interrupt.addWanted_only _))).reach fun _ => entered

theorem leaveWorking :
    Adapter.leaveWorking.Obeys bookLaw (fun _ after => after = q) q := by
  refine Adapter.leaveWorking_parts (q := q) (r := q) ?turnedOff
    (locked (of_mask (Interrupt.removeWanted_only _))) (fun direction => ?cleared) ?stopped
  case turnedOff =>
    refine (of_act (.setActive false) trivial).mono fun was _ same => ?_
    cases was <;> exact same
  case cleared =>
    refine Obeys.seq (of_act (.armed direction) trivial) fun registered => ?_
    cases registered with
    | true => exact (obeys_fail _).mpr trivial
    | false => rfl
  case stopped => exact Obeys.seq (of_act (.load _) trivial) fun _ => of_act (.store ..) trivial

section Preparation

variable (config : HostConfig) (resources : List Resource)

def preparing (items : List Item) : Booking := ⟨some (.prepare config resources), false, none, items⟩

theorem bringUp (line : Nat) :
    (Adapter.bringUp config line).Obeys bookLaw
      (fun result after => after = preparing config resources [.published, .announced] ∨
        after = preparing config resources [] ∧ ∃ cause, result = .error cause)
      (preparing config resources []) := by
  have survey {α : Type} {p : Program α} {q : Booking} (only : p.Only surveyActions) :
      p.Obeys bookLaw (fun _ after => after = q) q :=
    of_plain only fun e inside => by cases e <;> first | exact inside.elim | trivial
  unfold Adapter.bringUp
  refine (survey readPermanent_only).seq fun permanent => ?_
  refine (survey (selectCurrent_only _ _)).seq fun current => ?_
  refine (survey readFeatures_only).seq fun features => ?_
  split
  · exact .inr ⟨rfl, _, rfl⟩
  refine Obeys.seq (of_act (.publishCapabilities _) trivial) fun _ => ?_
  refine ⟨.inr ⟨⟨_, _, rfl⟩, rfl⟩, fun _ => ⟨fun _ => trivial, ?_⟩⟩
  have announced {p : Program (Except Error Adapter)}
      (kept : p.Obeys bookLaw
        (fun _ after => after = preparing config resources [.published, .announced])
        (preparing config resources [.published, .announced])) :
      p.Obeys bookLaw (fun result after =>
        after = preparing config resources [.published, .announced] ∨
          after = preparing config resources [] ∧ ∃ cause, result = .error cause)
        (preparing config resources [.published, .announced]) :=
    kept.mono fun _ _ same => .inl same
  refine announced ?_
  have reset {q : Booking} : (softReset current).Obeys bookLaw (fun _ after => after = q) q :=
    of_plain (softReset_only current) fun e inside => by
      cases e <;> first | exact inside.elim | trivial
  refine reset.seq fun result => ?_
  cases result with
  | error cause => rfl
  | ok polls =>
    refine Obeys.seq (of_plain configure_only fun e inside => ?_) fun _ => ?_
    · cases e <;> first | exact inside.elim | trivial
    refine Obeys.seq (of_act .startDatapath trivial) fun started => ?_
    rw [obeys_ite]
    exact ⟨fun _ => rfl, fun _ => rfl⟩

theorem prepare :
    (Task.prepare config resources).Obeys bookLaw (Settled (.prepare config resources))
      (bookLaw.start (.prepare config resources)) := by
  change Obeys bookLaw _ _ (preparing config resources [])
  have announced : Balanced [.published, .announced] := by decide
  unfold Task.prepare Adapter.prepare
  simp only [obeys_bind]
  have search : ∀ e, searchActions e → Plain e := fun e inside => by
    cases e <;> first | exact inside.elim | trivial
  refine (of_plain (scan_only resources {}) search).reach fun scanned => ?_
  cases scanned with
  | error cause => exact (by decide : Balanced [])
  | ok line =>
    rw [obeys_bind]
    refine (bringUp config resources line).mono fun result after stage => ?_
    cases result with
    | error cause =>
      refine ⟨trivial, fun _ => ⟨by rintro ⟨⟩, ?_⟩⟩
      rcases stage with rfl | ⟨rfl, _⟩
      · exact announced
      · exact (by decide : Balanced [])
    | ok adapter =>
      rcases stage with rfl | ⟨_, _, ⟨⟩⟩
      exact ⟨rfl, fun _ => ⟨by rintro ⟨⟩, announced⟩⟩

end Preparation

theorem service {op : Operation} (inService : op.InService) (target : Target)
    (other : op ≠ .interrupt ∧ op ≠ .deferred ∧ op ≠ .enterWorking) :
    (op.task target).Obeys bookLaw (fun _ after => after = q) q := by
  have once {α : Type} {p : Program α} {answer : α → Answer}
      (kept : p.Obeys bookLaw (fun _ after => after = q) q) :
      (Task.once p answer).Obeys bookLaw (fun _ after => after = q) q :=
    kept.seq fun _ => rfl
  have work := op.work inService target
  generalize op.task target = task at work
  cases work with
  | nothing => rfl
  | read | load => exact once (of_act (.load _) trivial)
  | write => exact once (of_act (.store ..) trivial)
  | statistics =>
    refine once (of_plain readStatistics_only fun e inside => ?_)
    cases e <;> first | exact inside.elim | trivial
  | filter =>
    refine once (of_plain (applyFilter_only ..) fun e inside => ?_)
    cases e <;> first | exact inside.elim | trivial
  | leaveWorking => exact once leaveWorking
  | register direction queue =>
    refine once (locked (Obeys.seq (of_act (.setQueue direction queue) trivial) fun _ => of_mask ?_))
    exact .ite (Interrupt.addWanted_only _) (Interrupt.removeWanted_only _)
  | enable bits => exact once (locked (of_mask (Interrupt.addWanted_only bits)))
  | disable bits => exact once (locked (of_mask (Interrupt.removeWanted_only bits)))
  | wanted => exact once (of_act .wanted trivial)
  | describe =>
    exact Obeys.seq (of_act .wanted trivial) fun _ => Obeys.seq (of_act .active trivial) fun _ => rfl
  | interrupt | deferred | enterWorking => simp at other

theorem release (a : Adapter) : (Task.release a).Obeys bookLaw (fun _ after => after = q) q := by
  have reset : (softReset a.permanent).Obeys bookLaw (fun _ after => after = q) q :=
    of_plain (softReset_only a.permanent) fun e inside => by
      cases e <;> first | exact inside.elim | trivial
  unfold Task.release Adapter.giveBack
  refine Obeys.seq (of_act .detach trivial) fun _ => Obeys.seq ?_ fun _ => rfl
  refine reset.seq fun result => Obeys.seq (of_act .unmap trivial) fun _ => ?_
  cases result <;> rfl

theorem uncounted {op : Operation} {task : Task}
    (kept : task.Obeys bookLaw (fun _ after => after = bookLaw.start op) (bookLaw.start op))
    (other : op ≠ .interrupt ∧ op ≠ .enterWorking) :
    task.Obeys bookLaw (Settled op) (bookLaw.start op) := by
  refine kept.reach fun round => ?_
  have nothing : Item.ofRound op round = [] := by
    cases round with
    | again => rfl
    | finished answer => cases op <;> first | rfl | simp at other
  unfold Settled
  rw [nothing]
  exact (by decide : Balanced [])

theorem task {m : Machine} {op : Operation} (admitted : windowLaw.Admits m (.operation op)) :
    (op.task m.station.target).Obeys bookLaw (Settled op) (bookLaw.start op) := by
  cases op with
  | prepare config resources =>
    rw [admitted.2]
    exact prepare config resources
  | release =>
    obtain ⟨_, a, present⟩ := admitted
    rw [present]
    exact uncounted (release a) (by simp)
  | interrupt =>
    obtain ⟨a, present⟩ := admitted
    rw [present]
    exact (obeys_once ..).mpr handle
  | deferred =>
    obtain ⟨a, present⟩ := admitted
    rw [present]
    exact deferred
  | enterWorking =>
    obtain ⟨a, present⟩ := admitted
    rw [present]
    exact enterWorking a
  | _ =>
    refine uncounted (service ?_ _ (by simp)) (by simp)
    trivial

theorem call_eq (depth : Nat) (history : History) :
    (bookLaw.state depth history).call = calls.state depth history :=
  Law.state_map Booking.call rfl (fun _ => rfl) (fun _ _ _ => rfl) depth history

theorem taken_eq (depth : Nat) (history : History) :
    (bookLaw.state depth history).taken = takes.state depth history :=
  Law.state_map Booking.taken rfl (fun _ => rfl) (fun _ _ _ => rfl) depth history

/-- Until its adapter is the device, a preparation has nothing but its window. -/
theorem deviceless_of_prepares {depth : Nat} {history : History}
    (prepares : (bookLaw.state depth history).Prepares)
    (unattached : (bookLaw.state depth history).attached = false) :
    windowLaw.state depth history = .searching ∨ windowLaw.state depth history = .holding ∨
      windowLaw.state depth history = .without := by
  refine @Law.state_related _ bookLaw _ windowLaw
    (fun q stage => q.Prepares → q.attached = false →
      stage = .searching ∨ stage = .holding ∨ stage = .without)
    (by rintro ⟨_, _, ⟨⟩⟩) ?_ ?_ depth history prepares unattached
  · rintro op ⟨_, _, same⟩ _
    cases same
    exact .inl rfl
  · intro q stage e answer known prepares unattached
    cases e with
    | attach => cases unattached
    | map =>
      rcases known prepares unattached with rfl | rfl | rfl <;> cases answer <;>
        simp [WindowStage.after]
    | _ => rcases known prepares unattached with rfl | rfl | rfl <;> simp [WindowStage.after]

end bookLaw

end EthernetMac
