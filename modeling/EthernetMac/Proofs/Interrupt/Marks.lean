import EthernetMac.Proofs.Interrupt.Turns

namespace EthernetMac

inductive Mark where
  | registered (queue : QueueHandle)
  | cleared
  | notified (queue : QueueHandle)
  deriving DecidableEq

def Mark.ofQueue : Option QueueHandle → Mark
  | some queue => .registered queue
  | none => .cleared

def marks (direction : Direction) : History → List Mark
  | [] => []
  | .acted _ _ (.setQueue d queue) _ :: earlier =>
    if d = direction then .ofQueue queue :: marks direction earlier else marks direction earlier
  | .acted depth _ (.notify queue) _ :: earlier =>
    if takes.state depth earlier = some direction then
      .notified queue :: marks direction earlier
    else marks direction earlier
  | _ :: earlier => marks direction earlier

/-- The registration that was neither replaced nor cleared nor notified since. -/
def standing : List Mark → Option QueueHandle
  | .registered queue :: _ => some queue
  | _ => none

theorem standing_ofQueue (queue : Option QueueHandle) (earlier : List Mark) :
    standing (.ofQueue queue :: earlier) = queue := by
  cases queue <;> rfl

def OneShot : List Mark → Prop
  | [] => True
  | .notified queue :: earlier => standing earlier = some queue ∧ OneShot earlier
  | _ :: earlier => OneShot earlier

theorem OneShot.registered {later earlier : List Mark} {queue : QueueHandle}
    (shots : OneShot (later ++ .notified queue :: earlier)) :
    ∃ older, earlier = .registered queue :: older := by
  induction later with
  | nil =>
    obtain ⟨stands, _⟩ := shots
    cases earlier with
    | nil => cases stands
    | cons mark older =>
      cases mark with
      | registered other =>
        cases stands
        exact ⟨older, rfl⟩
      | _ => cases stands
  | cons mark later ih =>
    cases mark with
    | notified other => exact ih shots.2
    | _ => exact ih shots

/-- With a handle in hand nothing can fail. -/
theorem TurnState.due_of_error {q : TurnState} {s : Station} {e : Effect} {cause : Fault}
    (permitted : q.Permits e) (applied : s.apply e = .error cause) : q.due = none := by
  cases e with
  | count | notify => simp [Station.apply] at applied
  | takeQueue | acquire | release | setQueue => exact permitted.1
  | attach => exact permitted.elim
  | _ => exact permitted

abbrev dueAt (depth : Nat) (history : History) : Option (Direction × QueueHandle) :=
  (turnLaw.state depth history).due

/-- A registration that stands is in its place, or in the hands of the worker that notifies it
next. -/
structure Noticed (history : History) (s : Station) : Prop where
  stands : ∀ direction queue, standing (marks direction history) = some queue ↔
    s.interrupt.queue direction = some queue ∨ ∃ depth, dueAt depth history = some (direction, queue)
  taken : ∀ depth direction queue, dueAt depth history = some (direction, queue) →
    s.interrupt.queue direction = none
  once : ∀ direction, OneShot (marks direction history)

namespace Noticed

variable {history : History} {s after : Station} {entry : Entry}

theorem onward (noticed : Noticed history s)
    (silent : ∀ direction, marks direction (entry :: history) = marks direction history)
    (dues : ∀ depth, dueAt depth (entry :: history) = dueAt depth history)
    (queues : after.interrupt.queue = s.interrupt.queue) : Noticed (entry :: history) after := by
  constructor
  · intro direction queue
    rw [silent, queues]
    simpa only [dues] using noticed.stands direction queue
  · intro depth direction queue due
    rw [queues]
    exact noticed.taken depth direction queue (dues depth ▸ due)
  · intro direction
    rw [silent]
    exact noticed.once direction

variable {n : Nat} {op : Operation} {e : Effect} {answer : e.Answer}

theorem holding_of_due {depth : Nat} {pair : Direction × QueueHandle}
    (due : dueAt depth history = some pair) : Holding history depth :=
  turnLaw.holding_of_busy (.inr (Option.ne_none_iff_exists'.mpr ⟨pair, due⟩))

theorem none_due {lock : Borrow} (single : SingleHolder lock history) (holds : Holding history n)
    (idle : dueAt n history = none) (depth : Nat) : dueAt depth history = none := by
  cases busy : dueAt depth history with
  | none => rfl
  | some pair =>
    rw [single.holder_unique holds (holding_of_due busy), idle] at busy
    cases busy

theorem due_acted (depth : Nat) :
    dueAt depth (.acted n op e answer :: history) =
      if n = depth then ((turnLaw.state n history).after e answer).due else dueAt depth history := by
  unfold dueAt
  rw [Law.state_acted]
  split
  · rename_i here
    rw [here]
    rfl
  · rfl

theorem due_kept (permitted : (turnLaw.state n history).Permits e)
    (takes : ∀ direction, e ≠ .takeQueue direction) (notifies : ∀ queue, e ≠ .notify queue)
    (depth : Nat) : dueAt depth (.acted n op e answer :: history) = dueAt depth history := by
  rw [due_acted]
  split
  · rename_i here
    subst here
    cases e with
    | takeQueue direction => exact absurd rfl (takes direction)
    | notify queue => exact absurd rfl (notifies queue)
    | release => exact permitted.1.symm
    | _ => rfl
  · rfl

theorem setQueue {direction : Direction} {queue : Option QueueHandle} {answer : Unit}
    (noticed : Noticed history s) (single : SingleHolder s.interrupt.lock history)
    (holds : Holding history n)
    (permitted : (turnLaw.state n history).Permits (.setQueue direction queue))
    (applied : s.apply (.setQueue direction queue) = .ok (answer, after)) :
    Noticed (.acted n op (.setQueue direction queue) answer :: history) after := by
  have none := none_due single holds permitted.1
  have dues (depth : Nat) : dueAt depth (.acted n op (.setQueue direction queue) answer :: history) =
      dueAt depth history :=
    due_kept permitted nofun nofun depth
  have queues (d : Direction) : after.interrupt.queue d =
      if d = direction then queue else s.interrupt.queue d := by
    rw [Station.apply_interrupt applied]
    rfl
  have marked (d : Direction) :
      marks d (.acted n op (.setQueue direction queue) answer :: history) =
        if direction = d then .ofQueue queue :: marks d history else marks d history := rfl
  constructor
  · intro d handle
    rw [marked, queues]
    simp only [dues, none]
    by_cases same : direction = d
    · subst same
      simp [standing_ofQueue]
    · have kept := noticed.stands d handle
      simp only [none] at kept
      simpa [same, Ne.symm same] using kept
  · intro depth d handle due
    rw [dues, none] at due
    cases due
  · intro d
    rw [marked]
    split
    · cases queue <;> exact noticed.once d
    · exact noticed.once d

theorem takeQueue {direction : Direction} {answer : Option QueueHandle}
    (noticed : Noticed history s) (single : SingleHolder s.interrupt.lock history)
    (holds : Holding history n)
    (permitted : (turnLaw.state n history).Permits (.takeQueue direction))
    (applied : s.apply (.takeQueue direction) = .ok (answer, after)) :
    Noticed (.acted n op (.takeQueue direction) answer :: history) after := by
  have none := none_due single holds permitted.1
  have found : answer = s.interrupt.queue direction := Station.apply_reads applied
  have dues (depth : Nat) : dueAt depth (.acted n op (.takeQueue direction) answer :: history) =
      if n = depth then answer.map (direction, ·) else .none := by
    obtain ⟨_, rest, left⟩ := permitted
    rw [due_acted, none]
    simp [TurnState.after, left]
  have queues (d : Direction) : after.interrupt.queue d =
      if d = direction then .none else s.interrupt.queue d := by
    rw [Station.apply_interrupt applied]
    rfl
  constructor
  · intro d handle
    have kept := noticed.stands d handle
    simp only [none] at kept
    change standing (marks d history) = _ ↔ _
    rw [kept, queues]
    constructor
    · intro placed
      by_cases same : d = direction
      · subst same
        obtain in_place | ⟨_, ⟨⟩⟩ := placed
        exact .inr ⟨n, by rw [dues, if_pos rfl, found, in_place]; rfl⟩
      · rw [if_neg same]
        exact placed.imp_right (by rintro ⟨_, ⟨⟩⟩)
    · rintro (in_place | ⟨depth, due⟩)
      · split at in_place
        · cases in_place
        · exact .inl in_place
      · rw [dues] at due
        split at due
        · obtain ⟨queue, taken, pair⟩ := Option.map_eq_some_iff.mp due
          cases pair
          exact .inl (found ▸ taken)
        · cases due
  · intro depth d handle due
    rw [dues] at due
    split at due
    · obtain ⟨queue, _, pair⟩ := Option.map_eq_some_iff.mp due
      cases pair
      rw [queues, if_pos rfl]
    · cases due
  · exact noticed.once

theorem notify {queue : QueueHandle} {answer : Unit} (noticed : Noticed history s)
    (single : SingleHolder s.interrupt.lock history)
    (permitted : (turnLaw.state n history).Permits (.notify queue))
    (applied : s.apply (.notify queue) = .ok (answer, after)) :
    Noticed (.acted n op (.notify queue) answer :: history) after := by
  obtain ⟨direction, due⟩ := permitted
  have sole (depth : Nat) {pair : Direction × QueueHandle}
      (busy : dueAt depth history = some pair) : depth = n ∧ pair = (direction, queue) := by
    obtain rfl := single.holder_unique (holding_of_due due) (holding_of_due busy)
    rw [dueAt, due] at busy
    cases busy
    exact ⟨rfl, rfl⟩
  have dues (depth : Nat) : dueAt depth (.acted n op (.notify queue) answer :: history) = none := by
    rw [due_acted]
    split
    · rfl
    · rename_i other
      cases busy : dueAt depth history with
      | none => rfl
      | some pair => exact absurd (sole depth busy).1.symm other
  have marked (d : Direction) : marks d (.acted n op (.notify queue) answer :: history) =
      if direction = d then .notified queue :: marks d history else marks d history := by
    simp [marks, turnLaw.takes_of_due due]
  have queues : after.interrupt.queue = s.interrupt.queue := by
    rw [Station.apply_interrupt applied]
    rfl
  constructor
  · intro d handle
    rw [marked, queues]
    simp only [dues]
    by_cases same : direction = d
    · subst same
      simp [standing, noticed.taken n direction queue due]
    · rw [if_neg same, noticed.stands d handle]
      constructor
      · rintro (in_place | ⟨depth, busy⟩)
        · exact .inl in_place
        · cases (sole depth busy).2
          exact absurd rfl same
      · exact fun placed => placed.imp_right fun ⟨_, busy⟩ => nomatch busy
  · intro depth d handle busy
    rw [dues] at busy
    cases busy
  · intro d
    rw [marked]
    split
    · rename_i same
      subst same
      exact ⟨(noticed.stands direction queue).mpr (.inr ⟨n, due⟩), noticed.once direction⟩
    · exact noticed.once d

theorem act (noticed : Noticed history s) (single : SingleHolder s.interrupt.lock history)
    (permitted : (turnLaw.state n history).Permits e)
    (guarded : (lockLaw.state n history).Permits e)
    (applied : s.apply e = .ok (answer, after)) :
    Noticed (.acted n op e answer :: history) after := by
  cases e with
  | setQueue direction queue => exact noticed.setQueue single guarded permitted applied
  | takeQueue direction => exact noticed.takeQueue single guarded permitted applied
  | notify queue => exact noticed.notify single permitted applied
  | attach => exact permitted.elim
  | _ =>
    refine noticed.onward (fun _ => rfl) (due_kept permitted nofun nofun) ?_
    rw [Station.apply_interrupt applied]
    rfl

end Noticed

end EthernetMac
