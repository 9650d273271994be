import EthernetMac.Proofs.Interrupt.Lock

namespace EthernetMac

open Program

namespace Causes

def turns (c : Causes) : List Direction :=
  (if c.receive then [.receive] else []) ++ if c.transmit then [.transmit] else []

theorem mem_turns (c : Causes) (direction : Direction) :
    direction ∈ c.turns ↔ c.has direction = true := by
  obtain ⟨receive, transmit, _, _, _⟩ := c
  cases direction <;> cases receive <;> cases transmit <;> simp [turns, has]

theorem turns_eq_nil (c : Causes) : c.turns = [] ↔ c.queues.isEmpty = true := by
  obtain ⟨receive, transmit, _, _, _⟩ := c
  cases receive <;> cases transmit <;>
    simp [turns, queues, InterruptMask.isEmpty, InterruptMask.none]

end Causes

/-- The directions whose causes the call in progress at each depth was handed, until it takes the
lock. -/
def owes : Law (List Direction) where
  idle := []
  start _ := []
  permits _ _ := True
  after q e answer :=
    match e, answer with
    | .drain, word => (Causes.ofWord word).turns
    | .acquire, _ => []
    | _, _ => q

def takes : Law (Option Direction) where
  idle := none
  start _ := none
  permits _ _ := True
  after q e _ :=
    match e with
    | .takeQueue direction => some direction
    | _ => q

def places : Law Bool where
  idle := false
  start _ := false
  permits _ _ := True
  after q e _ :=
    match e with
    | .setQueue _ _ => true
    | _ => q

structure TurnState where
  call : Option Operation
  placed : Bool
  owed : List Direction
  left : Option (List Direction)
  due : Option (Direction × QueueHandle)

namespace TurnState

/-- Nothing but its notification comes after a handle was taken, and a worker takes the lock for what
it owes. -/
def Permits (q : TurnState) : Effect → Prop
  | .count _ => True
  | .notify queue => ∃ direction, q.due = some (direction, queue)
  | .takeQueue direction => q.due = none ∧ ∃ rest, q.left = some (direction :: rest)
  | .acquire => q.due = none ∧ q.left = none ∧ (q.call = some .deferred → q.owed ≠ [])
  | .release => q.due = none ∧ q.left = some []
  | .setQueue direction queue =>
    q.due = none ∧ q.call = some (.register direction queue) ∧ q.placed = false
  | .attach _ => False
  | _ => q.due = none

def after (q : TurnState) : (e : Effect) → e.Answer → TurnState
  | .drain, word => { q with owed := (Causes.ofWord word).turns }
  | .acquire, _ => { q with owed := [], left := some q.owed }
  | .takeQueue direction, answer =>
    { q with left := q.left.map List.tail, due := q.left.bind fun _ => answer.map (direction, ·) }
  | .notify _, _ => { q with due := none }
  | .release, _ => { q with left := none, due := none }
  | .setQueue _ _, _ => { q with placed := true }
  | _, _ => q

structure Ends (q : TurnState) : Prop where
  placed : ∀ direction queue, q.call = some (.register direction queue) → q.placed = true
  owed : q.owed = []
  left : q.left = none
  due : q.due = none

end TurnState

def turnLaw : Law TurnState where
  idle := ⟨none, false, [], none, none⟩
  start op := ⟨some op, false, [], none, none⟩
  permits := TurnState.Permits
  after := TurnState.after
  yields q := q.due = none
  ends := TurnState.Ends
  idle_yields := rfl

namespace turnLaw

@[simp] theorem idle_eq : turnLaw.idle = ⟨none, false, [], none, none⟩ := rfl

@[simp] theorem start_eq (op : Operation) : turnLaw.start op = ⟨some op, false, [], none, none⟩ := rfl

@[simp] theorem permits_eq : turnLaw.permits = TurnState.Permits := rfl

@[simp] theorem after_eq : turnLaw.after = TurnState.after := rfl

@[simp] theorem yields_eq (q : TurnState) : turnLaw.yields q ↔ q.due = none := .rfl

@[simp] theorem ends_eq : turnLaw.ends = TurnState.Ends := rfl

def Unrelated : Effect → Prop
  | .drain | .acquire | .takeQueue _ | .notify _ | .release | .setQueue _ _ | .attach _ => False
  | _ => True

theorem of_only {q : TurnState} (idle : q.due = none) {α : Type} {p : Program α}
    {allowed : Effect → Prop} (only : p.Only allowed) (unrelated : ∀ e, allowed e → Unrelated e) :
    p.Obeys turnLaw (fun _ after => after = q) q := by
  refine .of_only only (fun e inside => ?_) idle
  have unrelated := unrelated e inside
  cases e with
  | drain | acquire | takeQueue | notify | release | setQueue | attach => exact unrelated.elim
  | count => exact ⟨trivial, fun _ => rfl⟩
  | _ => exact ⟨idle, fun _ => rfl⟩

theorem of_mask {q : TurnState} (idle : q.due = none) {p : Program Unit} (only : p.Only maskActions) :
    p.Obeys turnLaw (fun _ after => after = q) q := by
  refine of_only idle only ?_
  intro e inside
  cases e <;> trivial

theorem locked {p : Program Unit} {call : Option Operation} {placed after : Bool}
    {owed : List Direction} (owes : call = some .deferred → owed ≠ [])
    (body : p.Obeys turnLaw (fun _ q => q = ⟨call, after, [], some [], none⟩)
      ⟨call, placed, [], some owed, none⟩) :
    (Program.locked p).Obeys turnLaw (fun _ q => q = ⟨call, after, [], none, none⟩)
      ⟨call, placed, owed, none, none⟩ := by
  rw [obeys_locked]
  refine ⟨⟨rfl, rfl, owes⟩, fun _ => ⟨by rintro ⟨⟩, ?_⟩⟩
  refine Obeys.reach (p := p) body fun _ => ?_
  exact ⟨⟨rfl, rfl⟩, fun _ => ⟨by rintro ⟨⟩, rfl⟩⟩

theorem edit {p : Program Unit} {op : Operation} {placed : Bool} (other : op ≠ .deferred)
    (only : p.Only maskActions) :
    (Program.locked p).Obeys turnLaw (fun _ q => q = ⟨some op, placed, [], none, none⟩)
      ⟨some op, placed, [], none, none⟩ :=
  locked (fun called => absurd (Option.some.inj called) other) (of_mask rfl only)

theorem register (direction : Direction) (queue : Option QueueHandle) :
    (Interrupt.register direction queue).Obeys turnLaw
      (fun _ q => q = ⟨some (.register direction queue), true, [], none, none⟩)
      ⟨some (.register direction queue), false, [], none, none⟩ := by
  refine locked nofun ⟨⟨rfl, rfl, rfl⟩, fun _ => ⟨nofun, of_mask rfl ?_⟩⟩
  exact .ite (Interrupt.addWanted_only _) (Interrupt.removeWanted_only _)

theorem notifyOnce {call : Option Operation} {placed : Bool} (direction : Direction)
    (rest : List Direction) :
    (Interrupt.notifyOnce direction).Obeys turnLaw
      (fun _ q => q = ⟨call, placed, [], some rest, none⟩)
      ⟨call, placed, [], some (direction :: rest), none⟩ := by
  refine ⟨⟨rfl, rest, rfl⟩, fun answer => ⟨by rintro ⟨⟩, ?_⟩⟩
  cases answer with
  | none => exact rfl
  | some queue =>
    exact ⟨trivial, fun _ => ⟨by rintro ⟨⟩, ⟨direction, rfl⟩, fun _ => ⟨fun _ => rfl, rfl⟩⟩⟩

theorem turn {call : Option Operation} {placed : Bool} (condition : Bool) (direction : Direction)
    (rest : List Direction) :
    (onlyIf condition (Interrupt.notifyOnce direction)).Obeys turnLaw
      (fun _ q => q = ⟨call, placed, [], some rest, none⟩)
      ⟨call, placed, [], some ((if condition then [direction] else []) ++ rest), none⟩ := by
  rw [obeys_onlyIf]
  constructor
  · intro yes
    rw [if_pos yes]
    exact notifyOnce direction rest
  · intro no
    simp [no]

theorem serveQueues {call : Option Operation} {placed : Bool} {causes : Causes}
    (wanting : causes.queues.isEmpty = false) :
    (Interrupt.serveQueues causes).Obeys turnLaw (fun _ q => q = ⟨call, placed, [], none, none⟩)
      ⟨call, placed, causes.turns, none, none⟩ := by
  have owes : causes.turns ≠ [] := by simp [Causes.turns_eq_nil, wanting]
  refine locked (fun _ => owes)
    (Obeys.seq (of_mask rfl (Interrupt.removeWanted_only _)) fun _ => ?_)
  refine (turn causes.receive .receive _).andThen fun _ => ?_
  rw [← List.append_nil (if causes.transmit then [Direction.transmit] else [])]
  exact turn causes.transmit .transmit []

theorem serve {call : Option Operation} {linkChange : Program Unit} (causes : Causes)
    (either : linkChange = act .linkChanged ∨ linkChange = discard refreshLink) :
    (Interrupt.serve linkChange causes).Obeys turnLaw
      (fun _ q => q = ⟨call, false, [], none, none⟩)
      ⟨call, false, causes.turns, none, none⟩ := by
  refine Interrupt.serve_obeys either (fun e inside => ?_) rfl ?_
  · cases e with
    | load | store | publishLink | linkChanged => exact ⟨rfl, fun _ => rfl⟩
    | count => exact ⟨trivial, fun _ => rfl⟩
    | _ => exact inside.elim
  · rw [obeys_onlyIf]
    constructor
    · intro wanting
      exact serveQueues (by simpa using wanting)
    · intro empty
      rw [(Causes.turns_eq_nil causes).mpr (by simpa using empty)]

theorem deferred {linkChange : Program Unit}
    (either : linkChange = act .linkChanged ∨ linkChange = discard refreshLink) :
    (Task.deferred linkChange).Obeys turnLaw (fun _ => TurnState.Ends)
      ⟨some .deferred, false, [], none, none⟩ := by
  have nothing : TurnState.Ends ⟨some .deferred, false, [], none, none⟩ := ⟨by rintro _ _ ⟨⟩, rfl, rfl, rfl⟩
  unfold Task.deferred Interrupt.work
  simp only [obeys_bind]
  refine ⟨rfl, fun word => ⟨by rintro ⟨⟩, ?_⟩⟩
  rw [obeys_done, obeys_ite]
  constructor
  · intro same
    subst same
    exact nothing
  · intro _
    exact (serve (.ofWord word) either).andThen fun _ => nothing

/-- A call other than a registration is over with nothing owed. -/
theorem ends_of_idle {op : Operation} {placed : Bool}
    (other : ∀ direction queue, op ≠ .register direction queue) :
    TurnState.Ends ⟨some op, placed, [], none, none⟩ where
  placed direction queue called := absurd (Option.some.inj called) (other direction queue)
  owed := rfl
  left := rfl
  due := rfl

theorem task {op : Operation} {target : Target} (inService : op.InService)
    (present : target ≠ .noDevice) :
    (op.task target).Obeys turnLaw (fun _ => turnLaw.ends) (turnLaw.start op) := by
  have once {α : Type} {p : Program α} {answer : α → Answer}
      (other : ∀ direction queue, op ≠ .register direction queue)
      (kept : p.Obeys turnLaw (fun _ q => q = ⟨some op, false, [], none, none⟩)
        ⟨some op, false, [], none, none⟩) :
      (Task.once p answer).Obeys turnLaw (fun _ => turnLaw.ends)
        ⟨some op, false, [], none, none⟩ :=
    kept.seq fun _ => ends_of_idle other
  by_cases coordinating : op.Coordinating
  · obtain ⟨linkChange, either, work⟩ := coordinating.task present
    generalize op.task target = task at work
    cases op with
    | register direction queue =>
      cases work
      refine (obeys_once ..).mpr ((register direction queue).reach fun _ => ?_)
      exact ⟨fun _ _ _ => rfl, rfl, rfl, rfl⟩
    | enable bits =>
      cases work
      exact once nofun (edit nofun (Interrupt.addWanted_only bits))
    | disable bits =>
      cases work
      exact once nofun (edit nofun (Interrupt.removeWanted_only bits))
    | interrupt =>
      cases work
      refine once nofun (of_only rfl Interrupt.handle_only fun e inside => ?_)
      cases e <;> trivial
    | deferred =>
      cases work
      exact deferred either
    | wanted =>
      cases work
      exact once nofun ⟨rfl, fun _ => ⟨nofun, rfl⟩⟩
    | _ => exact coordinating.elim
  · have other (direction : Direction) (queue : Option QueueHandle) :
        op ≠ .register direction queue := by
      intro same
      subst same
      exact coordinating trivial
    refine ((op.work inService target).beside coordinating (fun e inside => ?_) rfl ?_ ?_).reach
      fun _ => ends_of_idle other
    · cases e <;> first | exact inside.elim | exact ⟨rfl, fun _ => rfl⟩
    · exact fun enters => edit (by rw [enters]; nofun) (Interrupt.addWanted_only _)
    · exact fun leaves => edit (by rw [leaves]; nofun) (Interrupt.removeWanted_only _)

theorem call_eq (depth : Nat) (history : History) :
    (turnLaw.state depth history).call = calls.state depth history :=
  Law.state_map TurnState.call rfl (fun _ => rfl) (fun _ e _ => by cases e <;> rfl) depth history

theorem placed_eq (depth : Nat) (history : History) :
    (turnLaw.state depth history).placed = places.state depth history :=
  Law.state_map TurnState.placed rfl (fun _ => rfl) (fun _ e _ => by cases e <;> rfl) depth history

theorem owed_eq (depth : Nat) (history : History) :
    (turnLaw.state depth history).owed = owes.state depth history :=
  Law.state_map TurnState.owed rfl (fun _ => rfl) (fun _ e _ => by cases e <;> rfl) depth history

theorem owed_of_drains {depth : Nat} {history : History} {word : Word}
    (handed : drains.state depth history = some word)
    (owes : (turnLaw.state depth history).owed ≠ []) :
    (turnLaw.state depth history).owed = (Causes.ofWord word).turns := by
  have related : (turnLaw.state depth history).owed = [] ∨ ∃ word,
      drains.state depth history = some word ∧
        (turnLaw.state depth history).owed = (Causes.ofWord word).turns := by
    refine Law.state_related (fun (q : TurnState) (handed : Option Word) =>
      q.owed = [] ∨ ∃ word, handed = some word ∧ q.owed = (Causes.ofWord word).turns) (.inl rfl)
      (fun _ => .inl rfl) (fun q handed e answer kept => ?_) depth history
    cases e with
    | drain => exact .inr ⟨answer, rfl, rfl⟩
    | acquire => exact .inl rfl
    | _ => exact kept
  rcases related with none | ⟨same, alike, owed⟩
  · exact absurd none owes
  · rw [handed] at alike
    cases alike
    exact owed

theorem takes_of_due {depth : Nat} {history : History} :
    ∀ {direction queue}, (turnLaw.state depth history).due = some (direction, queue) →
      takes.state depth history = some direction := by
  refine Law.state_related (fun (q : TurnState) (taken : Option Direction) =>
    ∀ {direction queue}, q.due = some (direction, queue) → taken = some direction) (by simp)
    (by simp) (fun q taken e answer kept direction queue due => ?_) depth history
  cases e with
  | takeQueue taken =>
    obtain ⟨_, _, pair⟩ := Option.bind_eq_some_iff.mp due
    obtain ⟨_, _, same⟩ := Option.map_eq_some_iff.mp pair
    cases same
    rfl
  | notify | release => cases due
  | _ => exact kept due

/-- Who has something left to serve, or a handle in hand, holds the lock. -/
theorem holding_of_busy {depth : Nat} {history : History} :
    (turnLaw.state depth history).left ≠ none ∨ (turnLaw.state depth history).due ≠ none →
      Holding history depth := by
  change _ → (lockLaw.state depth history).holds = true
  refine Law.state_related (fun (q : TurnState) (r : LockUse) =>
    q.left ≠ none ∨ q.due ≠ none → r.holds = true) (by simp) (by simp)
    (fun q r e answer kept busy => ?_) depth history
  cases e with
  | acquire => rfl
  | release => simp [TurnState.after] at busy
  | takeQueue direction =>
    refine kept (.inl fun outside => ?_)
    simp [TurnState.after, outside] at busy
  | notify queue =>
    refine kept (.inl fun outside => ?_)
    simp [TurnState.after, outside] at busy
  | _ => exact kept busy

end turnLaw

end EthernetMac
