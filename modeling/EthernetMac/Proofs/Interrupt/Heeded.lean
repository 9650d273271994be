import EthernetMac.Proofs.Interrupt.Served

namespace EthernetMac

open Program

def heeded : Word := linkCause ||| ChannelStatus.receive.mask ||| ChannelStatus.transmit.mask

theorem or_heeded (one other : Word) :
    (one ||| other) &&& heeded = one &&& heeded ||| other &&& heeded := by
  refine BitVec.eq_of_getLsbD_eq fun i _ => ?_
  simp only [BitVec.getLsbD_and, BitVec.getLsbD_or]
  cases one.getLsbD i <;> cases other.getLsbD i <;> cases heeded.getLsbD i <;> rfl

theorem and_heeded_heeded (word : Word) : word &&& heeded &&& heeded = word &&& heeded := by
  rw [BitVec.and_assoc, BitVec.and_self]

def Causes.quiet (c : Causes) : Causes := { c with abnormal := false, fatal := false }

theorem Causes.ofWord_heeded (word : Word) : ofWord (word &&& heeded) = (ofWord word).quiet := by
  have inside : heeded.getLsbD 0 = true ∧ heeded.getLsbD 6 = true ∧ heeded.getLsbD 31 = true := by
    decide
  have outside : heeded.getLsbD 14 = false ∧ heeded.getLsbD 12 = false := by decide
  have receive := has_eq (word &&& heeded) .receive
  have transmit := has_eq (word &&& heeded) .transmit
  have link := link_eq (word &&& heeded)
  rw [BitVec.getLsbD_and] at receive transmit link
  rw [inside.2.1, Bool.and_true, ← has_eq word .receive] at receive
  rw [inside.1, Bool.and_true, ← has_eq word .transmit] at transmit
  rw [inside.2.2, Bool.and_true, ← link_eq] at link
  have abnormal : (ofWord (word &&& heeded)).abnormal = false := by
    change ((word &&& heeded) &&& ~~~linkCause).getLsbD 14 = false
    rw [BitVec.getLsbD_and, BitVec.getLsbD_and, outside.1, Bool.and_false, Bool.false_and]
  have fatal : (ofWord (word &&& heeded)).fatal = false := by
    change ((word &&& heeded) &&& ~~~linkCause).getLsbD 12 = false
    rw [BitVec.getLsbD_and, BitVec.getLsbD_and, outside.2, Bool.and_false, Bool.false_and]
  exact Causes.mk.injEq .. |>.mpr ⟨receive, transmit, abnormal, fatal, link⟩

def Counter.Heeded : Counter → Prop
  | linkChange | receive | transmit => True
  | handled | ignored | abnormal | fatal => False

instance : DecidablePred Counter.Heeded
  | .linkChange | .receive | .transmit => .isTrue trivial
  | .handled | .ignored | .abnormal | .fatal => .isFalse id

namespace Effect

def Heeded : Effect → Prop
  | .count counter => counter.Heeded
  | .linkChanged => True
  | e => sectionActions e

def Ignored : Effect → Prop
  | .load _ | .merge _ | .schedule | .drain => True
  | .store offset _ => offset = Register.channelStatus
  | .count counter => ¬ counter.Heeded
  | _ => False

end Effect

def RegisterFile.heed (f : RegisterFile) : RegisterFile :=
  f.set Register.channelStatus (f.cell Register.channelStatus &&& heeded)

def Counters.heed (counters : Counters) : Counters :=
  fun counter => if counter.Heeded then counters counter else 0

/-- What is left of a station without the bits that are ignored, what was counted of them, and the
trace. -/
def Station.heed (s : Station) : Station :=
  { s with
    registers := s.registers.heed
    interrupt :=
      { s.interrupt with
        pending := ⟨s.interrupt.pending.word &&& heeded⟩
        counters := s.interrupt.counters.heed }
    trace := [] }

structure Heeds (s t : Station) : Prop where
  same : t.heed = s.heed
  channel : t.registers.cell Register.channelStatus &&& heeded =
    t.registers.cell Register.channelStatus
  pending : t.interrupt.pending.word &&& heeded = t.interrupt.pending.word

namespace RegisterFile

variable {f : RegisterFile}

theorem heed_cell_of_ne {offset : Nat} (apart : offset ≠ Register.channelStatus) :
    f.heed.cell offset = f.cell offset :=
  cell_set_of_ne _ _ apart

theorem heed_set {offset : Nat} (apart : offset ≠ Register.channelStatus) (value : Word) :
    (f.set offset value).heed = f.heed.set offset value := by
  unfold heed
  rw [cell_set_of_ne _ _ apart.symm, set_set_of_ne _ apart]

theorem set_set_self (f : RegisterFile) (offset : Nat) (value word : Word) :
    (f.set offset value).set offset word = f.set offset word := by
  unfold set
  congr 1
  funext other
  by_cases same : other = offset <;> simp [same]

theorem heed_acknowledged : f.heed.acknowledged = f.acknowledged := by
  have apart : Register.macInterruptStatus ≠ Register.channelStatus := by decide
  unfold heed acknowledged acknowledgeLink
  rw [cell_set_of_ne _ _ apart, set_set_of_ne _ apart.symm, set_set_self]

theorem heed_raiseChannel (bits : Word) : (f.raiseChannel bits).heed =
    f.heed.set Register.channelStatus (f.heed.cell Register.channelStatus ||| bits &&& heeded) := by
  unfold heed raiseChannel
  rw [cell_set_self, cell_set_self, set_set_self, set_set_self, or_heeded]

theorem heed_raiseLink : f.raiseLink.heed = f.heed.raiseLink := by
  have apart : Register.macInterruptStatus ≠ Register.channelStatus := by decide
  unfold raiseLink
  rw [heed_set apart, heed_cell_of_ne apart]

end RegisterFile

namespace Counters

theorem heed_heed (counters : Counters) : counters.heed.heed = counters.heed := by
  funext counter
  unfold heed
  by_cases counts : counter.Heeded <;> simp only [counts, if_true, if_false]

theorem heed_bump {counter : Counter} (counts : counter.Heeded) (counters : Counters) :
    (counters.bump counter).heed = counters.heed.bump counter := by
  funext other
  unfold heed bump
  by_cases same : other = counter
  · simp only [same, if_pos counts, if_true]
  · simp only [if_neg same]

theorem heed_bump_of_not {counter : Counter} (ignored : ¬ counter.Heeded) (counters : Counters) :
    (counters.bump counter).heed = counters.heed := by
  funext other
  unfold heed bump
  by_cases same : other = counter
  · simp only [same, if_neg ignored]
  · simp only [if_neg same]

end Counters

namespace Station

variable {s t after : Station} {e : Effect}

theorem apply_heed (device : s.registers.backing = .device) (acts : e.Heeded) :
    s.heed.apply e = (s.apply e).map fun reply => (reply.1, reply.2.heed) := by
  have device' : s.heed.registers.backing = .device := device
  cases e with
  | store offset value =>
    have apart : offset ≠ Register.channelStatus := by rcases acts with rfl | rfl <;> decide
    have aside : s.heed.registers.set offset value = (s.registers.set offset value).heed :=
      (RegisterFile.heed_set apart value).symm
    simp only [apply, RegisterFile.write?, device, device', if_neg apart, aside]
    rfl
  | acquire =>
    simp only [apply, show s.heed.interrupt.lock = s.interrupt.lock from rfl]
    cases s.interrupt.lock.write? <;> rfl
  | wanted =>
    simp only [apply, show s.heed.interrupt.lock = s.interrupt.lock from rfl]
    cases s.interrupt.lock.read? <;> rfl
  | count counter =>
    have bumped := Counters.heed_bump acts s.interrupt.counters
    simp only [apply, Except.map, mapInterrupt, heed, bumped]
  | release | mask | setMask | setQueue | takeQueue | notify | linkChanged => rfl
  | _ => exact acts.elim

theorem heed_causes (s : Station) : s.heed.causes &&& heeded = s.causes &&& heeded := by
  have link : s.heed.registers.cell Register.macInterruptStatus =
      s.registers.cell Register.macInterruptStatus :=
    RegisterFile.heed_cell_of_ne (by decide)
  have channel : s.heed.registers.cell Register.channelStatus =
      s.registers.cell Register.channelStatus &&& heeded :=
    RegisterFile.cell_set_self _ _ _
  unfold causes
  rw [link, channel, or_heeded, and_heeded_heeded, ← or_heeded]

theorem heeds_heed (s : Station) : Heeds s s.heed := by
  have channel : s.registers.heed.cell Register.channelStatus =
      s.registers.cell Register.channelStatus &&& heeded :=
    RegisterFile.cell_set_self _ _ _
  have registers : s.registers.heed.heed = s.registers.heed := by
    unfold RegisterFile.heed
    rw [RegisterFile.cell_set_self, RegisterFile.set_set_self, and_heeded_heeded]
  have counters : s.interrupt.counters.heed.heed = s.interrupt.counters.heed :=
    Counters.heed_heed s.interrupt.counters
  refine ⟨?_, ?_, and_heeded_heeded _⟩
  · unfold heed
    rw [registers, counters, and_heeded_heeded]
  · change s.registers.heed.cell Register.channelStatus &&& heeded =
      s.registers.heed.cell Register.channelStatus
    rw [channel, and_heeded_heeded]

theorem heed_handled (s : Station) : s.heed.handled.heed = s.handled.heed := by
  have registers : s.heed.registers.acknowledged = s.registers.acknowledged :=
    RegisterFile.heed_acknowledged
  have pending : (s.heed.interrupt.pending.merge s.heed.causes).word &&& heeded =
      (s.interrupt.pending.merge s.causes).word &&& heeded := by
    change (s.interrupt.pending.word &&& heeded ||| s.heed.causes) &&& heeded =
      (s.interrupt.pending.word ||| s.causes) &&& heeded
    rw [or_heeded, and_heeded_heeded, heed_causes, ← or_heeded]
  have counted (raised : Bool) (counters : Counters) :
      (counters.bump (if raised then .handled else .ignored)).heed = counters.heed := by
    cases raised
    · exact Counters.heed_bump_of_not (by decide) counters
    · exact Counters.heed_bump_of_not (by decide) counters
  have before : s.heed.interrupt.counters.heed = s.interrupt.counters.heed :=
    Counters.heed_heed s.interrupt.counters
  unfold handled
  rw [registers]
  unfold heed at *
  dsimp only at *
  rw [pending, counted, counted, before]

end Station

theorem Effect.Heeded.spares {s after : Station} {e : Effect} {answer : e.Answer} (acts : e.Heeded)
    (applied : s.apply e = .ok (answer, after)) :
    after.registers.cell Register.channelStatus = s.registers.cell Register.channelStatus ∧
      after.interrupt.pending = s.interrupt.pending := by
  constructor
  · cases e with
    | store offset value =>
      exact Station.store_cell applied (by rcases acts with rfl | rfl <;> decide)
    | load => exact acts.elim
    | _ =>
      rw [Station.apply_registers applied]
      rfl
  · rw [Station.apply_interrupt applied]
    cases e <;> first | rfl | exact acts.elim

namespace Heeds

variable {s t after : Station} {e : Effect} {answer : e.Answer}

theorem backing (heeds : Heeds s t) : t.registers.backing = s.registers.backing :=
  congrArg (·.registers.backing) heeds.same

theorem target (heeds : Heeds s t) : t.target = s.target := by
  have same := congrArg Station.target heeds.same
  exact same

theorem retrace (heeds : Heeds s t) (one other : List Event) :
    Heeds { s with trace := one } { t with trace := other } :=
  ⟨heeds.same, heeds.channel, heeds.pending⟩

theorem word_eq (heeds : Heeds s t) :
    t.interrupt.pending.word = s.interrupt.pending.word &&& heeded := by
  have same := congrArg (·.interrupt.pending.word) heeds.same
  exact heeds.pending.symm.trans same

theorem apply_ok (heeds : Heeds s t) (device : s.registers.backing = .device) (acts : e.Heeded)
    (applied : s.apply e = .ok (answer, after)) :
    ∃ next, t.apply e = .ok (answer, next) ∧ Heeds after next := by
  have one := Station.apply_heed device acts
  have other := Station.apply_heed (heeds.backing.trans device) acts
  rw [heeds.same, one, applied] at other
  cases alike : t.apply e with
  | error cause =>
    rw [alike] at other
    cases other
  | ok reply =>
    rw [alike] at other
    obtain ⟨answers, stations⟩ := Prod.mk.inj (Except.ok.inj other)
    obtain ⟨channel, waiting⟩ := acts.spares alike
    change answer = reply.1 at answers
    rw [answers]
    refine ⟨reply.2, rfl, stations.symm, ?_, ?_⟩
    · rw [channel]
      exact heeds.channel
    · rw [waiting]
      exact heeds.pending

theorem apply_error (heeds : Heeds s t) (device : s.registers.backing = .device) (acts : e.Heeded)
    {cause : Fault} (applied : s.apply e = .error cause) : t.apply e = .error cause := by
  have one := Station.apply_heed device acts
  have other := Station.apply_heed (heeds.backing.trans device) acts
  rw [heeds.same, one, applied] at other
  cases alike : t.apply e with
  | error =>
    rw [alike] at other
    cases other
    rfl
  | ok =>
    rw [alike] at other
    cases other

theorem handled (heeds : Heeds s t) : Heeds s.handled t.handled := by
  refine ⟨?_, ?_, ?_⟩
  · rw [← Station.heed_handled t, heeds.same, Station.heed_handled s]
  · have clear : t.handled.registers.cell Register.channelStatus = 0 :=
      RegisterFile.cell_set_self _ _ _
    rw [clear]
    decide
  · have link (on : Bool) : (if on then linkCause else 0) &&& heeded = if on then linkCause else 0 := by
      cases on <;> decide
    change (t.interrupt.pending.word ||| t.causes) &&& heeded = t.interrupt.pending.word ||| t.causes
    unfold Station.causes
    rw [or_heeded, or_heeded, heeds.pending, heeds.channel, link]

theorem drained (heeds : Heeds s t) :
    Heeds (s.mapInterrupt ({ · with pending := .empty }))
      (t.mapInterrupt ({ · with pending := .empty })) := by
  refine ⟨?_, heeds.channel, ?_⟩
  · exact congrArg (·.mapInterrupt ({ · with pending := ⟨Pending.empty.word &&& heeded⟩ })) heeds.same
  · change Pending.empty.word &&& heeded = Pending.empty.word
    decide

theorem same_with (heeds : Heeds s t) {f g : RegisterFile} (alike : g.heed = f.heed) :
    ({ t with registers := g } : Station).heed = ({ s with registers := f } : Station).heed := by
  change ({ t.heed with registers := g.heed } : Station) = { s.heed with registers := f.heed }
  rw [heeds.same, alike]

theorem raiseChannel (heeds : Heeds s t) (bits : Word) :
    Heeds (s.meet (.raiseChannel bits)) (t.meet (.raiseChannel (bits &&& heeded))) := by
  have same : t.registers.heed = s.registers.heed := congrArg Station.registers heeds.same
  have registers : (t.registers.raiseChannel (bits &&& heeded)).heed =
      (s.registers.raiseChannel bits).heed := by
    rw [RegisterFile.heed_raiseChannel, RegisterFile.heed_raiseChannel, same, and_heeded_heeded]
  refine ⟨?_, ?_, heeds.pending⟩
  · exact heeds.same_with registers
  · have raised : (t.registers.raiseChannel (bits &&& heeded)).cell Register.channelStatus =
        t.registers.cell Register.channelStatus ||| bits &&& heeded :=
      RegisterFile.cell_set_self _ _ _
    change (t.registers.raiseChannel (bits &&& heeded)).cell Register.channelStatus &&& heeded =
      (t.registers.raiseChannel (bits &&& heeded)).cell Register.channelStatus
    rw [raised, or_heeded, heeds.channel, and_heeded_heeded]

theorem raiseLink (heeds : Heeds s t) : Heeds (s.meet .raiseLink) (t.meet .raiseLink) := by
  have same : t.registers.heed = s.registers.heed := congrArg Station.registers heeds.same
  have registers : t.registers.raiseLink.heed = s.registers.raiseLink.heed := by
    rw [RegisterFile.heed_raiseLink, RegisterFile.heed_raiseLink, same]
  refine ⟨?_, ?_, heeds.pending⟩
  · exact heeds.same_with registers
  · have kept : t.registers.raiseLink.cell Register.channelStatus =
        t.registers.cell Register.channelStatus :=
      RegisterFile.cell_set_of_ne _ _ (by decide)
    change t.registers.raiseLink.cell Register.channelStatus &&& heeded =
      t.registers.raiseLink.cell Register.channelStatus
    rw [kept]
    exact heeds.channel

theorem unlocked (heeds : Heeds s t) : Heeds s.unlocked t.unlocked :=
  ⟨congrArg Station.unlocked heeds.same, heeds.channel, heeds.pending⟩

theorem counted (heeds : Heeds s t) {counter : Counter} (ignored : ¬ counter.Heeded) :
    Heeds (s.mapInterrupt fun i => { i with counters := i.counters.bump counter }) t := by
  refine ⟨heeds.same.trans ?_, heeds.channel, heeds.pending⟩
  have kept := Counters.heed_bump_of_not ignored s.interrupt.counters
  unfold Station.heed Station.mapInterrupt
  rw [kept]

end Heeds

namespace Interrupt

theorem handle_ignored : handle.Only Effect.Ignored := by
  unfold handle
  refine (Only.act trivial).bind fun mac => (Only.act trivial).bind fun channel => ?_
  refine Only.ite ((Only.act (e := .count .ignored) id).bind fun _ => .pure _) ?_
  refine (Only.onlyIf ((Only.act trivial).bind fun _ => .pure ())).bind fun _ => ?_
  refine Only.bind (.onlyIf ?_) fun _ => (Only.act trivial).bind fun _ => ?_
  · exact .store rfl
  · exact (Only.act trivial).bind fun _ => (Only.act (e := .count .handled) id).bind fun _ => .pure _

theorem heeded_of_mask (e : Effect) (mask : maskActions e) : e.Heeded := by
  cases e <;> first | exact mask | exact mask.elim

theorem locked_heeded {p : Program Unit} (body : p.Only Effect.Heeded) :
    (locked p).Only Effect.Heeded :=
  (Only.act trivial).bind fun _ => body.bind fun _ => (Only.act trivial).bind fun _ => .pure ()

theorem notifyOnce_heeded (direction : Direction) : (notifyOnce direction).Only Effect.Heeded := by
  have counts : direction.counter.Heeded := by cases direction <;> trivial
  refine (Only.act trivial).bind fun answer => ?_
  cases answer with
  | none => exact .pure ()
  | some queue => exact (Only.act counts).bind fun _ => Only.act trivial

def round (c : Causes) : Task := do
  serve (act .linkChanged) c
  return .again

def onward (word : Word) : Task := if word = 0 then return .finished .ok else round (.ofWord word)

def counted (c : Causes) : List Counter :=
  (if c.abnormal then [.abnormal] else []) ++ if c.fatal then [.fatal] else []

def count : List Counter → Program Unit
  | [] => .done ()
  | counter :: rest => do
    act (.count counter)
    count rest

/-- A round counts first, and then acts upon the other causes. -/
theorem round_eq (c : Causes) : round c = (count (counted c) >>= fun _ => round c.quiet) := by
  obtain ⟨receive, transmit, abnormal, fatal, link⟩ := c
  cases abnormal <;> cases fatal <;> rfl

theorem counted_ignored (c : Causes) : ∀ counter ∈ counted c, ¬ counter.Heeded := by
  have alone (found : Bool) {counter : Counter} (ignored : ¬ counter.Heeded) :
      ∀ other ∈ if found then [counter] else [], ¬ other.Heeded := by
    cases found
    · exact List.forall_mem_nil _
    · exact List.forall_mem_singleton.mpr ignored
  intro counter member
  rcases List.mem_append.mp member with abnormal | fatal
  · exact alone _ (by decide) counter abnormal
  · exact alone _ (by decide) counter fatal

theorem round_quiet_heeded (c : Causes) : (round c.quiet).Only Effect.Heeded := by
  have queues : (serveQueues c).Only Effect.Heeded := by
    refine locked_heeded (((removeWanted_only _).mono heeded_of_mask).bind fun _ => ?_)
    exact (notifyOnce_heeded _).onlyIf.bind fun _ => (notifyOnce_heeded _).onlyIf
  have link : (onlyIf c.link (do act (.count .linkChange); act .linkChanged)).Only Effect.Heeded :=
    .onlyIf ((Only.act (e := .count .linkChange) trivial).bind fun _ => Only.act trivial)
  have served : (serve (act .linkChanged) c.quiet).Only Effect.Heeded :=
    link.bind fun _ => queues.onlyIf
  exact served.bind fun _ => .pure _

theorem round_idle {word : Word} (none : word &&& heeded = 0) :
    round (Causes.ofWord word).quiet = return .again := by
  rw [← Causes.ofWord_heeded, none]
  rfl

/-- What there is to act upon is acted upon whether or not ignored bits come with it. -/
theorem onward_heeded {word : Word} (some : word &&& heeded ≠ 0) :
    onward (word &&& heeded) = round (Causes.ofWord word).quiet := by
  unfold onward
  rw [if_neg some, Causes.ofWord_heeded]

end Interrupt

theorem Operation.deferred_task :
    Operation.deferred.task .interrupts = .perform .drain Interrupt.onward := by
  change Task.deferred (act .linkChanged) = (act .drain >>= Interrupt.onward)
  unfold Task.deferred Interrupt.work
  rw [LawfulMonad.bind_assoc]
  refine congrArg (act .drain >>= ·) ?_
  funext word
  unfold Interrupt.onward
  split
  · rfl
  · unfold Interrupt.round
    rw [LawfulMonad.bind_assoc]
    rfl

theorem Operation.Coordinating.heeded {op : Operation} (coordinating : op.Coordinating)
    (handler : op ≠ .interrupt) (worker : op ≠ .deferred) :
    (op.task .interrupts).Only Effect.Heeded := by
  have once {p : Program Unit} (only : p.Only maskActions) :
      (Task.once (locked p) fun _ => .ok).Only Effect.Heeded :=
    (Interrupt.locked_heeded (only.mono Interrupt.heeded_of_mask)).bind fun _ => .pure _
  cases op with
  | register direction queue =>
    have edits : (if queue.isSome then Interrupt.addWanted (.only direction)
        else Interrupt.removeWanted (.only direction)).Only maskActions :=
      .ite (Interrupt.addWanted_only _) (Interrupt.removeWanted_only _)
    have registers : (Interrupt.register direction queue).Only Effect.Heeded :=
      Interrupt.locked_heeded ((Only.act trivial).bind fun _ => edits.mono Interrupt.heeded_of_mask)
    exact registers.bind fun _ => .pure _
  | enable bits => exact once (Interrupt.addWanted_only bits)
  | disable bits => exact once (Interrupt.removeWanted_only bits)
  | wanted => exact (Only.act trivial).bind fun _ => .pure _
  | interrupt => exact absurd rfl handler
  | deferred => exact absurd rfl worker
  | _ => exact coordinating.elim

def Step.heed : Step → Step
  | raiseChannel bits => raiseChannel (bits &&& heeded)
  | hook point steps => hook point (all steps)
  | step => step
where
  all : List Step → List Step
    | [] => []
    | step :: rest => step.heed :: all rest

theorem Step.heed_all (steps : List Step) : Step.heed.all steps = steps.map Step.heed := by
  induction steps with
  | nil => rfl
  | cons step rest ih => exact congrArg (step.heed :: ·) ih

def Hooks.heed (hooks : Hooks) : Hooks := hooks.map fun wait => (wait.1, wait.2.map Step.heed)

namespace Hooks

theorem take?_heed (hooks : Hooks) (point : Point) :
    (heed hooks).take? point =
      (hooks.take? point).map fun found => (found.1.map Step.heed, heed found.2) := by
  induction hooks with
  | nil => rfl
  | cons wait rest ih =>
    have unfolded (steps : List Step) (others : Hooks) : take? point ((wait.1, steps) :: others) =
        if wait.1 = point then some (steps, others)
        else (take? point others).map fun found => (found.1, (wait.1, steps) :: found.2) := rfl
    have left : heed (wait :: rest) = (wait.1, wait.2.map Step.heed) :: heed rest := rfl
    rw [left, unfolded, show wait :: rest = (wait.1, wait.2) :: rest from rfl, unfolded]
    split
    · rfl
    · rw [ih, Option.map_map, Option.map_map]
      rfl

theorem mem_of_take? {hooks others : Hooks} {point : Point} {steps : List Step}
    (found : hooks.take? point = some (steps, others)) :
    (point, steps) ∈ hooks ∧ ∀ wait ∈ others, wait ∈ hooks := by
  induction hooks generalizing others with
  | nil => cases found
  | cons wait rest ih =>
    unfold take? at found
    split at found
    · rename_i same
      cases found
      subst same
      exact ⟨.head _, fun wait member => .tail _ member⟩
    · cases later : take? point rest with
      | none =>
        rw [later] at found
        cases found
      | some both =>
        rw [later] at found
        cases found
        obtain ⟨waiting, kept⟩ := ih later
        refine ⟨.tail _ waiting, ?_⟩
        intro other member
        rcases List.mem_cons.mp member with rfl | member
        · exact .head _
        · exact .tail _ (kept other member)

end Hooks

def Frame.heed : Frame → Frame
  | .steps rest => .steps (rest.map Step.heed)
  | .running op target rest => .running op target rest

def Machine.heed (m : Machine) : Machine where
  station := m.station.heed
  hooks := Hooks.heed m.hooks
  stack := m.stack.map Frame.heed

/-- Whether an entry tells what is done about the bits that are acted upon, or what an operation other
than an interrupt comes to. -/
def Entry.matters : Entry → Bool
  | .acted _ _ (.store offset _) _ => offset ≠ Register.channelStatus
  | .acted _ _ (.count counter) _ => counter.Heeded
  | .acted _ _ (.load _) _ | .acted _ _ (.merge _) _ | .acted _ _ .schedule _
  | .acted _ _ .drain _ => false
  | .acted _ _ _ _ => true
  | .ended _ op _ => op ≠ .interrupt
  | .faulted _ => true
  | .begun _ _ | .renewed _ _ => false

def heededOf (history : History) : History := history.filter Entry.matters

def Point.OfHandler : Point → Prop
  | .read _ | .schedule => True
  | .write offset => offset = Register.channelStatus
  | _ => False

theorem Effect.Ignored.point {e : Effect} {point : Point} (ignored : e.Ignored)
    (here : e.point? = some point) : point.OfHandler := by
  cases e with
  | load | schedule =>
    cases here
    trivial
  | store offset value =>
    cases here
    exact ignored
  | merge | drain | count => cases here
  | _ => exact ignored.elim

end EthernetMac
