import EthernetMac.Proofs.Interrupt.Handled
import EthernetMac.Proofs.Link.Duty

namespace EthernetMac

open Program

namespace Causes

theorem has_eq (word : Word) (direction : Direction) :
    (ofWord word).has direction =
      word.getLsbD (match direction with | .receive => 6 | .transmit => 0) := by
  cases direction <;>
    simp [ofWord, has, Field.test, ChannelStatus.receive, ChannelStatus.transmit, Field.flag, linkCause]

theorem has_or (one other : Word) (direction : Direction) :
    (ofWord (one ||| other)).has direction =
      ((ofWord one).has direction || (ofWord other).has direction) := by
  rw [has_eq, has_eq, has_eq, BitVec.getLsbD_or]

theorem link_or (one other : Word) :
    (ofWord (one ||| other)).link = ((ofWord one).link || (ofWord other).link) := by
  rw [link_eq, link_eq, link_eq, BitVec.getLsbD_or]

theorem queues_eq (c : Causes) : c.queues = ⟨false, c.has .receive, c.has .transmit⟩ := rfl

theorem difference_queues_or (mask : InterruptMask) (one other : Word) :
    mask.difference (ofWord (one ||| other)).queues =
      (mask.difference (ofWord one).queues).difference (ofWord other).queues := by
  rw [queues_eq, has_or, has_or]
  simp [InterruptMask.difference, queues_eq, Bool.and_assoc]

end Causes

def Event.service? : Event → Option Event
  | .notify queue => some (.notify queue)
  | .linkChanged => some .linkChanged
  | _ => none

def services (trace : List Event) : List Event := trace.filterMap Event.service?

/-- The enable registers after the mask became `new`; they are written only if it changes. -/
def Station.enabling (s : Station) (new : InterruptMask) : RegisterFile :=
  if s.interrupt.wanted = new then s.registers
  else (s.registers.set Register.macInterruptEnable new.macEnable).set
    Register.channelInterruptEnable new.channelEnable

def Station.noting (s : Station) (counters : Counters) (trace : List Event) : Station :=
  { s with interrupt := { s.interrupt with counters }, trace }

/-- What serving the causes `c` leaves, the counters and the trace apart. -/
def Station.served (s : Station) (c : Causes) : Station :=
  { s with
    registers := s.enabling (s.interrupt.wanted.difference c.queues)
    interrupt :=
      { s.interrupt with
        wanted := s.interrupt.wanted.difference c.queues
        queue := fun direction =>
          if c.has direction then none else s.interrupt.queue direction } }

def Station.hearing (s : Station) (c : Causes) : List QueueHandle :=
  [Direction.transmit, .receive].flatMap fun direction =>
    if c.has direction then (s.interrupt.queue direction).toList else []

namespace Interrupt

variable {s : Station} {α : Type}

theorem run_count (condition : Bool) (counter : Counter) (f : Unit → Program α) :
    ∃ counters, (onlyIf condition (act (.count counter)) >>= f).run s =
      (f ()).run (s.noting counters s.trace) := by
  cases condition with
  | false => exact ⟨s.interrupt.counters, rfl⟩
  | true => exact ⟨_, run_act_bind _ rfl⟩

theorem run_changeMask (device : s.registers.backing = .device) (new : InterruptMask) :
    ∃ trace, (changeMask new).run s =
      (.ok (), { s with
        registers := s.enabling new
        interrupt := { s.interrupt with wanted := new }
        trace }) ∧ services trace = services s.trace := by
  unfold changeMask
  rw [run_act_bind (e := .mask) _ rfl]
  by_cases same : s.interrupt.wanted = new
  · have still : (s.interrupt.wanted != new) = false := bne_eq_false_iff_eq.mpr same
    have kept : s.enabling new = s.registers := if_pos same
    rw [still, kept, ← same]
    exact ⟨s.trace, rfl, rfl⟩
  · have changes : (s.interrupt.wanted != new) = true := bne_iff_ne.mpr same
    have written : s.enabling new = _ := if_neg same
    rw [changes, written]
    let file := s.registers.set Register.macInterruptEnable new.macEnable
    have first : s.registers.writing Register.macInterruptEnable new.macEnable = file :=
      RegisterFile.writing_of_ne (by decide) _
    have second : file.writing Register.channelInterruptEnable new.channelEnable =
        file.set Register.channelInterruptEnable new.channelEnable :=
      RegisterFile.writing_of_ne (by decide) _
    refine ⟨.write Register.channelInterruptEnable new.channelEnable ::
      .write Register.macInterruptEnable new.macEnable :: s.trace, ?_, rfl⟩
    change (act (.setMask new) >>= fun _ =>
      store Register.macInterruptEnable new.macEnable >>= fun _ =>
        store Register.channelInterruptEnable new.channelEnable).run s = _
    rw [run_act_bind (e := .setMask new) _ rfl, run_store_bind _ _ _ (by exact device)]
    have still := (s.registers.writing_backing Register.macInterruptEnable new.macEnable).trans device
    refine (run_store_bind _ _ Program.done (by exact still)).trans ?_
    simp only [Station.mapInterrupt, first, second]
    rfl

theorem run_notifyOnce (condition : Bool) (direction : Direction) (f : Unit → Program α) :
    ∃ counters trace, (onlyIf condition (notifyOnce direction) >>= f).run s =
      (f ()).run { s with
        interrupt :=
          { s.interrupt with
            queue := fun other =>
              if condition ∧ other = direction then none else s.interrupt.queue other
            counters }
        trace } ∧
      services trace =
        (if condition then (s.interrupt.queue direction).toList else []).map .notify ++
          services s.trace := by
  cases condition with
  | false =>
    refine ⟨s.interrupt.counters, s.trace, ?_, rfl⟩
    simp only [Bool.false_eq_true, false_and, if_false]
    rfl
  | true =>
    simp only [true_and]
    have taken : s.perform (.takeQueue direction) = .ok (s.interrupt.queue direction,
        s.mapInterrupt (·.setQueue direction none)) := rfl
    unfold onlyIf notifyOnce
    rw [if_pos rfl, LawfulMonad.bind_assoc]
    cases handle : s.interrupt.queue direction with
    | none =>
      rw [handle] at taken
      rw [run_act_bind _ taken]
      exact ⟨s.interrupt.counters, s.trace, rfl, rfl⟩
    | some queue =>
      rw [handle] at taken
      rw [run_act_bind _ taken]
      exact ⟨_, .notify queue :: s.trace, (run_act_bind _ rfl).trans (run_act_bind _ rfl), rfl⟩

theorem run_linkChange (condition : Bool) (f : Unit → Program α) :
    ∃ counters trace,
      (onlyIf condition (do act (.count .linkChange); act .linkChanged) >>= f).run s =
        (f ()).run (s.noting counters trace) ∧
      services trace = (if condition then [.linkChanged] else []) ++ services s.trace := by
  cases condition with
  | false => exact ⟨s.interrupt.counters, s.trace, rfl, rfl⟩
  | true =>
    exact ⟨s.interrupt.counters.bump .linkChange, .linkChanged :: s.trace,
      (run_act_bind _ rfl).trans (run_act_bind _ rfl), rfl⟩

theorem served_of_empty {c : Causes} (empty : c.queues.isEmpty = true) :
    s.served c = s ∧ s.hearing c = [] := by
  have none : c.queues = .none := eq_of_beq empty
  obtain ⟨noReceive, noTransmit⟩ : c.receive = false ∧ c.transmit = false := by
    rw [Causes.queues, InterruptMask.none, InterruptMask.mk.injEq] at none
    exact none.2
  have same : s.interrupt.wanted.difference c.queues = s.interrupt.wanted := by
    simp [none, InterruptMask.none, InterruptMask.difference]
  have kept (direction : Direction) : c.has direction = false := by
    cases direction <;> assumption
  constructor
  · unfold Station.served Station.enabling
    simp only [same, kept, if_true]
    rfl
  · simp [Station.hearing, kept]

theorem serveQueues_eq (c : Causes) : serveQueues c =
    (do
      act .acquire
      let old ← act .mask
      changeMask (old.difference c.queues)
      onlyIf c.receive (notifyOnce .receive)
      onlyIf c.transmit (notifyOnce .transmit)
      act .release) := by
  simp only [serveQueues, locked, removeWanted, LawfulMonad.bind_assoc]
  rfl

theorem run_serveQueues (device : s.registers.backing = .device) (free : s.interrupt.lock = .free)
    (c : Causes) :
    ∃ counters trace,
      (onlyIf (!c.queues.isEmpty) (serveQueues c)).run s =
        (.ok (), (s.served c).noting counters trace) ∧
      services trace = (s.hearing c).map .notify ++ services s.trace := by
  cases empty : c.queues.isEmpty with
  | true =>
    obtain ⟨same, quiet⟩ := served_of_empty (s := s) empty
    rw [same, quiet]
    exact ⟨s.interrupt.counters, s.trace, rfl, rfl⟩
  | false =>
    let held := s.mapInterrupt ({ · with lock := .exclusive })
    have acquired : s.perform .acquire = .ok ((), held) := by
      simp [held, Station.perform_eq, Station.apply, free, Borrow.write?, Except.map, Effect.event?]
    obtain ⟨masked, changed, maskQuiet⟩ := run_changeMask (s := held) device
      (s.interrupt.wanted.difference c.queues)
    obtain ⟨_, _, received, first⟩ := run_notifyOnce c.receive .receive (fun _ => do
      onlyIf c.transmit (notifyOnce .transmit)
      act .release) (s := { held with
        registers := held.enabling (s.interrupt.wanted.difference c.queues)
        interrupt := { held.interrupt with wanted := s.interrupt.wanted.difference c.queues }
        trace := masked })
    obtain ⟨counters, trace, sent, second⟩ := run_notifyOnce c.transmit .transmit (fun _ => act .release)
    refine ⟨counters, trace, ?_, ?_⟩
    · have queues (direction : Direction) :
          (if c.transmit = true ∧ direction = .transmit then none
            else if c.receive = true ∧ direction = .receive then none
            else s.interrupt.queue direction) =
          if c.has direction then none else s.interrupt.queue direction := by
        unfold Causes.has
        cases direction <;> cases c.transmit <;> cases c.receive <;> rfl
      change (serveQueues c).run s = _
      rw [serveQueues_eq, run_act_bind _ acquired, run_act_bind (e := .mask) _ rfl]
      refine (run_bind changed _).trans (received.trans (sent.trans ?_))
      unfold Station.served
      simp only [← queues, free]
      rfl
    · have hearing : s.hearing c =
          (if c.transmit then (s.interrupt.queue .transmit).toList else []) ++
            (if c.receive then (s.interrupt.queue .receive).toList else []) := by
        simp only [Station.hearing, List.flatMap_cons, List.flatMap_nil, List.append_nil]
        rfl
      rw [second, first, maskQuiet, hearing, List.map_append, List.append_assoc]
      simp only [reduceCtorEq, and_false, if_false]
      rfl

theorem run_serve (device : s.registers.backing = .device) (free : s.interrupt.lock = .free)
    (c : Causes) :
    ∃ counters trace, (serve (act .linkChanged) c).run s =
      (.ok (), (s.served c).noting counters trace) ∧
      services trace = (s.hearing c).map .notify ++
        ((if c.link then [.linkChanged] else []) ++ services s.trace) := by
  obtain ⟨first, abnormal⟩ := run_count (s := s) c.abnormal .abnormal fun _ => do
    onlyIf c.fatal (act (.count .fatal))
    onlyIf c.link (do act (.count .linkChange); act .linkChanged)
    onlyIf (!c.queues.isEmpty) (serveQueues c)
  obtain ⟨second, fatal⟩ := run_count (s := s.noting first s.trace) c.fatal .fatal fun _ => do
    onlyIf c.link (do act (.count .linkChange); act .linkChanged)
    onlyIf (!c.queues.isEmpty) (serveQueues c)
  obtain ⟨third, called, link, linked⟩ := run_linkChange (s := s.noting second s.trace) c.link fun _ =>
    onlyIf (!c.queues.isEmpty) (serveQueues c)
  obtain ⟨counters, trace, queues, told⟩ := run_serveQueues (s := s.noting third called) device free c
  refine ⟨counters, trace, abnormal.trans (fatal.trans (link.trans queues)), told.trans ?_⟩
  exact congrArg _ linked

end Interrupt

theorem deferred_run_idle {s : Station} (idle : s.interrupt.pending.word = 0) :
    (Operation.deferred.task .interrupts).run s = (.ok (.finished .ok), s) := by
  have empty : s.interrupt.pending = .empty := congrArg Pending.mk idle
  have same : s.mapInterrupt ({ · with pending := .empty }) = s := by
    rw [← empty]
    rfl
  have drained : s.perform .drain = .ok (s.interrupt.pending.word,
      s.mapInterrupt ({ · with pending := .empty })) := rfl
  rw [idle, same] at drained
  have worked : (Interrupt.work (act .linkChanged)).run s = (.ok (.finished ()), s) := by
    unfold Interrupt.work
    rw [run_act_bind _ drained]
    rfl
  exact run_bind worked _

/-- Any other round serves what was pending. -/
theorem deferred_run {s : Station} (device : s.registers.backing = .device)
    (free : s.interrupt.lock = .free) (waiting : s.interrupt.pending.word ≠ 0) :
    ∃ counters trace, (Operation.deferred.task .interrupts).run s =
      (.ok .again, ((s.served (.ofWord s.interrupt.pending.word)).noting counters trace).mapInterrupt
        ({ · with pending := .empty })) ∧
      services trace = (s.hearing (.ofWord s.interrupt.pending.word)).map .notify ++
        ((if (Causes.ofWord s.interrupt.pending.word).link then [.linkChanged] else []) ++
          services s.trace) := by
  let drained := s.mapInterrupt ({ · with pending := .empty })
  obtain ⟨counters, trace, served, told⟩ := Interrupt.run_serve (s := drained) device free
    (.ofWord s.interrupt.pending.word)
  refine ⟨counters, trace, ?_, told⟩
  have taken : s.perform .drain = .ok (s.interrupt.pending.word, drained) := rfl
  have worked : (Interrupt.work (act .linkChanged)).run s = (.ok .again,
      (drained.served (.ofWord s.interrupt.pending.word)).noting counters trace) := by
    unfold Interrupt.work
    rw [run_act_bind _ taken, if_neg waiting, run_bind served]
    rfl
  exact run_bind worked _

namespace RegisterFile

variable {f : RegisterFile} {offset other : Nat}

def Enables (offset : Nat) : Prop :=
  offset = Register.macInterruptEnable ∨ offset = Register.channelInterruptEnable

theorem read?_set (enables : Enables other) (value : Word) (reads : handlerActions (.load offset))
    (device : f.backing = .device) :
    (f.set other value).read? offset =
      (f.read? offset).map fun reply => (reply.1, reply.2.set other value) := by
  have kept : (f.set other value).cell Register.macInterruptStatus =
      f.cell Register.macInterruptStatus :=
    cell_set_of_ne _ _ (by rcases enables with rfl | rfl <;> decide)
  have status : Register.macInterruptStatus ≠ other := by rcases enables with rfl | rfl <;> decide
  have apart : offset ≠ other := by
    rcases enables with rfl | rfl <;> rcases reads with rfl | rfl | rfl <;> decide
  have after : (f.set other value).afterRead offset = (f.afterRead offset).set other value := by
    rcases reads with rfl | rfl | rfl
    · rfl
    · rfl
    · change (f.set other value).acknowledgeLink = f.acknowledgeLink.set other value
      unfold acknowledgeLink
      rw [kept, set_set_of_ne _ status.symm]
  have still : (f.set other value).backing = .device := device
  simp only [read?, still, device, after, cell_set_of_ne _ _ apart]
  rfl

theorem write?_set (enables : Enables other) (value word : Word)
    (writes : handlerActions (.store offset word)) (device : f.backing = .device) :
    (f.set other value).write? offset word =
      (f.write? offset word).map fun after => after.set other value := by
  have apart : offset ≠ other := by
    rcases enables with rfl | rfl <;> rcases writes with rfl <;> decide
  have still : (f.set other value).backing = .device := device
  have here : offset = Register.channelStatus := writes
  simp only [write?, still, device, if_pos here, cell_set_of_ne _ _ apart, Option.map_some]
  rw [set_set_of_ne _ apart.symm]

theorem set_pair_set_pair (f : RegisterFile) (one other : Nat) (a b c d : Word) :
    (((f.set one a).set other b).set one c).set other d = (f.set one c).set other d := by
  unfold set
  congr 1
  funext offset
  by_cases second : offset = other <;> by_cases first : offset = one <;> simp [first, second]

end RegisterFile

theorem InterruptMask.difference_of_difference {mask one other : InterruptMask}
    (same : (mask.difference one).difference other = mask) : mask.difference one = mask := by
  have bit (m a b : Bool) (same : (m && !a && !b) = m) : (m && !a) = m := by
    revert m a b
    decide
  obtain ⟨state, receive, transmit⟩ := InterruptMask.mk.inj same
  exact InterruptMask.mk.injEq .. |>.mpr ⟨bit _ _ _ state, bit _ _ _ receive, bit _ _ _ transmit⟩

namespace Station

variable {s : Station} {offset : Nat}

theorem read?_enabling (new : InterruptMask) (reads : handlerActions (.load offset))
    (device : s.registers.backing = .device) :
    (s.enabling new).read? offset = (s.registers.read? offset).map fun reply =>
      (reply.1, { s with registers := reply.2 }.enabling new) := by
  unfold enabling
  by_cases same : s.interrupt.wanted = new
  · simp only [if_pos same]
    exact Option.map_id'.symm
  · have still : (s.registers.set Register.macInterruptEnable new.macEnable).backing = .device := device
    simp only [if_neg same]
    rw [RegisterFile.read?_set (.inr rfl) _ reads still,
      RegisterFile.read?_set (.inl rfl) _ reads device, Option.map_map]
    rfl

theorem write?_enabling (new : InterruptMask) {word : Word}
    (writes : handlerActions (.store offset word)) (device : s.registers.backing = .device) :
    (s.enabling new).write? offset word = (s.registers.write? offset word).map fun after =>
      { s with registers := after }.enabling new := by
  unfold enabling
  by_cases same : s.interrupt.wanted = new
  · simp only [if_pos same]
    exact Option.map_id'.symm
  · have still : (s.registers.set Register.macInterruptEnable new.macEnable).backing = .device := device
    simp only [if_neg same]
    rw [RegisterFile.write?_set (.inr rfl) _ _ writes still,
      RegisterFile.write?_set (.inl rfl) _ _ writes device, Option.map_map]
    rfl

theorem enabling_served (s : Station) (c : Causes) (later : InterruptMask) :
    (s.served c).enabling ((s.interrupt.wanted.difference c.queues).difference later) =
      s.enabling ((s.interrupt.wanted.difference c.queues).difference later) := by
  unfold served enabling
  dsimp only
  by_cases kept : s.interrupt.wanted.difference c.queues =
      (s.interrupt.wanted.difference c.queues).difference later
  · rw [if_pos kept, ← kept]
  · have changes : s.interrupt.wanted ≠ (s.interrupt.wanted.difference c.queues).difference later := by
      intro same
      have once := InterruptMask.difference_of_difference same.symm
      exact kept (once.trans same)
    rw [if_neg kept, if_neg changes]
    split
    · rfl
    · exact RegisterFile.set_pair_set_pair ..

/-- Causes can be served one word after the other, or merged. -/
theorem served_served (s : Station) (one other : Word) :
    (s.served (.ofWord one)).served (.ofWord other) = s.served (.ofWord (one ||| other)) := by
  have masks := Causes.difference_queues_or s.interrupt.wanted one other
  have registers := s.enabling_served (.ofWord one) (Causes.ofWord other).queues
  rw [← masks] at registers
  have queues (direction : Direction) :
      (if (Causes.ofWord other).has direction then none
        else if (Causes.ofWord one).has direction then none else s.interrupt.queue direction) =
      if (Causes.ofWord (one ||| other)).has direction then none else s.interrupt.queue direction := by
    rw [Causes.has_or]
    cases (Causes.ofWord one).has direction <;> cases (Causes.ofWord other).has direction <;> rfl
  have left : (s.served (.ofWord one)).served (.ofWord other) = { s with
      registers := (s.served (.ofWord one)).enabling
        ((s.interrupt.wanted.difference (Causes.ofWord one).queues).difference
          (Causes.ofWord other).queues)
      interrupt :=
        { s.interrupt with
          wanted := (s.interrupt.wanted.difference (Causes.ofWord one).queues).difference
            (Causes.ofWord other).queues
          queue := fun direction => if (Causes.ofWord other).has direction then none
            else if (Causes.ofWord one).has direction then none else s.interrupt.queue direction } } :=
    rfl
  rw [left, ← masks, registers, funext queues]
  rfl

end Station

end EthernetMac
