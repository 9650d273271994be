import EthernetMac.Proofs.Determined
import EthernetMac.Proofs.Interrupt.Served

namespace EthernetMac

namespace Program

variable {α β : Type} {s mid after : Station} {value : α} {limit : Nat}

/-- By itself, in at most so many actions, the program comes to `value` and leaves `after`. -/
def Comes (value : α) (after : Station) : Program α → Station → Nat → Prop
  | done result, s, _ => value = result ∧ after = s
  | perform _ _, _, 0 => False
  | perform e next, s, limit + 1 =>
    ∃ answer mid, s.perform e = .ok (answer, mid) ∧ (next answer).Comes value after mid limit

theorem Comes.mono {p : Program α} {more : Nat} (comes : p.Comes value after s limit)
    (le : limit ≤ more) : p.Comes value after s more := by
  induction p generalizing s limit more with
  | done result => exact comes
  | perform e next ih =>
    cases limit with
    | zero => exact comes.elim
    | succ limit =>
      cases more with
      | zero => cases le
      | succ more =>
        obtain ⟨answer, mid, performed, onward⟩ := comes
        exact ⟨answer, mid, performed, ih answer onward (Nat.le_of_succ_le_succ le)⟩

theorem Comes.bind {p : Program β} {f : β → Program α} {first : β} {rest : Nat}
    (comes : p.Comes first mid s limit) (onward : (f first).Comes value after mid rest) :
    (p >>= f).Comes value after s (rest + limit) := by
  change (p.bind f).Comes value after s (rest + limit)
  induction p generalizing s limit with
  | done result =>
    obtain ⟨rfl, rfl⟩ := comes
    exact onward.mono (Nat.le_add_right ..)
  | perform e next ih =>
    cases limit with
    | zero => exact comes.elim
    | succ limit =>
      obtain ⟨answer, next, performed, later⟩ := comes
      exact ⟨answer, next, performed, ih answer later⟩

theorem Comes.next {e : Effect} {f : e.Answer → Program α} {answer : e.Answer}
    (performed : s.perform e = .ok (answer, mid)) (onward : (f answer).Comes value after mid limit) :
    (Program.act e >>= f).Comes value after s (limit + 1) :=
  ⟨answer, mid, performed, onward⟩

theorem Comes.act {e : Effect} {answer : e.Answer} (performed : s.perform e = .ok (answer, after)) :
    (act e).Comes answer after s 1 :=
  ⟨answer, after, performed, rfl, rfl⟩

end Program

open Program

namespace Machine

variable {m : Machine} {op : Operation} {target : Target} {p : Task} {below : List Frame}

theorem advanceFor_comes (calm : m.hooks = []) (top : m.stack = .running op target p :: below)
    {round : Round Answer} {after : Station} {limit : Nat} (comes : p.Comes round after m.station limit) :
    ∃ used ≤ limit, ∀ more, advanceFor (used + more) m =
      advanceFor more { m with station := after, stack := .running op target (.done round) :: below } := by
  induction p generalizing m limit with
  | done result =>
    obtain ⟨rfl, rfl⟩ := comes
    refine ⟨0, Nat.zero_le _, fun more => ?_⟩
    rw [Nat.zero_add, ← top]
  | perform e next ih =>
    cases limit with
    | zero => exact comes.elim
    | succ limit =>
      obtain ⟨answer, mid, performed, onward⟩ := comes
      have moved : m.advance =
          { m with station := mid, stack := .running op target (next answer) :: below } := by
        unfold advance
        simp only [top, performed]
        cases e.point? with
        | none => rfl
        | some point =>
          unfold pass
          simp only [calm]
          rfl
      obtain ⟨used, le, goes⟩ := ih answer
        (m := { m with station := mid, stack := .running op target (next answer) :: below })
        calm rfl onward
      refine ⟨used + 1, Nat.succ_le_succ le, fun more => ?_⟩
      have busy : ¬ m.stack.isEmpty := by simp [top]
      rw [Nat.succ_add, advanceFor, if_neg busy, moved]
      exact goes more

end Machine

def Counters.bumpIf (counters : Counters) (condition : Bool) (c : Counter) : Counters :=
  if condition then counters.bump c else counters

theorem Counters.bumpIf_apply (counters : Counters) (condition : Bool) (c other : Counter) :
    counters.bumpIf condition c other =
      if condition ∧ other = c then counters other + 1 else counters other := by
  cases condition <;> simp [bumpIf, bump]

theorem Causes.ofWord_eq (word : Word) : Causes.ofWord word =
    { receive := word.getLsbD 6
      transmit := word.getLsbD 0
      abnormal := word.getLsbD 14
      fatal := word.getLsbD 12
      link := word.getLsbD 31 } := by
  have abnormal : (ofWord word).abnormal = word.getLsbD 14 := by
    simp [ofWord, Field.test, ChannelStatus.abnormalSummary, Field.flag, linkCause]
  have fatal : (ofWord word).fatal = word.getLsbD 12 := by
    simp [ofWord, Field.test, ChannelStatus.fatalBusError, Field.flag, linkCause]
  rw [← has_eq word .receive, ← has_eq word .transmit, ← abnormal, ← fatal, ← link_eq]
  rfl

def Causes.counts (c : Causes) (queue : Direction → Option QueueHandle) : Counter → Bool
  | .abnormal => c.abnormal
  | .fatal => c.fatal
  | .linkChange => c.link
  | .receive => c.receive && (queue .receive).isSome
  | .transmit => c.transmit && (queue .transmit).isSome
  | .handled | .ignored => false

theorem Causes.counts_eq (c : Causes) (queue : Direction → Option QueueHandle) (counters : Counters) :
    (fun counter => if c.counts queue counter then counters counter + 1 else counters counter) =
      ((((counters.bumpIf c.abnormal .abnormal).bumpIf c.fatal .fatal).bumpIf c.link .linkChange).bumpIf
        (c.receive && (queue .receive).isSome) .receive).bumpIf
          (c.transmit && (queue .transmit).isSome) .transmit := by
  funext counter
  cases counter <;> simp [Counters.bumpIf_apply, counts] <;> congr

namespace Station

def asking (s : Station) (new : InterruptMask) : List Event :=
  if s.interrupt.wanted = new then []
  else [.write Register.channelInterruptEnable new.channelEnable,
    .write Register.macInterruptEnable new.macEnable]

def masked (s : Station) (new : InterruptMask) : Station :=
  { s with
    registers := s.enabling new
    interrupt := { s.interrupt with wanted := new }
    trace := s.asking new ++ s.trace }

def informed (s : Station) (condition : Bool) (direction : Direction) : Station :=
  { s with
    interrupt :=
      { s.interrupt with
        queue := fun other =>
          if condition ∧ other = direction then none else s.interrupt.queue other
        counters := s.interrupt.counters.bumpIf
          (condition && (s.interrupt.queue direction).isSome) direction.counter }
    trace := (if condition then (s.interrupt.queue direction).toList else []).map .notify ++ s.trace }

/-- What one round of the worker makes of the causes `c`, where nothing else happens. -/
def serving (s : Station) (c : Causes) : Station :=
  { s with
    registers := s.enabling (s.interrupt.wanted.difference c.queues)
    interrupt :=
      { s.interrupt with
        wanted := s.interrupt.wanted.difference c.queues
        queue := fun direction => if c.has direction then none else s.interrupt.queue direction
        counters := fun counter =>
          if c.counts s.interrupt.queue counter then s.interrupt.counters counter + 1
          else s.interrupt.counters counter }
    trace := (s.hearing c).map .notify ++ (s.asking (s.interrupt.wanted.difference c.queues) ++
      ((if c.link then [.linkChanged] else []) ++ s.trace)) }

def reckoned (s : Station) (c : Causes) : Station :=
  s.noting (((s.interrupt.counters.bumpIf c.abnormal .abnormal).bumpIf c.fatal .fatal).bumpIf
    c.link .linkChange) ((if c.link then [.linkChanged] else []) ++ s.trace)

def relieved (s : Station) (c : Causes) : Station :=
  ((((s.mapInterrupt ({ · with lock := .exclusive })).masked
    (s.interrupt.wanted.difference c.queues)).informed c.receive .receive).informed
      c.transmit .transmit).unlocked

variable {s : Station} {c : Causes}

theorem serving_of_empty (empty : c.queues.isEmpty = true) : s.serving c = s.reckoned c := by
  have none : c.queues = .none := eq_of_beq empty
  have unmasked : s.interrupt.wanted.difference c.queues = s.interrupt.wanted := by
    rw [none]
    simp [InterruptMask.difference, InterruptMask.none]
  obtain ⟨noReceive, noTransmit⟩ : c.receive = false ∧ c.transmit = false := by
    rw [Causes.queues, InterruptMask.none, InterruptMask.mk.injEq] at none
    exact none.2
  have kept (direction : Direction) : c.has direction = false := by
    cases direction <;> assumption
  unfold serving reckoned
  rw [Causes.counts_eq, unmasked, noReceive, noTransmit]
  simp [kept, hearing, enabling, asking, noting, Counters.bumpIf]

theorem serving_eq (free : s.interrupt.lock = .free) :
    s.serving c = (s.reckoned c).relieved c := by
  have queues (direction : Direction) :
      (if c.transmit = true ∧ direction = .transmit then none
        else if c.receive = true ∧ direction = .receive then none
        else s.interrupt.queue direction) =
      if c.has direction then none else s.interrupt.queue direction := by
    unfold Causes.has
    cases direction <;> cases c.transmit <;> cases c.receive <;> rfl
  have heard : s.hearing c =
      (if c.transmit then (s.interrupt.queue .transmit).toList else []) ++
        (if c.receive then (s.interrupt.queue .receive).toList else []) := by
    simp only [hearing, List.flatMap_cons, List.flatMap_nil, List.append_nil]
    rfl
  have first (direction : Direction) (same : direction ≠ .receive) :
      (if c.receive = true ∧ direction = .receive then none else s.interrupt.queue direction) =
        s.interrupt.queue direction :=
    if_neg fun both => same both.2
  unfold serving
  rw [Causes.counts_eq, heard, List.map_append, List.append_assoc]
  simp only [← queues]
  unfold relieved informed
  simp only [masked, reckoned, noting, mapInterrupt, unlocked, first .transmit (by decide), free]
  rfl

end Station

namespace Interrupt

variable {s : Station}

theorem comes_count (condition : Bool) (counter : Counter) :
    (onlyIf condition (act (.count counter))).Comes ()
      (s.noting (s.interrupt.counters.bumpIf condition counter) s.trace) s 1 := by
  cases condition with
  | false => exact ⟨rfl, rfl⟩
  | true => exact .act rfl

theorem comes_linkChange (condition : Bool) :
    (onlyIf condition (do act (.count .linkChange); act .linkChanged)).Comes ()
      (s.noting (s.interrupt.counters.bumpIf condition .linkChange)
        ((if condition then [.linkChanged] else []) ++ s.trace)) s 2 := by
  cases condition with
  | false => exact ⟨rfl, rfl⟩
  | true => exact .next rfl (.act rfl)

theorem comes_changeMask (new : InterruptMask) :
    (changeMask new).Comes () (s.masked new) s 4 := by
  unfold changeMask
  refine .next (e := .mask) rfl ?_
  by_cases same : s.interrupt.wanted = new
  · have still : (s.interrupt.wanted != new) = false := bne_eq_false_iff_eq.mpr same
    have kept : s.masked new = s := by
      rw [Station.masked, Station.enabling, if_pos same, Station.asking, if_pos same, ← same]
      rfl
    rw [still, kept]
    exact ⟨rfl, rfl⟩
  · have changes : (s.interrupt.wanted != new) = true := bne_iff_ne.mpr same
    rw [changes, Station.masked, Station.enabling, if_neg same, Station.asking, if_neg same]
    refine .next (e := .setMask new) rfl ?_
    refine .next (Station.perform_store (by decide) (by decide) _) ?_
    exact .act (Station.perform_store (by decide) (by decide) _)

theorem comes_notifyOnce (condition : Bool) (direction : Direction) :
    (onlyIf condition (notifyOnce direction)).Comes () (s.informed condition direction) s 3 := by
  unfold Station.informed
  cases condition with
  | false =>
    refine ⟨rfl, ?_⟩
    simp only [Bool.false_eq_true, false_and, if_false]
    rfl
  | true =>
    simp only [true_and, Bool.true_and]
    have taken : s.perform (.takeQueue direction) = .ok (s.interrupt.queue direction,
        s.mapInterrupt (·.setQueue direction none)) := rfl
    cases handle : s.interrupt.queue direction with
    | none =>
      rw [handle] at taken
      exact .next taken ⟨rfl, rfl⟩
    | some queue =>
      rw [handle] at taken
      exact .next taken (.next rfl (.act rfl))

theorem comes_serveQueues (free : s.interrupt.lock = .free) (c : Causes) :
    (serveQueues c).Comes () (s.relieved c) s 13 := by
  have acquired : s.perform .acquire =
      .ok ((), s.mapInterrupt ({ · with lock := .exclusive })) := by
    simp [Station.perform_eq, Station.apply, free, Borrow.write?, Except.map, Effect.event?]
  rw [serveQueues_eq]
  refine .next acquired (.next (e := .mask) rfl ?_)
  refine (comes_changeMask _).bind ?_
  refine (comes_notifyOnce c.receive .receive).bind ?_
  exact (comes_notifyOnce c.transmit .transmit).bind (.act rfl)

theorem comes_serve (free : s.interrupt.lock = .free) (c : Causes) :
    (serve (act .linkChanged) c).Comes () (s.serving c) s 17 := by
  refine (comes_count c.abnormal .abnormal).bind ?_
  refine (comes_count c.fatal .fatal).bind ?_
  refine (comes_linkChange c.link).bind ?_
  change (onlyIf (!c.queues.isEmpty) (serveQueues c)).Comes () _ (s.reckoned c) 13
  cases busy : c.queues.isEmpty with
  | true =>
    rw [Station.serving_of_empty busy]
    exact ⟨rfl, rfl⟩
  | false =>
    rw [Station.serving_eq free]
    exact comes_serveQueues (s := s.reckoned c) free c

end Interrupt

def Station.serviced (s : Station) : Station :=
  (s.mapInterrupt ({ · with pending := .empty })).serving (.ofWord s.interrupt.pending.word)

theorem Station.serviced_of_idle {s : Station} (idle : s.interrupt.pending.word = 0) :
    s.serviced = s := by
  have empty : s.interrupt.pending = .empty := congrArg Pending.mk idle
  have same : s.mapInterrupt ({ · with pending := .empty }) = s := by
    rw [← empty]
    rfl
  have nothing : Causes.ofWord 0 = ⟨false, false, false, false, false⟩ := by decide
  rw [serviced, same, idle, nothing, serving_of_empty rfl]
  rfl

/-- A round that finds something pending serves it. -/
theorem comes_deferred {s : Station} (free : s.interrupt.lock = .free)
    (waiting : s.interrupt.pending.word ≠ 0) :
    (Operation.deferred.task .interrupts).Comes .again s.serviced s 18 := by
  have worked : (Interrupt.work (act .linkChanged)).Comes .again s.serviced s 18 := by
    refine .next (e := .drain) rfl ?_
    rw [if_neg waiting]
    refine (Interrupt.comes_serve (s := s.mapInterrupt ({ · with pending := .empty })) free _).bind ?_
    exact ⟨rfl, rfl⟩
  refine worked.bind ?_
  exact ⟨rfl, rfl⟩

theorem comes_deferred_idle {s : Station} (idle : s.interrupt.pending.word = 0) :
    (Operation.deferred.task .interrupts).Comes (.finished .ok) s s 1 := by
  have worked : (Interrupt.work (act .linkChanged)).Comes (.finished ()) s s 1 := by
    refine .next (e := .drain) rfl ?_
    rw [if_pos idle]
    refine ⟨rfl, ?_⟩
    have empty : s.interrupt.pending = .empty := congrArg Pending.mk idle
    change s = s.mapInterrupt ({ · with pending := .empty })
    rw [← empty]
    rfl
  refine worked.bind ?_
  exact ⟨rfl, rfl⟩

namespace Machine

theorem advanceFor_resting {m : Machine} (resting : m.stack = []) (limit : Nat) :
    advanceFor limit m = m := by
  cases limit with
  | zero => rfl
  | succ limit =>
    unfold advanceFor
    rw [if_pos (by rw [resting]; rfl)]

theorem advanceFor_idle {m : Machine} (calm : m.hooks = []) (idle : m.station.interrupt.pending.word = 0)
    (top : m.stack = [.running .deferred .interrupts (Operation.deferred.task .interrupts)])
    {limit : Nat} (enough : 2 ≤ limit) :
    advanceFor limit m = { m with stack := [], answer := some .ok } := by
  obtain ⟨used, few, goes⟩ := advanceFor_comes calm top (comes_deferred_idle idle)
  obtain ⟨more, rfl⟩ : ∃ more, limit = used + (more + 1) := ⟨limit - used - 1, by omega⟩
  rw [goes, advanceFor, if_neg (by simp)]
  exact advanceFor_resting rfl more

/-- Where interrupt handling stands alone and no steps wait to be nested, the worker serves what is
pending, once and entirely. -/
theorem execute_deferred {m : Machine} (resting : m.stack = []) (calm : m.hooks = [])
    (alone : m.station.target = .interrupts) (free : m.station.interrupt.lock = .free) :
    m.execute (.operation .deferred) =
      { m with station := Station.serviced { m.station with trace := [] }, answer := some .ok } := by
  obtain ⟨⟨registers, host, target, active, interrupt, shown⟩, hooks, stack, given⟩ := m
  cases resting
  cases calm
  cases alone
  let s : Station := ⟨registers, host, .interrupts, active, interrupt, []⟩
  let begun : Machine :=
    ⟨s, [], [.running .deferred .interrupts (Operation.deferred.task .interrupts)], none⟩
  have budget : begun.budget (.operation .deferred) = 4256 := by
    simp [budget, Step.size, begun, Hooks.size, actionsPerStep, Reset.maxPolls]
  change advanceFor (begun.budget (.operation .deferred)) begun = ⟨s.serviced, [], [], some .ok⟩
  rw [budget]
  by_cases idle : s.interrupt.pending.word = 0
  · rw [advanceFor_idle (m := begun) rfl idle rfl (by decide), Station.serviced_of_idle idle]
  · obtain ⟨used, few, goes⟩ := advanceFor_comes (m := begun) rfl rfl (comes_deferred free idle)
    have split : 4256 = used + (4255 - used + 1) := by omega
    rw [split, goes, advanceFor, if_neg (by simp)]
    exact advanceFor_idle rfl rfl rfl (by omega)

end Machine

end EthernetMac
