import EthernetMac.Proofs.Interrupt.Causes
import EthernetMac.Proofs.Interrupt.Lock

namespace EthernetMac

/-- Hardware reports and interrupt handling in any order. What needs the lock begins only while it
is free, and nothing else touches the two cause registers. -/
def Cause.Admits (m : Machine) : Step → Prop
  | .set offset _ => offset ≠ Register.channelStatus ∧ offset ≠ Register.macInterruptStatus
  | .operation op =>
    op.Coordinating ∧ (op.takesLock = true → m.station.interrupt.lock = .free)
  | _ => True

/-- `later` is what happened since the cause was raised, or since the start where it was latched
from the start. -/
inductive Since (start : RegisterFile) (c : Cause) : History → History → Prop where
  | initially (latched : c.Latched start) : Since start c [] []
  | raised {entry : Entry} {earlier : History} (raises : entry.raises c) :
      Since start c (entry :: earlier) []
  | onward {entry : Entry} {history later : History} (since : Since start c history later) :
      Since start c (entry :: history) (entry :: later)

def Cause.Waived (c : Cause) (later : History) : Prop :=
  c = .link ∧ ∃ newer depth value older,
    later = newer ++ .acted depth .deferred (.load Register.macPhyStatus) value :: older ∧
      ∀ entry ∈ older, ¬ entry.acknowledges .link

def Cause.Carried (c : Cause) (history : History) : Prop :=
  ∃ depth, calls.state depth history = some .interrupt ∧
    c.In (causeLaw.state depth history).unmerged

/-- Where a cause is that was raised. -/
inductive Cause.Accounted (c : Cause) (history later : History) (s : Station) : Prop where
  | drained (handed : ∃ entry ∈ later, entry.drains c)
  | waived (waived : c.Waived later)
  | latched (latched : c.Latched s.registers) (kept : ∀ entry ∈ later, ¬ entry.acknowledges c)
  | pending (inside : c.In s.interrupt.pending.word)
  | carried (carried : c.Carried history)

namespace Cause

variable {c : Cause} {history later : History} {entry : Entry} {s after : Station}

theorem Waived.onward (waived : c.Waived later) : c.Waived (entry :: later) := by
  obtain ⟨link, newer, depth, value, older, rfl, kept⟩ := waived
  exact ⟨link, entry :: newer, depth, value, older, rfl, kept⟩

theorem Accounted.onward (accounted : c.Accounted history later s)
    (latched : c.Latched s.registers → c.Latched after.registers ∧ ¬ entry.acknowledges c ∨
      c.Carried (entry :: history) ∨
      c = .link ∧ ∃ depth value,
        entry = .acted depth .deferred (.load Register.macPhyStatus) value)
    (pending : c.In s.interrupt.pending.word →
      c.In after.interrupt.pending.word ∨ entry.drains c)
    (carried : c.Carried history →
      c.Carried (entry :: history) ∨ c.In after.interrupt.pending.word) :
    c.Accounted (entry :: history) (entry :: later) after := by
  cases accounted with
  | drained handed =>
    obtain ⟨drain, member, drains⟩ := handed
    exact .drained ⟨drain, .tail _ member, drains⟩
  | waived waived => exact .waived waived.onward
  | latched latch kept =>
    rcases latched latch with ⟨still, apart⟩ | carries | ⟨link, depth, value, refreshes⟩
    · refine .latched still ?_
      intro other member
      rcases List.mem_cons.mp member with rfl | old
      · exact apart
      · exact kept other old
    · exact .carried carries
    · subst link refreshes
      exact .waived ⟨rfl, [], depth, value, later, rfl, kept⟩
  | pending inside =>
    rcases pending inside with still | drains
    · exact .pending still
    · exact .drained ⟨entry, .head _, drains⟩
  | carried carries =>
    rcases carried carries with still | merged
    · exact .carried still
    · exact .pending merged

theorem not_in_zero : ¬ c.In 0 := by simp [In]

theorem Carried.onward (carried : c.Carried history) {n : Nat}
    (silent : ∀ d, d ≠ n → Law.SilentAt d entry)
    (nothing : (causeLaw.state n history).unmerged = 0) : c.Carried (entry :: history) := by
  obtain ⟨d, called, inside⟩ := carried
  have other : d ≠ n := by
    intro same
    rw [same, nothing] at inside
    exact not_in_zero inside
  refine ⟨d, ?_, ?_⟩
  · rw [Law.state_of_silent (silent d other)]
    exact called
  · rw [Law.state_of_silent (silent d other)]
    exact inside

/-- Only a merge takes causes out of a handler's hands, and it puts them into the pending word. -/
theorem Carried.acted (carried : c.Carried history) {depth : Nat} (op : Operation) {e : Effect}
    (answer : e.Answer) (permitted : (causeLaw.state depth history).Permits e) :
    c.Carried (.acted depth op e answer :: history) ∨ ∃ causes, e = .merge causes ∧ c.In causes := by
  obtain ⟨d, called, inside⟩ := carried
  by_cases here : depth = d
  · subst here
    have stays (grows : c.In ((causeLaw.state depth history).after e answer).unmerged) :
        c.Carried (.acted depth op e answer :: history) :=
      ⟨depth, by simpa using called, by simpa using grows⟩
    cases e with
    | merge causes =>
      right
      have all : causes = (causeLaw.state depth history).unmerged := permitted.2
      exact ⟨causes, rfl, all ▸ inside⟩
    | load offset =>
      have reader : (causeLaw.state depth history).call = some .interrupt :=
        (causeLaw.call_eq depth history).trans called
      refine .inl (stays ?_)
      unfold In at inside ⊢
      simp [Reading.after, reader, inside]
    | _ => exact .inl (stays inside)
  · exact .inl ⟨d, by simpa [here] using called, by simpa [here] using inside⟩

/-- Whoever clears a latch has read the cause, or refreshes the link. -/
theorem Carried.of_acknowledged {depth : Nat} {op : Operation} {e : Effect} {answer : e.Answer}
    (acting : causeLaw.Acting history depth op e)
    (acknowledged : (Entry.acted depth op e answer).acknowledges c) :
    c.Carried (.acted depth op e answer :: history) ∨
      c = .link ∧ ∃ d value, Entry.acted depth op e answer =
        .acted d .deferred (.load Register.macPhyStatus) value := by
  have call : (causeLaw.state depth history).call = some op :=
    (causeLaw.call_eq depth history).trans acting.called
  have goes (kept : ∀ causes, e ≠ .merge causes) (reader : op = .interrupt)
      (inside : c.In (causeLaw.state depth history).unmerged) :
      c.Carried (.acted depth op e answer :: history) := by
    have carried : c.Carried history := ⟨depth, reader ▸ acting.called, inside⟩
    rcases carried.acted op answer acting.permitted with still | ⟨causes, same, _⟩
    · exact still
    · exact absurd same (kept causes)
  cases e with
  | load offset =>
    obtain ⟨rfl, rfl⟩ := acknowledged
    rcases acting.permitted rfl with worker | ⟨reader, inside⟩
    · rw [call] at worker
      cases worker
      exact .inr ⟨rfl, depth, answer, rfl⟩
    · rw [call] at reader
      cases reader
      exact .inl (goes nofun rfl inside)
  | store offset value =>
    obtain ⟨rfl, status, bit⟩ := acknowledged
    obtain ⟨reader, subset⟩ := acting.permitted.2 rfl
    rw [call] at reader
    cases reader
    refine .inl (goes nofun rfl ?_)
    cases c with
    | link => exact absurd status (by decide)
    | channel i => exact subset _ bit
  | _ => exact acknowledged.elim

theorem In.acted {s after : Station} {depth : Nat} {e : Effect} {answer : e.Answer}
    (inside : c.In s.interrupt.pending.word) (op : Operation)
    (permitted : (causeLaw.state depth history).Permits e)
    (applied : s.apply e = .ok (answer, after)) :
    c.In after.interrupt.pending.word ∨ (Entry.acted depth op e answer).drains c := by
  rw [Station.apply_interrupt applied]
  cases e with
  | merge causes =>
    left
    unfold In at inside ⊢
    simp [Effect.interrupt, Pending.merge, inside]
  | drain =>
    right
    have word : answer = s.interrupt.pending.word := Station.apply_reads applied
    exact word ▸ inside
  | attach => exact permitted.elim
  | _ => exact .inl inside

/-- A call that has nothing in hand begins, goes on with another round, or ends. -/
theorem Accounted.turn {s : Station} (accounted : c.Accounted history later s)
    (apart : ¬ entry.acknowledges c) {n : Nat} (silent : ∀ d, d ≠ n → Law.SilentAt d entry)
    (nothing : (causeLaw.state n history).unmerged = 0) :
    c.Accounted (entry :: history) (entry :: later) s :=
  accounted.onward (fun latched => .inl ⟨latched, apart⟩) .inl
    fun carried => .inl (carried.onward silent nothing)

theorem Accounted.surround {m : Machine} {step : Step} {depth : Nat}
    (accounted : c.Accounted history later m.station) (surrounds : ∀ op, step ≠ .operation op)
    (stays : c.Latched m.station.registers → c.Latched (m.station.meet step).registers) :
    c.Accounted (.begun depth step :: history) (.begun depth step :: later)
      (m.station.meet step) := by
  refine accounted.onward (fun latched => .inl ⟨stays latched, id⟩) ?_ ?_
  · rw [Station.meet_interrupt]
    exact .inl
  · rintro ⟨d, called, inside⟩
    refine .inl ⟨d, ?_, ?_⟩
    · rw [Law.state_surround surrounds]
      exact called
    · rw [Law.state_surround surrounds]
      exact inside

theorem Accounted.act {s after : Station} {depth : Nat} {op : Operation} {e : Effect}
    {answer : e.Answer} (accounted : c.Accounted history later s)
    (device : s.registers.backing = .device) (acting : causeLaw.Acting history depth op e)
    (applied : s.apply e = .ok (answer, after)) :
    c.Accounted (.acted depth op e answer :: history) (.acted depth op e answer :: later) after := by
  have reserved : ∀ value, e ≠ .store Register.macInterruptStatus value := by
    rintro value rfl
    exact acting.permitted.1 rfl
  have latch := latched_apply (c := c) depth op device applied reserved
  refine accounted.onward (fun latched => ?_) (fun inside => ?_) fun carried => ?_
  · by_cases acknowledged : (Entry.acted depth op e answer).acknowledges c
    · exact .inr (Carried.of_acknowledged acting acknowledged)
    · exact .inl ⟨latch.mpr ⟨latched, acknowledged⟩, acknowledged⟩
  · exact inside.acted op acting.permitted applied
  · rcases carried.acted op answer acting.permitted with still | ⟨causes, rfl, inside⟩
    · exact .inl still
    · right
      rw [Station.apply_interrupt applied]
      unfold In at inside ⊢
      simp [Effect.interrupt, Pending.merge, inside]

end Cause

namespace Run

variable {start m : Machine} {history later : History} {c : Cause}

theorem cause_obeyed (m : Machine) (op : Operation) (admitted : Cause.Admits m (.operation op)) :
    (op.task m.station.target).Obeys causeLaw (fun _ => causeLaw.ends) (causeLaw.start op) :=
  causeLaw.task admitted.1 m.station.target

variable (resting : start.stack = []) (free : start.station.interrupt.lock = .free)
  (device : start.station.registers.backing = .device) (run : Run Cause.Admits start history m)

include resting free device run

theorem cause_faultless {op : Operation} {target : Target} {e : Effect} {next : e.Answer → Task}
    {below : List Frame} {cause : Fault} (top : m.stack = .running op target (.perform e next) :: below) :
    m.station.apply e ≠ .error cause := by
  intro applied
  have acting := run.acting resting cause_obeyed top
  rcases run.own_fault resting (fun _ _ admitted => admitted.1.inService) free
    (fun _ _ admitted => admitted.2) top applied with rfl | ⟨memory, _⟩
  · exact acting.permitted
  · rw [device] at memory
    cases memory

/-- A raised cause is handed to a worker, waived, latched, pending, or in a handler's hands. -/
theorem cause_accounted (since : Since start.station.registers c history later) :
    c.Accounted history later m.station := by
  refine Run.account (P := fun history s => ∀ later, Since start.station.registers c history later →
    c.Accounted history later s) ?initial ?blind ?surround ?operate ?act ?renew ?finish ?abort run
    later since
  case initial =>
    intro later since
    cases since with
    | initially latched => exact .latched latched (List.forall_mem_nil _)
  case blind =>
    intro history s trace kept later since
    cases kept later since with
    | drained handed => exact .drained handed
    | waived waived => exact .waived waived
    | latched latched kept => exact .latched latched kept
    | pending inside => exact .pending inside
    | carried carried => exact .carried carried
  case surround =>
    intro history m step below run admitted _ surrounds kept later since
    have latch : c.Latched (m.station.meet step).registers ↔
        c.Latched m.station.registers ∨ c.RaisedBy step := Cause.latched_meet ?reserved
    case reserved =>
      rintro offset value rfl
      cases c with
      | link => exact admitted.2
      | channel i => exact admitted.1
    cases since with
    | raised raises => exact .latched (latch.mpr (.inr raises)) (List.forall_mem_nil _)
    | onward since =>
      exact (kept _ since).surround surrounds fun latched => latch.mpr (.inl latched)
  case operate =>
    intro history m op below run admitted awaits kept later since
    have opening := run.opening resting cause_obeyed awaits
    cases since with
    | raised raises => exact raises.elim
    | onward since =>
      refine (kept _ since).turn (n := m.stack.length) id (fun d other => Ne.symm other) ?_
      rw [opening.idle]
      rfl
  case act =>
    intro history m op target e next below answer after run top applied kept later since
    have acting := run.acting resting cause_obeyed top
    cases since with
    | raised raises => exact raises.elim
    | onward since => exact (kept _ since).act (run.backing.trans device) acting applied
  case renew =>
    intro history m op target below run top kept later since
    obtain ⟨_, ends⟩ := run.ending resting cause_obeyed top
    cases since with
    | raised raises => exact raises.elim
    | onward since => exact (kept _ since).turn id (fun d other => Ne.symm other) ends
  case finish =>
    intro history m op target answer below run top kept later since
    obtain ⟨_, ends⟩ := run.ending resting cause_obeyed top
    cases since with
    | raised raises => exact raises.elim
    | onward since => exact (kept _ since).turn id (fun d other => Ne.symm other) ends
  case abort =>
    intro history m op target e next below cause run top applied
    exact absurd applied (run.cause_faultless resting free device top)

end Run

end EthernetMac
