import EthernetMac.Proofs.Footprint
import EthernetMac.Proofs.Solo

namespace EthernetMac

open Program

def Entry.handlerAnswer? : Entry → Option Bool
  | .ended _ .interrupt (.truth answer) => some answer
  | _ => none

def handlerAnswers (history : History) : List Bool := history.filterMap Entry.handlerAnswer?

namespace RegisterFile

variable {f : RegisterFile}

theorem set_cell_self (f : RegisterFile) (offset : Nat) : f.set offset (f.cell offset) = f := by
  have same : (f.set offset (f.cell offset)).cell = f.cell := by
    funext other
    rw [cell_set]
    split <;> simp_all
  cases f
  exact congrArg (RegisterFile.mk · _ _) same

theorem acknowledgeLink_of_clear
    (clear : MacInterruptStatus.linkStatus.test (f.cell Register.macInterruptStatus) = false) :
    f.acknowledgeLink = f := by
  have same : MacInterruptStatus.linkStatus.assign false (f.cell Register.macInterruptStatus) =
      f.cell Register.macInterruptStatus := by
    refine BitVec.eq_of_getLsbD_eq fun i _ => ?_
    rw [Field.getLsbD_assign]
    split
    · rename_i covered
      have here : i = MacInterruptStatus.linkStatus.low := by
        have below : i < MacInterruptStatus.linkStatus.low + 1 := covered.2
        have above := covered.1
        omega
      rw [here, Bool.false_and]
      exact clear.symm
    · rfl
  unfold acknowledgeLink
  rw [same, set_cell_self]

theorem set_set_of_ne (f : RegisterFile) {one other : Nat} (apart : one ≠ other)
    (value word : Word) : (f.set one value).set other word = (f.set other word).set one value := by
  unfold set
  congr 1
  funext offset
  by_cases first : offset = one
  · simp [first, apart]
  · simp [first]

def acknowledged (f : RegisterFile) : RegisterFile :=
  f.acknowledgeLink.set Register.channelStatus 0

@[simp] theorem acknowledged_cell_of_ne {offset : Nat}
    (link : offset ≠ Register.macInterruptStatus) (channel : offset ≠ Register.channelStatus) :
    f.acknowledged.cell offset = f.cell offset :=
  (cell_set_of_ne _ _ channel).trans (cell_set_of_ne _ _ link)

theorem acknowledged_set {offset : Nat} (link : offset ≠ Register.macInterruptStatus)
    (channel : offset ≠ Register.channelStatus) (value : Word) :
    (f.set offset value).acknowledged = f.acknowledged.set offset value := by
  unfold acknowledged acknowledgeLink
  rw [cell_set_of_ne f value (Ne.symm link), set_set_of_ne f link,
    set_set_of_ne _ channel]

end RegisterFile

theorem Counters.bump_bump (counters : Counters) (one other : Counter) :
    (counters.bump one).bump other = (counters.bump other).bump one := by
  funext counter
  unfold bump
  split <;> split <;> rfl

/-- Actions that do not see what a handler does, and change nothing that it sees. -/
def Effect.Elsewhere : Effect → Prop
  | .load offset => offset = Register.macConfiguration
  | .store offset _ => offset ≠ Register.macInterruptStatus ∧ offset ≠ Register.channelStatus
  | .merge _ | .drain | .attach _ | .detach => False
  | _ => True

namespace Station

def raised (s : Station) : Bool :=
  MacInterruptStatus.linkStatus.test (s.registers.cell Register.macInterruptStatus) ||
    s.registers.cell Register.channelStatus != 0

def causes (s : Station) : Word :=
  s.registers.cell Register.channelStatus |||
    if MacInterruptStatus.linkStatus.test (s.registers.cell Register.macInterruptStatus) then linkCause
    else 0

def handled (s : Station) : Station :=
  { s with
    registers := s.registers.acknowledged
    interrupt :=
      { s.interrupt with
        pending := s.interrupt.pending.merge s.causes
        counters := s.interrupt.counters.bump (if s.raised then .handled else .ignored) } }

end Station

namespace Program

variable {α : Type} {s after : Station}

theorem run_act_bind {e : Effect} {answer : e.Answer} (f : e.Answer → Program α)
    (performed : s.perform e = .ok (answer, after)) :
    (act e >>= f).run s = (f answer).run after := by
  change (perform e f).interpret _ _ = _
  rw [interpret, performed]
  rfl

theorem run_bind {β : Type} {p : Program α} {value : α} (ran : p.run s = (.ok value, after))
    (f : α → Program β) : (p >>= f).run s = (f value).run after := by
  unfold Program.run at ran ⊢
  rw [interpret_bind, ran]

theorem run_load_bind (offset : Nat) (f : Word → Program α)
    (device : s.registers.backing = .device) :
    (load offset >>= f).run s =
      (f ((s.registers.afterRead offset).cell offset)).run
        { s with
          registers := s.registers.afterRead offset
          trace := .read offset ((s.registers.afterRead offset).cell offset) :: s.trace } := by
  refine run_act_bind (e := .load offset) f ?_
  simp [Station.perform_eq, Station.apply, RegisterFile.read?, device, Effect.event?, Except.map]

theorem run_store_bind (offset : Nat) (value : Word) (f : Unit → Program α)
    (device : s.registers.backing = .device) :
    (store offset value >>= f).run s = (f ()).run
      { s with
        registers := s.registers.writing offset value
        trace := .write offset value :: s.trace } := by
  refine run_act_bind (e := .store offset value) f ?_
  by_cases here : offset = Register.channelStatus <;>
    simp [Station.perform_eq, Station.apply, RegisterFile.write?, RegisterFile.writing, device, here,
      Effect.event?, Except.map]

end Program

namespace Interrupt

variable {s : Station} {α : Type}

theorem run_acknowledgeLink (device : s.registers.backing = .device) (f : Unit → Program α) :
    ∃ trace,
      (onlyIf (MacInterruptStatus.linkStatus.test (s.registers.cell Register.macInterruptStatus))
        (discard (load Register.macPhyStatus)) >>= f).run s =
      (f ()).run { s with registers := s.registers.acknowledgeLink, trace } := by
  cases link : MacInterruptStatus.linkStatus.test (s.registers.cell Register.macInterruptStatus) with
  | false =>
    refine ⟨s.trace, ?_⟩
    rw [RegisterFile.acknowledgeLink_of_clear link]
    rfl
  | true => exact ⟨_, run_load_bind Register.macPhyStatus (fun _ => f ()) device⟩

theorem run_acknowledgeChannel (device : s.registers.backing = .device) (f : Unit → Program α) :
    ∃ trace,
      (onlyIf (s.registers.cell Register.channelStatus != 0)
        (store Register.channelStatus (s.registers.cell Register.channelStatus)) >>= f).run s =
      (f ()).run { s with registers := s.registers.set Register.channelStatus 0, trace } := by
  by_cases clear : s.registers.cell Register.channelStatus = 0
  · refine ⟨s.trace, ?_⟩
    have same : s.registers.set Register.channelStatus 0 = s.registers := by
      rw [← clear, RegisterFile.set_cell_self]
    rw [clear, same]
    rfl
  · have set : (s.registers.cell Register.channelStatus != 0) = true := bne_iff_ne.mpr clear
    have written : s.registers.writing Register.channelStatus
        (s.registers.cell Register.channelStatus) = s.registers.set Register.channelStatus 0 := by
      rw [RegisterFile.writing_channelStatus device, BitVec.and_not_self]
    rw [set, ← written]
    exact ⟨_, run_store_bind _ _ f device⟩

theorem handled_of_clear (clear : s.raised = false) :
    s.handled = s.mapInterrupt ({ · with counters := s.interrupt.counters.bump .ignored }) := by
  obtain ⟨noLink, noChannel⟩ := Bool.or_eq_false_iff.mp clear
  have empty : s.registers.cell Register.channelStatus = 0 := by simpa using noChannel
  have same : s.registers.acknowledged = s.registers := by
    unfold RegisterFile.acknowledged
    rw [RegisterFile.acknowledgeLink_of_clear noLink, ← empty, RegisterFile.set_cell_self]
  have nothing : s.causes = 0 := by
    unfold Station.causes
    rw [noLink, empty]
    rfl
  unfold Station.handled
  rw [same, nothing, clear]
  simp [Pending.merge, Station.mapInterrupt]

theorem found_run (device : s.registers.backing = .device) (found : s.raised = true)
    (earlier : List Event) :
    ∃ trace,
      (do
        onlyIf (MacInterruptStatus.linkStatus.test (s.registers.cell Register.macInterruptStatus))
          (discard (load Register.macPhyStatus))
        onlyIf (s.registers.cell Register.channelStatus != 0)
          (store Register.channelStatus (s.registers.cell Register.channelStatus))
        act (.merge s.causes)
        act .schedule
        act (.count .handled)
        return true : Program Bool).run { s with trace := earlier } =
        (.ok true, { s.handled with trace }) := by
  obtain ⟨linkTrace, linked⟩ := run_acknowledgeLink (s := { s with trace := earlier }) device fun _ => do
    onlyIf (s.registers.cell Register.channelStatus != 0)
      (store Register.channelStatus (s.registers.cell Register.channelStatus))
    act (.merge s.causes)
    act .schedule
    act (.count .handled)
    return true
  obtain ⟨channelTrace, acknowledged⟩ := run_acknowledgeChannel
    (s := { s with registers := s.registers.acknowledgeLink, trace := linkTrace }) device fun _ => do
      act (.merge s.causes)
      act .schedule
      act (.count .handled)
      return true
  have untouched : s.registers.acknowledgeLink.cell Register.channelStatus =
      s.registers.cell Register.channelStatus :=
    RegisterFile.cell_set_of_ne _ _ (by decide)
  simp only [untouched] at acknowledged
  rw [linked, acknowledged]
  unfold Station.handled
  rw [found]
  exact ⟨_, (run_act_bind _ rfl).trans ((run_act_bind _ rfl).trans (run_act_bind _ rfl))⟩

/-- A handler answers whether it finds a cause. -/
theorem handle_run (device : s.registers.backing = .device) :
    ∃ trace, handle.run s = (.ok s.raised, { s.handled with trace }) := by
  have link : s.registers.afterRead Register.macInterruptStatus = s.registers := rfl
  have channel : s.registers.afterRead Register.channelStatus = s.registers := rfl
  have clear : (!MacInterruptStatus.linkStatus.test (s.registers.cell Register.macInterruptStatus) &&
      s.registers.cell Register.channelStatus == 0) = !s.raised := by
    simp [Station.raised, bne]
  unfold handle
  rw [run_load_bind _ _ device, run_load_bind _ _ (by exact device)]
  simp only [link, channel, clear]
  cases raised : s.raised with
  | false =>
    rw [handled_of_clear raised]
    exact ⟨_, run_act_bind _ rfl⟩
  | true =>
    rw [if_neg (by decide)]
    exact found_run device raised _

theorem once_run (device : s.registers.backing = .device) :
    ∃ trace, (Task.once handle .truth).run s =
      (.ok (.finished (.truth s.raised)), { s.handled with trace }) := by
  obtain ⟨trace, ran⟩ := handle_run device
  exact ⟨trace, run_bind ran _⟩

end Interrupt

namespace Station

variable {s after : Station} {e : Effect} {answer : e.Answer}

theorem apply_causes (elsewhere : e.Elsewhere)
    (applied : s.apply e = .ok (answer, after)) :
    after.raised = s.raised ∧ after.causes = s.causes := by
  have kept (offset : Nat) (either : offset = Register.macInterruptStatus ∨
      offset = Register.channelStatus) :
      after.registers.cell offset = s.registers.cell offset := by
    cases e with
    | load =>
      cases elsewhere
      rw [apply_registers applied]
      refine RegisterFile.reading_cell_of_ne ?_ nofun
      rcases either with rfl | rfl <;> decide
    | store other value =>
      refine store_cell applied ?_
      rcases either with rfl | rfl
      · exact Ne.symm elsewhere.1
      · exact Ne.symm elsewhere.2
    | _ =>
      rw [apply_registers applied]
      rfl
  unfold raised causes
  rw [kept _ (.inl rfl), kept _ (.inr rfl)]
  exact ⟨rfl, rfl⟩

/-- A handler leaves the way to an action elsewhere, with its answer or its fault, as it is. -/
theorem apply_handled (device : s.registers.backing = .device) (elsewhere : e.Elsewhere) :
    s.handled.apply e = (s.apply e).map fun reply => (reply.1, reply.2.handled) := by
  have device' : s.handled.registers.backing = .device := device
  cases e with
  | load offset =>
    cases elsewhere
    have same : s.handled.registers.cell Register.macConfiguration =
        s.registers.cell Register.macConfiguration :=
      RegisterFile.acknowledged_cell_of_ne (by decide) (by decide)
    have plain (f : RegisterFile) : f.afterRead Register.macConfiguration = f := rfl
    simp only [apply, RegisterFile.read?, device, device', plain, same]
    rfl
  | store offset value =>
    have apart := elsewhere
    obtain ⟨link, channel⟩ := apart
    have aside : s.handled.registers.set offset value = (s.registers.set offset value).acknowledged :=
      (RegisterFile.acknowledged_set link channel value).symm
    have applied : s.apply (.store offset value) =
        .ok ((), { s with registers := s.registers.set offset value }) := by
      simp only [apply, RegisterFile.write?, device, if_neg channel]
    obtain ⟨raised, causes⟩ := apply_causes elsewhere applied
    rw [applied]
    simp only [apply, RegisterFile.write?, device', if_neg channel, aside, Except.map]
    unfold handled
    rw [raised, causes]
  | merge | drain | attach | detach => exact elsewhere.elim
  | acquire =>
    simp only [apply, show s.handled.interrupt.lock = s.interrupt.lock from rfl]
    cases s.interrupt.lock.write? <;> rfl
  | wanted | armed =>
    simp only [apply, show s.handled.interrupt.lock = s.interrupt.lock from rfl]
    cases s.interrupt.lock.read? <;> rfl
  | count counter =>
    simp only [apply, Except.map, mapInterrupt, handled]
    rw [Counters.bump_bump]
    rfl
  | _ => rfl

end Station

end EthernetMac
