import EthernetMac.Proofs.Interrupt.Edits

/-! Between the operations the wanted mask is what its edits made of it, and the two enable registers
hold what the mask asks for. -/

namespace EthernetMac

/-- Interrupt handling is there, nobody else writes the enable registers, and nothing that takes the
lock begins while it is held. -/
def Edit.Admits (m : Machine) : Step → Prop
  | .set offset _ =>
    offset ≠ Register.macInterruptEnable ∧ offset ≠ Register.channelInterruptEnable
  | .operation op =>
    op.Coordinating ∧ m.station.target ≠ .noDevice ∧
      (op.takesLock = true → m.station.interrupt.lock = .free)
  | _ => True

def Changing : List InterruptMask → Prop
  | [] => True
  | mask :: earlier => mask ≠ earlier.headD .none ∧ Changing earlier

namespace EditPhase

def Unmade (history : History) (wanted : InterruptMask) (edit : Edit) : Prop :=
  ∃ earlier, edits history = edit :: earlier ∧ wanted = maskOf earlier ∧
    enableWrites history = (masksSet history).flatMap enablePair

/-- How the mask and the writes stand when a section has come this far. -/
def Fits (history : History) (wanted : InterruptMask) : EditPhase → Prop
  | out | settled =>
    wanted = maskOf (edits history) ∧ enableWrites history = (masksSet history).flatMap enablePair
  | entered edit => Unmade history wanted edit
  | asked edit mask => mask = wanted ∧ Unmade history wanted edit
  | seen edit mask old => mask = wanted ∧ old = wanted ∧ Unmade history wanted edit
  | set mask => wanted = maskOf (edits history) ∧ ∃ earlier, masksSet history = mask :: earlier ∧
      enableWrites history = earlier.flatMap enablePair
  | half mask => wanted = maskOf (edits history) ∧ ∃ earlier, masksSet history = mask :: earlier ∧
      enableWrites history =
        (Register.macInterruptEnable, mask.macEnable) :: earlier.flatMap enablePair

variable {history : History} {s : Station} {q : EditState} {e : Effect} {answer : e.Answer}

theorem Fits.store {offset : Nat} {value : Word} (depth : Nat) (op : Operation)
    (permitted : q.Permits (.store offset value)) (fits : q.phase.Fits history s.interrupt.wanted) :
    (q.after (.store offset value) ()).phase.Fits
      (.acted depth op (.store offset value) () :: history) s.interrupt.wanted := by
  obtain ⟨inside, first, second⟩ := permitted
  by_cases mac : offset = Register.macInterruptEnable
  · obtain ⟨mask, phase, rfl⟩ := first mac
    subst mac
    rw [phase] at fits
    obtain ⟨wanted, earlier, masks, writes⟩ := fits
    have after : (q.after (.store Register.macInterruptEnable mask.macEnable) ()).phase =
        .half mask := by
      simp [EditState.after, phase, EditState.onward]
    rw [after]
    exact ⟨wanted, earlier, masks, congrArg _ writes⟩
  · by_cases channel : offset = Register.channelInterruptEnable
    · obtain ⟨mask, phase, rfl⟩ := second channel
      subst channel
      rw [phase] at fits
      obtain ⟨wanted, earlier, masks, writes⟩ := fits
      have after : (q.after (.store Register.channelInterruptEnable mask.channelEnable) ()).phase =
          .settled := by
        simp [EditState.after, phase, EditState.onward]
      rw [after]
      refine ⟨wanted, (congrArg _ writes).trans ?_⟩
      change _ = (masksSet history).flatMap enablePair
      rw [masks]
      rfl
    · have stays : q.after (.store offset value) () = q :=
        (editLaw.of_unrelated (.store offset value) ⟨inside, mac, channel⟩).2 ()
      have silent : enableWrites (.acted depth op (.store offset value) () :: history) =
          enableWrites history := by
        simp [enableWrites, Entry.enableWrite?, mac, channel]
      rw [stays]
      unfold Fits Unmade at *
      rw [silent]
      exact fits

theorem Fits.act (depth : Nat) (op : Operation) (reads : e.Reads s answer)
    (permitted : q.Permits e) (inside : e ≠ .acquire)
    (fits : q.phase.Fits history s.interrupt.wanted) :
    (q.after e answer).phase.Fits (.acted depth op e answer :: history)
      (e.interrupt s.interrupt).wanted := by
  cases e with
  | acquire => exact absurd rfl inside
  | attach | fault => exact permitted.elim
  | store offset value => exact fits.store depth op permitted
  | mask =>
    rcases permitted with ⟨edit, phase⟩ | ⟨edit, mask, phase⟩
    · simp only [EditState.after, phase, EditState.onward] at fits ⊢
      exact ⟨reads, fits⟩
    · simp only [EditState.after, phase, EditState.onward] at fits ⊢
      exact ⟨fits.1, reads, fits.2⟩
  | setMask new =>
    obtain ⟨edit, mask, old, phase, rfl, differs⟩ := permitted
    simp only [EditState.after, phase, EditState.onward] at fits ⊢
    obtain ⟨rfl, _, earlier, whole, wanted, writes⟩ := fits
    refine ⟨?_, _, rfl, writes⟩
    change edit.apply s.interrupt.wanted = maskOf (edits history)
    rw [whole, maskOf, wanted]
  | release =>
    change Fits (.acted depth op .release () :: history) s.interrupt.wanted .out
    rcases permitted with phase | ⟨edit, mask, old, phase, same⟩
    · rw [phase] at fits
      exact fits
    · rw [phase] at fits
      obtain ⟨rfl, rfl, earlier, whole, wanted, writes⟩ := fits
      refine ⟨?_, writes⟩
      change s.interrupt.wanted = maskOf (edits history)
      rw [whole, maskOf, ← wanted]
      exact same
  | _ => exact fits

/-- Outside the sections nothing touches the mask or the enable registers. -/
theorem idle_act (depth : Nat) (op : Operation) (out : q.phase = .out) (permitted : q.Permits e)
    (inside : e ≠ .acquire) :
    (q.after e answer).phase = .out ∧
      (e.interrupt s.interrupt).wanted = s.interrupt.wanted ∧
      edits (.acted depth op e answer :: history) = edits history ∧
      masksSet (.acted depth op e answer :: history) = masksSet history ∧
      enableWrites (.acted depth op e answer :: history) = enableWrites history := by
  cases e with
  | acquire => exact absurd rfl inside
  | attach | fault => exact permitted.elim
  | mask => simp [EditState.Permits, out] at permitted
  | setMask new => simp [EditState.Permits, out] at permitted
  | release => simp [EditState.Permits, out] at permitted
  | store offset value =>
    obtain ⟨_, mac, channel⟩ := permitted
    simp only [out, reduceCtorEq, false_and, exists_false, imp_false] at mac channel
    refine ⟨?_, rfl, rfl, rfl, ?_⟩
    · simp [EditState.after, out]
    · simp [enableWrites, Entry.enableWrite?, mac, channel]
  | _ => exact ⟨out, rfl, rfl, rfl, rfl⟩

end EditPhase

structure MaskAgrees (start : RegisterFile) (history : History) (s : Station) : Prop where
  single : ∃ holder, (∀ depth, depth ≠ holder → (editLaw.state depth history).phase = .out) ∧
    (editLaw.state holder history).phase.Fits history s.interrupt.wanted
  last : s.interrupt.wanted = (masksSet history).headD .none
  changing : Changing (masksSet history)
  written : ∀ offset,
    offset = Register.macInterruptEnable ∨ offset = Register.channelInterruptEnable →
      s.registers.cell offset =
        ((enableWrites history).lookup offset).getD (start.cell offset)

namespace MaskAgrees

variable {start : RegisterFile} {history : History} {s after : Station} {entry : Entry}

theorem onward (agrees : MaskAgrees start history s)
    (silent : edits (entry :: history) = edits history ∧
      masksSet (entry :: history) = masksSet history ∧
      enableWrites (entry :: history) = enableWrites history)
    (phases : ∀ depth, (editLaw.state depth (entry :: history)).phase =
      (editLaw.state depth history).phase)
    (mask : after.interrupt.wanted = s.interrupt.wanted)
    (cells : ∀ offset,
      offset = Register.macInterruptEnable ∨ offset = Register.channelInterruptEnable →
        after.registers.cell offset = s.registers.cell offset) :
    MaskAgrees start (entry :: history) after := by
  obtain ⟨noEdit, noMask, noWrite⟩ := silent
  obtain ⟨holder, others, fits⟩ := agrees.single
  refine ⟨⟨holder, fun depth apart => ?_, ?_⟩, ?_, ?_, fun offset enable => ?_⟩
  · rw [phases]
    exact others depth apart
  · rw [phases, mask]
    unfold EditPhase.Fits EditPhase.Unmade at *
    rw [noEdit, noMask, noWrite]
    exact fits
  · rw [mask, noMask]
    exact agrees.last
  · rw [noMask]
    exact agrees.changing
  · rw [cells offset enable, noWrite]
    exact agrees.written offset enable

variable {n : Nat} {op : Operation} {e : Effect} {answer : e.Answer}

theorem turn (agrees : MaskAgrees start history s)
    (others : ∀ depth, depth ≠ n → Law.SilentAt depth entry)
    (silent : edits (entry :: history) = edits history ∧
      masksSet (entry :: history) = masksSet history ∧
      enableWrites (entry :: history) = enableWrites history)
    (before : (editLaw.state n history).phase = .out)
    (afterwards : (editLaw.state n (entry :: history)).phase = .out) :
    MaskAgrees start (entry :: history) s := by
  refine agrees.onward silent (fun depth => ?_) rfl fun _ _ => rfl
  by_cases here : depth = n
  · rw [here, afterwards, before]
  · rw [Law.state_of_silent (others depth here)]

theorem written_act (agrees : MaskAgrees start history s)
    (applied : s.apply e = .ok (answer, after)) {offset : Nat}
    (enable : offset = Register.macInterruptEnable ∨ offset = Register.channelInterruptEnable) :
    after.registers.cell offset =
      ((enableWrites (.acted n op e answer :: history)).lookup offset).getD (start.cell offset) := by
  rw [Station.apply_registers applied]
  cases e with
  | load other =>
    have kept : (s.registers.reading other).cell offset = s.registers.cell offset := by
      apply RegisterFile.reading_cell_of_ne
      · rcases enable with rfl | rfl <;> decide
      · intro _
        rcases enable with rfl | rfl <;> decide
    exact kept.trans (agrees.written offset enable)
  | store other value =>
    by_cases same : offset = other
    · subst same
      have apart : offset ≠ Register.channelStatus := by rcases enable with rfl | rfl <;> decide
      have log : enableWrites (.acted n op (.store offset value) answer :: history) =
          (offset, value) :: enableWrites history := by
        simp [enableWrites, Entry.enableWrite?, enable]
      rw [log, List.lookup_cons_self, Option.getD_some]
      change (s.registers.writing offset value).cell offset = value
      rw [RegisterFile.writing_of_ne apart]
      exact RegisterFile.cell_set_self ..
    · have kept : (s.registers.writing other value).cell offset = s.registers.cell offset :=
        RegisterFile.writing_cell_of_ne same value
      refine kept.trans ((agrees.written offset enable).trans ?_)
      by_cases logged : other = Register.macInterruptEnable ∨
          other = Register.channelInterruptEnable
      · have log : enableWrites (.acted n op (.store other value) answer :: history) =
            (other, value) :: enableWrites history := by
          simp [enableWrites, Entry.enableWrite?, logged]
        rw [log, List.lookup_cons, beq_false_of_ne same]
      · simp [enableWrites, Entry.enableWrite?, logged]
  | _ => exact agrees.written offset enable

theorem changing_act (agrees : MaskAgrees start history s) {q : EditState}
    (permitted : q.Permits e) (fits : q.phase.Fits history s.interrupt.wanted) :
    (e.interrupt s.interrupt).wanted =
        (masksSet (.acted n op e answer :: history)).headD .none ∧
      Changing (masksSet (.acted n op e answer :: history)) := by
  cases e with
  | setMask new =>
    obtain ⟨edit, mask, old, phase, _, differs⟩ := permitted
    rw [phase] at fits
    obtain ⟨_, rfl, _⟩ := fits
    exact ⟨rfl, agrees.last ▸ Ne.symm differs, agrees.changing⟩
  | attach => exact permitted.elim
  | _ => exact ⟨agrees.last, agrees.changing⟩

theorem enter {edit : Edit} {answer : Unit} (agrees : MaskAgrees start history s)
    (applied : s.apply .acquire = .ok (answer, after))
    (called : calls.state n history = some op)
    (makes : op.edit? (drains.state n history) = some edit)
    (quiet : ∀ depth, (editLaw.state depth history).phase = .out) :
    MaskAgrees start (.acted n op .acquire answer :: history) after := by
  obtain ⟨holder, _, fits⟩ := agrees.single
  rw [quiet holder] at fits
  have interrupt := Station.apply_interrupt applied
  refine ⟨⟨n, fun depth apart => ?_, ?_⟩, ?_, agrees.changing,
    fun _ enable => agrees.written_act applied enable⟩
  · simpa [Ne.symm apart] using quiet depth
  · have entered : (editLaw.state n (.acted n op .acquire answer :: history)).phase =
        .entered edit := by
      have call := (editLaw.call_eq n history).trans called
      have handed := editLaw.handed_eq n history
      simp [EditState.after, call, handed, makes]
    rw [entered, interrupt]
    refine ⟨edits history, ?_, fits⟩
    simp [edits, makes]
  · rw [interrupt]
    exact agrees.last

theorem act_inside (agrees : MaskAgrees start history s)
    (others : ∀ depth, depth ≠ n → (editLaw.state depth history).phase = .out)
    (fits : (editLaw.state n history).phase.Fits history s.interrupt.wanted)
    (permitted : (editLaw.state n history).Permits e) (goesOn : e ≠ .acquire)
    (applied : s.apply e = .ok (answer, after)) :
    MaskAgrees start (.acted n op e answer :: history) after := by
  obtain ⟨last, changing⟩ := agrees.changing_act permitted fits
  refine ⟨⟨n, fun depth apart => ?_, ?_⟩, ?_, changing,
    fun _ enable => agrees.written_act applied enable⟩
  · simpa [Ne.symm apart] using others depth apart
  · rw [Station.apply_interrupt applied, Law.state_acted, if_pos rfl]
    exact fits.act _ op (Station.apply_reads applied) permitted goesOn
  · rw [Station.apply_interrupt applied]
    exact last

theorem act_outside (agrees : MaskAgrees start history s)
    (out : (editLaw.state n history).phase = .out)
    (permitted : (editLaw.state n history).Permits e) (goesOn : e ≠ .acquire)
    (applied : s.apply e = .ok (answer, after)) :
    MaskAgrees start (.acted n op e answer :: history) after := by
  obtain ⟨stays, mask, silent⟩ := EditPhase.idle_act n op out permitted goesOn
  refine agrees.onward silent (fun depth => ?_) ?_ fun offset enable => ?_
  · by_cases own : n = depth
    · subst own
      rw [Law.state_acted, if_pos rfl, out]
      exact stays
    · simp [own]
  · rw [Station.apply_interrupt applied]
    exact mask
  · rw [agrees.written offset enable, agrees.written_act applied enable, silent.2.2]

theorem surround {m : Machine} {step : Step} (agrees : MaskAgrees start history m.station)
    (admitted : Edit.Admits m step) (surrounds : ∀ op, step ≠ .operation op) :
    MaskAgrees start (.begun n step :: history) (m.station.meet step) := by
  refine agrees.onward ⟨rfl, rfl, rfl⟩ (fun depth => ?_) ?_ fun offset enable => ?_
  · rw [Law.state_surround surrounds]
  · rw [Station.meet_interrupt]
  · cases step with
    | set other value =>
      obtain ⟨mac, channel⟩ := admitted
      refine RegisterFile.cell_set_of_ne _ _ ?_
      rcases enable with rfl | rfl
      · exact Ne.symm mac
      · exact Ne.symm channel
    | raiseChannel | raiseLink =>
      refine RegisterFile.cell_set_of_ne _ _ ?_
      rcases enable with rfl | rfl <;> decide
    | _ => rfl

end MaskAgrees

namespace Run

variable {start m : Machine} {history : History}

theorem edit_obeyed (m : Machine) (op : Operation) (admitted : Edit.Admits m (.operation op)) :
    (op.task m.station.target).Obeys editLaw (fun _ => editLaw.ends) (editLaw.start op) :=
  editLaw.task admitted.1 admitted.2.1

variable (resting : start.stack = []) (new : start.station.interrupt = {})
  (run : Run Edit.Admits start history m)

include resting run

theorem mask_act {file : RegisterFile} (single : SingleHolder m.station.interrupt.lock history)
    (agrees : MaskAgrees file history m.station) {op : Operation} {target : Target} {e : Effect}
    {next : e.Answer → Task} {below : List Frame} {answer : e.Answer} {after : Station}
    (top : m.stack = .running op target (.perform e next) :: below)
    (applied : m.station.apply e = .ok (answer, after)) :
    MaskAgrees file (.acted below.length op e answer :: history) after := by
  have acting := run.acting resting edit_obeyed top
  obtain ⟨holder, others, fits⟩ := agrees.single
  by_cases begins : e = .acquire
  · subst begins
    -- A section begins where no other is under way: the lock was free.
    rw [Station.apply_acquire applied] at single
    obtain ⟨_, caller, edit, called, makes⟩ := acting.permitted
    rw [editLaw.call_eq, acting.called] at called
    cases called
    rw [editLaw.handed_eq] at makes
    refine agrees.enter applied acting.called makes ?_
    intro depth
    exact (editLaw.out_or_holding depth history).resolve_right (single.none_of_free depth)
  · by_cases here : below.length = holder
    · subst here
      exact agrees.act_inside others fits acting.permitted begins applied
    · exact agrees.act_outside (others below.length here) acting.permitted begins applied

include new

theorem mask_agrees : MaskAgrees start.station.registers history m.station := by
  have free : start.station.interrupt.lock = .free := by rw [new]
  have inService : ∀ m op, Edit.Admits m (.operation op) → op.InService :=
    fun _ _ admitted => admitted.1.inService
  refine Run.account (P := MaskAgrees start.station.registers) ?initial ?blind ?surround ?operate
    ?act ?renew ?finish ?abort run
  case initial =>
    refine ⟨⟨0, fun _ _ => rfl, ?_⟩, ?_, trivial, fun _ _ => rfl⟩
    · rw [new]
      exact ⟨rfl, rfl⟩
    · rw [new]
      rfl
  case blind =>
    intro history s trace agrees
    exact ⟨agrees.single, agrees.last, agrees.changing, agrees.written⟩
  case surround =>
    intro history m step below run admitted _ surrounds agrees
    exact agrees.surround admitted surrounds
  case operate =>
    intro history m op below run admitted awaits agrees
    have opening := run.opening resting edit_obeyed awaits
    refine agrees.turn (n := m.stack.length) (fun _ other => Ne.symm other) ⟨rfl, rfl, rfl⟩ ?_ ?_
    · rw [opening.idle]
      rfl
    · simp
  case act =>
    intro history m op target e next below answer after run top applied agrees
    exact run.mask_act resting (run.single resting inService free) agrees top applied
  case renew =>
    intro history m op target below run top agrees
    obtain ⟨_, ends⟩ := run.ending resting edit_obeyed top
    refine agrees.turn (n := below.length) (fun _ other => Ne.symm other) ⟨rfl, rfl, rfl⟩ ends.1 ?_
    simp
  case finish =>
    intro history m op target answer below run top agrees
    obtain ⟨_, ends⟩ := run.ending resting edit_obeyed top
    refine agrees.turn (n := below.length) (fun _ other => Ne.symm other) ⟨rfl, rfl, rfl⟩ ends.1 ?_
    simp
  case abort =>
    intro history m op target e next below cause run top applied
    have acting := run.acting resting edit_obeyed top
    rcases run.own_fault resting inService free (fun _ _ admitted => admitted.2.2) top applied with
      rfl | ⟨_, offset, outside, rfl | ⟨value, rfl⟩⟩
    · exact acting.permitted.elim
    · exact absurd acting.permitted outside
    · exact absurd acting.permitted.1 outside

/-- The mask is the one that was set last, and each one set was a change. Every operation makes its
edit, and between the operations the mask is what the last edit of each category made of it, the
enable registers hold what it asks for once it has ever changed, and each change was written to
both, once. -/
theorem mask_settled :
    (m.station.interrupt.wanted = (masksSet history).headD .none ∧ Changing (masksSet history)) ∧
      Rounds Made history ∧
      (m.stack = [] →
        InterruptMask.all.contains m.station.interrupt.wanted = true ∧
        (masksSet history = [] → ∀ offset,
          offset = Register.macInterruptEnable ∨ offset = Register.channelInterruptEnable →
            m.station.registers.cell offset = start.station.registers.cell offset) ∧
        (masksSet history ≠ [] →
          m.station.registers.cell Register.macInterruptEnable =
              m.station.interrupt.wanted.macEnable ∧
            m.station.registers.cell Register.channelInterruptEnable =
              m.station.interrupt.wanted.channelEnable) ∧
        (∀ c, m.station.interrupt.wanted.has c = true ↔
          ∃ edit, (edits history).find? (·.bits.has c) = some edit ∧ edit.adds = true) ∧
        enableWrites history = (masksSet history).flatMap enablePair) := by
  have agrees := run.mask_agrees resting new
  refine ⟨⟨agrees.last, agrees.changing⟩, run.rounds resting edit_obeyed editLaw.made_of_ends,
    fun idle => ?_⟩
  obtain ⟨holder, _, fits⟩ := agrees.single
  obtain ⟨_, empty⟩ := run.governs resting edit_obeyed
  have out : editLaw.state holder history = editLaw.idle := (empty holder (by simp [idle])).1
  rw [out] at fits
  obtain ⟨wanted, writes⟩ := fits
  refine ⟨?_, fun unset offset enable => ?_, fun changed => ?_, fun c => ?_, writes⟩
  · obtain ⟨x, y, z⟩ := m.station.interrupt.wanted
    cases x <;> cases y <;> cases z <;> rfl
  · rw [agrees.written offset enable, writes, unset]
    rfl
  · obtain ⟨mask, earlier, masks⟩ := List.exists_cons_of_ne_nil changed
    have last := agrees.last
    rw [masks] at last writes
    rw [agrees.written _ (.inl rfl), agrees.written _ (.inr rfl), writes, last]
    exact ⟨rfl, rfl⟩
  · rw [wanted]
    exact has_maskOf _ c

end Run

def unmasked : Machine where
  station := { registers := { cell := fun _ => 7, backing := .memory }, target := .interrupts }

theorem Run.mask_settled_receiveOnly :
    let m := Machine.advanceFor 20 (unmasked.begin (.operation (.enable .receiveOnly)))
    m.stack = [] ∧ m.station.interrupt.wanted = .receiveOnly ∧
      m.station.registers.cell Register.macInterruptEnable = InterruptMask.receiveOnly.macEnable ∧
      m.station.registers.cell Register.channelInterruptEnable =
        InterruptMask.receiveOnly.channelEnable := by
  have begun : Run Edit.Admits unmasked _ (unmasked.begin (.operation (.enable .receiveOnly))) :=
    Run.refl.begin rfl ⟨trivial, nofun, fun _ => rfl⟩
  have finish := begun.advances 20 ⟨rfl, by rintro _ (_ | ⟨_, ⟨⟩⟩) _ ⟨⟩⟩
  obtain ⟨_, _, settled⟩ := finish.mask_settled rfl rfl
  obtain ⟨_, _, enables, _⟩ := settled rfl
  exact ⟨rfl, rfl, enables nofun⟩

end EthernetMac
