import EthernetMac.Proofs.History

namespace EthernetMac

namespace RegisterFile

def reading (f : RegisterFile) (offset : Nat) : RegisterFile :=
  match f.backing with
  | .memory => f
  | .device => f.afterRead offset

def writing (f : RegisterFile) (offset : Nat) (value : Word) : RegisterFile :=
  match f.backing with
  | .memory => f.set offset value
  | .device =>
    if offset = Register.channelStatus then f.set offset (f.cell offset &&& ~~~value)
    else f.set offset value

theorem read?_eq_some {f after : RegisterFile} {offset : Nat} {value : Word}
    (read : f.read? offset = some (value, after)) :
    after = f.reading offset ∧ value = after.cell offset := by
  unfold read? at read
  unfold reading
  cases backing : f.backing with
  | memory =>
    rw [backing] at read
    dsimp only at read
    split at read
    · cases read
      exact ⟨rfl, rfl⟩
    · cases read
  | device =>
    rw [backing] at read
    cases read
    exact ⟨rfl, rfl⟩

theorem write?_eq_some {f after : RegisterFile} {offset : Nat} {value : Word}
    (written : f.write? offset value = some after) : after = f.writing offset value := by
  unfold write? at written
  unfold writing
  cases backing : f.backing with
  | memory =>
    rw [backing] at written
    dsimp only at written
    split at written <;> cases written
    rfl
  | device =>
    rw [backing] at written
    dsimp only at written ⊢
    split at written <;> cases written <;> simp_all

variable {f : RegisterFile}

theorem reading_backing (offset : Nat) : (f.reading offset).backing = f.backing := by
  unfold reading afterRead acknowledgeLink advanceReset set
  split
  · rfl
  · simp only
    split
    · rfl
    · split
      · split
        · split <;> rfl
        · rfl
      · rfl

theorem writing_backing (offset : Nat) (value : Word) :
    (f.writing offset value).backing = f.backing := by
  unfold writing set
  split
  · rfl
  · split <;> rfl

theorem reading_cell_of_ne {offset other : Nat} (mode : other ≠ Register.dmaMode)
    (link : offset = Register.macPhyStatus → other ≠ Register.macInterruptStatus) :
    (f.reading offset).cell other = f.cell other := by
  unfold reading afterRead
  split
  · rfl
  · split
    · rename_i phy
      exact cell_set_of_ne _ _ (link phy)
    · split
      · unfold advanceReset
        simp only
        split
        · split
          · rfl
          · exact cell_set_of_ne _ _ mode
        · rfl
      · rfl

theorem writing_cell_of_ne {offset other : Nat} (apart : other ≠ offset) (value : Word) :
    (f.writing offset value).cell other = f.cell other := by
  unfold writing
  split
  · exact cell_set_of_ne _ _ apart
  · split <;> exact cell_set_of_ne _ _ apart

theorem reading_of_ne (f : RegisterFile) {offset : Nat} (status : offset ≠ Register.macPhyStatus)
    (mode : offset ≠ Register.dmaMode) : f.reading offset = f := by
  unfold reading afterRead
  split
  · rfl
  · rw [if_neg status, if_neg mode]

theorem reading_phyStatus (device : f.backing = .device) :
    f.reading Register.macPhyStatus = f.acknowledgeLink := by
  simp [reading, device, afterRead]

theorem writing_channelStatus (device : f.backing = .device) (value : Word) :
    f.writing Register.channelStatus value =
      f.set Register.channelStatus (f.cell Register.channelStatus &&& ~~~value) := by
  simp [writing, device]

theorem writing_of_ne {offset : Nat} (apart : offset ≠ Register.channelStatus) (value : Word) :
    f.writing offset value = f.set offset value := by
  unfold writing
  split
  · rfl
  · simp [apart]

end RegisterFile

namespace Effect

def registers : Effect → RegisterFile → RegisterFile
  | .load offset, f => f.reading offset
  | .store offset value, f => f.writing offset value
  | _, f => f

def interrupt : Effect → InterruptState → InterruptState
  | .acquire, i => { i with lock := .exclusive }
  | .release, i => { i with lock := .free }
  | .setMask new, i => { i with wanted := new }
  | .setQueue direction queue, i => i.setQueue direction queue
  | .takeQueue direction, i => i.setQueue direction none
  | .merge causes, i => { i with pending := i.pending.merge causes }
  | .drain, i => { i with pending := .empty }
  | .count counter, i => { i with counters := i.counters.bump counter }
  | .attach _, _ => {}
  | _, i => i

def target : Effect → Target → Target
  | .attach adapter, _ => .device adapter
  | .detach, _ => .noDevice
  | _, target => target

def activity : Effect → Bool → Bool
  | .setActive on, _ => on
  | .attach _, _ => false
  | _, on => on

def station (e : Effect) (s : Station) : Station :=
  { s with
    registers := e.registers s.registers
    interrupt := e.interrupt s.interrupt
    target := e.target s.target
    active := e.activity s.active }

def Reads (s : Station) : (e : Effect) → e.Answer → Prop
  | .load offset, value => value = (s.registers.reading offset).cell offset
  | .mask, answer => answer = s.interrupt.wanted
  | .wanted, answer => answer = s.interrupt.wanted
  | .armed direction, answer => answer = (s.interrupt.queue direction).isSome
  | .takeQueue direction, answer => answer = s.interrupt.queue direction
  | .drain, answer => answer = s.interrupt.pending.word
  | .setActive _, answer => answer = s.active
  | .active, answer => answer = s.active
  | _, _ => True

/-- The accesses that plain storage refuses. -/
def Outside (e : Effect) : Prop :=
  ∃ offset, ¬ RegisterFile.InWindow offset ∧ (e = .load offset ∨ ∃ value, e = .store offset value)

end Effect

namespace Station

variable {s after : Station} {e : Effect} {answer : e.Answer}

/-- An action that is done has done to each part what it does there, and nothing else. -/
theorem apply_eq (applied : s.apply e = .ok (answer, after)) : after = e.station s := by
  cases e with
  | load offset =>
    unfold apply at applied
    cases read : s.registers.read? offset with
    | none => simp [read] at applied
    | some both =>
      simp only [read, Except.ok.injEq, Prod.mk.injEq] at applied
      rw [← applied.2, (RegisterFile.read?_eq_some read).1]
      rfl
  | store offset value =>
    unfold apply at applied
    cases written : s.registers.write? offset value with
    | none => simp [written] at applied
    | some file =>
      simp only [written, Except.ok.injEq, Prod.mk.injEq] at applied
      rw [← applied.2, RegisterFile.write?_eq_some written]
      rfl
  | acquire =>
    simp only [apply] at applied
    cases lock : s.interrupt.lock with
    | free =>
      simp only [lock, Borrow.write?, Except.ok.injEq, Prod.mk.injEq] at applied
      rw [← applied.2]
      rfl
    | _ => simp [lock, Borrow.write?] at applied
  | wanted | armed =>
    simp only [apply] at applied
    split at applied <;> cases applied
    rfl
  | fault cause => exact answer.elim
  | _ =>
    simp only [apply, Except.ok.injEq, Prod.mk.injEq] at applied
    rw [← applied.2]
    rfl

theorem apply_registers (applied : s.apply e = .ok (answer, after)) :
    after.registers = e.registers s.registers :=
  congrArg registers (apply_eq applied)

theorem apply_interrupt (applied : s.apply e = .ok (answer, after)) :
    after.interrupt = e.interrupt s.interrupt :=
  congrArg interrupt (apply_eq applied)

theorem apply_queue (applied : s.apply e = .ok (answer, after)) :
    after.interrupt.queue = (e.interrupt s.interrupt).queue :=
  congrArg InterruptState.queue (apply_interrupt applied)

theorem apply_target (applied : s.apply e = .ok (answer, after)) :
    after.target = e.target s.target ∧ after.active = e.activity s.active :=
  ⟨congrArg target (apply_eq applied), congrArg active (apply_eq applied)⟩

/-- No action looks at the trace, and none changes how the host answers. -/
theorem apply_aside (applied : s.apply e = .ok (answer, after)) :
    after.trace = s.trace ∧ after.host = s.host := by
  rw [apply_eq applied]
  exact ⟨rfl, rfl⟩

theorem apply_reads (applied : s.apply e = .ok (answer, after)) : e.Reads s answer := by
  cases e with
  | load offset =>
    unfold apply at applied
    cases read : s.registers.read? offset with
    | none => simp [read] at applied
    | some both =>
      simp only [read, Except.ok.injEq, Prod.mk.injEq] at applied
      obtain ⟨file, value⟩ := RegisterFile.read?_eq_some read
      rw [← applied.1, Effect.Reads, ← file]
      exact value
  | wanted | armed =>
    simp only [apply] at applied
    split at applied <;> cases applied
    rfl
  | fault cause => exact answer.elim
  | mask | takeQueue | drain | setActive | active =>
    simp only [apply, Except.ok.injEq, Prod.mk.injEq] at applied
    exact applied.1.symm
  | _ => trivial

section Access

variable {offset : Nat} {value : Word}

theorem load_cell (applied : s.apply (.load offset) = .ok (value, after)) {other : Nat}
    (mode : other ≠ Register.dmaMode) (latch : other ≠ Register.macInterruptStatus) :
    after.registers.cell other = s.registers.cell other := by
  rw [apply_registers applied]
  exact RegisterFile.reading_cell_of_ne mode fun _ => latch

theorem load_value (applied : s.apply (.load offset) = .ok (value, after)) :
    after.registers.cell offset = value := by
  rw [apply_registers applied]
  exact (apply_reads applied).symm

theorem store_cell {answer : Unit} (applied : s.apply (.store offset value) = .ok (answer, after))
    {other : Nat} (apart : other ≠ offset) :
    after.registers.cell other = s.registers.cell other := by
  rw [apply_registers applied]
  exact RegisterFile.writing_cell_of_ne apart value

theorem store_value {answer : Unit} (applied : s.apply (.store offset value) = .ok (answer, after))
    (plain : offset ≠ Register.channelStatus) : after.registers.cell offset = value := by
  rw [apply_registers applied]
  show (s.registers.writing offset value).cell offset = value
  rw [RegisterFile.writing_of_ne plain]
  exact RegisterFile.cell_set_self _ _ _

theorem store_channelStatus {answer : Unit} (device : s.registers.backing = .device)
    (applied : s.apply (.store Register.channelStatus value) = .ok (answer, after)) :
    after.registers.cell Register.channelStatus =
      s.registers.cell Register.channelStatus &&& ~~~value := by
  rw [apply_registers applied]
  show (s.registers.writing Register.channelStatus value).cell _ = _
  rw [RegisterFile.writing_channelStatus device]
  exact RegisterFile.cell_set_self _ _ _

/-- Nothing that is done to a device adds a cause to the channel status. -/
theorem channelStatus_shrinks {answer : e.Answer} (device : s.registers.backing = .device)
    (applied : s.apply e = .ok (answer, after)) {i : Nat}
    (standing : (after.registers.cell Register.channelStatus).getLsbD i = true) :
    (s.registers.cell Register.channelStatus).getLsbD i = true := by
  cases e with
  | load offset => rwa [load_cell applied (by decide) (by decide)] at standing
  | store offset value =>
    by_cases here : offset = Register.channelStatus
    · subst here
      rw [store_channelStatus device applied, BitVec.getLsbD_and, Bool.and_eq_true] at standing
      exact standing.1
    · rwa [store_cell applied (Ne.symm here)] at standing
  | _ => rwa [apply_registers applied] at standing

end Access

theorem apply_acquire {answer : Unit} (applied : s.apply .acquire = .ok (answer, after)) :
    s.interrupt.lock = .free := by
  simp only [apply] at applied
  cases lock : s.interrupt.lock with
  | free => rfl
  | _ => simp [lock, Borrow.write?] at applied

/-- What can stop an action: a fault of the operation itself, the lock, or the end of the register
window. -/
theorem apply_error {cause : Fault} (applied : s.apply e = .error cause) :
    e = .fault cause ∨
      (s.interrupt.lock ≠ .free ∧
        (e = .acquire ∨ e = .wanted ∨ ∃ direction, e = .armed direction)) ∨
      s.registers.backing = .memory ∧ e.Outside := by
  cases e with
  | load offset =>
    cases backing : s.registers.backing with
    | device => simp [apply, RegisterFile.read?, backing] at applied
    | memory =>
      refine .inr (.inr ⟨rfl, offset, fun inside => ?_, .inl rfl⟩)
      simp [apply, RegisterFile.read?, backing, inside] at applied
  | store offset value =>
    cases backing : s.registers.backing with
    | device =>
      simp only [apply, RegisterFile.write?, backing] at applied
      split at applied <;> simp_all
      split at * <;> simp_all
    | memory =>
      refine .inr (.inr ⟨rfl, offset, fun inside => ?_, .inr ⟨value, rfl⟩⟩)
      simp [apply, RegisterFile.write?, backing, inside] at applied
  | fault other =>
    simp only [apply, Except.error.injEq] at applied
    exact .inl (congrArg Effect.fault applied)
  | acquire | wanted | armed =>
    simp only [apply] at applied
    cases lock : s.interrupt.lock <;> simp_all [Borrow.read?, Borrow.write?]
  | _ => simp [apply] at applied

theorem apply_error_of_takes {cause : Fault} (applied : s.apply e = .error cause)
    (takes : e = .acquire ∨ e = .wanted ∨ ∃ direction, e = .armed direction) :
    cause = .lockHeld := by
  rcases takes with rfl | rfl | ⟨direction, rfl⟩ <;>
    (simp only [apply] at applied; split at applied <;> cases applied; rfl)

theorem meet_target (step : Step) :
    (s.meet step).target = s.target ∧ (s.meet step).active = s.active := by
  cases step <;> exact ⟨rfl, rfl⟩

theorem meet_interrupt (step : Step) : (s.meet step).interrupt = s.interrupt := by
  cases step <;> rfl

theorem meet_backing (step : Step) : (s.meet step).registers.backing = s.registers.backing := by
  cases step <;> rfl

theorem apply_backing (applied : s.apply e = .ok (answer, after)) :
    after.registers.backing = s.registers.backing := by
  rw [apply_registers applied]
  cases e with
  | load offset => exact RegisterFile.reading_backing offset
  | store offset value => exact RegisterFile.writing_backing offset value
  | _ => rfl

end Station

theorem Run.backing {admits : Machine → Step → Prop} {start m : Machine} {history : History}
    (run : Run admits start history m) :
    m.station.registers.backing = start.station.registers.backing := by
  refine Run.account (P := fun _ s => s.registers.backing = start.station.registers.backing) rfl
    (fun _ kept => kept) ?_ (fun _ _ _ kept => kept) ?_ (fun _ _ kept => kept)
    (fun _ _ kept => kept) (fun _ _ _ kept => kept) run
  · intro _ _ step _ _ _ _ _ kept
    exact (Station.meet_backing step).trans kept
  · intro _ _ _ _ _ _ _ _ _ _ _ applied kept
    exact (Station.apply_backing applied).trans kept

end EthernetMac
