import EthernetMac.Proofs.Call
import EthernetMac.Proofs.Link.Reconciliation

namespace EthernetMac

open Program

def stored (writes : List (Nat × Word)) : List Deed :=
  writes.map fun write => ⟨.store write.1 write.2, ()⟩

@[simp] theorem writes_stored (words : List (Nat × Word)) : writes (stored words) = words := by
  unfold writes stored
  rw [List.filterMap_map]
  exact List.filterMap_some

namespace Working

def linked (status : Word) : Word :=
  .ofNat 32 (0x00040203 + 0x2000 * (MacPhyStatus.fullDuplex.test status).toNat +
    match (LinkState.ofStatus status).speed with
    | .mbps10 => 0x8000
    | .mbps100 => 0xC000
    | .mbps1000 | .unknown => 0)

def settings (f : Features) : List (Nat × Word) :=
  [ (Register.macTxFlowControl, txFlowControl),
    (Register.mtlTxOperation, txOperation (.ofNat 32 (fifoBlocks f.txFifo))),
    (Register.macRxFlowControl, rxFlowControl),
    (Register.macRxQueueControl, rxQueueControl),
    (Register.mtlRxOperation, rxOperation (.ofNat 32 (fifoBlocks f.rxFifo))) ]

/-- What the way into the working state leaves in the registers. -/
def programme (f : Features) (status : Word) (wanted : InterruptMask) : List (Nat × Word) :=
  [ (Register.macTxFlowControl, 0xFFFF0002),
    (Register.mtlTxOperation, .ofNat 32 (0x0000000A + 0x10000 * (fifoBlocks f.txFifo % 0x200))),
    (Register.macRxFlowControl, 0x3),
    (Register.macRxQueueControl, 0x2),
    (Register.mtlRxOperation, .ofNat 32 (0x000282B8 + 0x100000 * (fifoBlocks f.rxFifo % 0x400))),
    (Register.macConfiguration, linked status),
    (Register.macInterruptEnable, .ofNat 32 wanted.state.toNat),
    (Register.channelInterruptEnable, .ofNat 32 (0x8000 + 0x5000 * wanted.state.toNat +
      0x40 * wanted.receive.toNat + wanted.transmit.toNat)) ]

theorem operations_of_lt {code : Word} (small : code < 32) :
    txOperation (.ofNat 32 (fifoBlocks code)) =
        .ofNat 32 (0x0000000A + 0x10000 * (fifoBlocks code % 0x200)) ∧
      rxOperation (.ofNat 32 (fifoBlocks code)) =
        .ofNat 32 (0x000282B8 + 0x100000 * (fifoBlocks code % 0x400)) := by
  have all : ∀ code : Fin 32,
      txOperation (.ofNat 32 (fifoBlocks (.ofNat 32 code.val))) =
          .ofNat 32 (0x0000000A + 0x10000 * (fifoBlocks (.ofNat 32 code.val) % 0x200)) ∧
        rxOperation (.ofNat 32 (fifoBlocks (.ofNat 32 code.val))) =
          .ofNat 32 (0x000282B8 + 0x100000 * (fifoBlocks (.ofNat 32 code.val) % 0x400)) := by
    decide +kernel
  have here := all ⟨code.toNat, BitVec.lt_def.mp small⟩
  simpa only [BitVec.ofNat_toNat, BitVec.setWidth_eq] using here

theorem programme_eq (f : Features) (status : Word) (wanted : InterruptMask) :
    programme f status wanted =
      settings f ++
        [ (Register.macConfiguration, linked status),
          (Register.macInterruptEnable, wanted.macEnable),
          (Register.channelInterruptEnable, wanted.channelEnable) ] := by
  have enables : ∀ state receive transmit : Bool,
      (InterruptMask.mk state receive transmit).macEnable = .ofNat 32 state.toNat ∧
        (InterruptMask.mk state receive transmit).channelEnable =
          .ofNat 32 (0x8000 + 0x5000 * state.toNat + 0x40 * receive.toNat + transmit.toNat) := by
    decide
  obtain ⟨mac, channel⟩ := enables wanted.state wanted.receive wanted.transmit
  have flow : txFlowControl = 0xFFFF0002 := by decide
  have rx : rxFlowControl = 0x3 := rfl
  have queue : rxQueueControl = 0x2 := rfl
  unfold programme settings
  rw [(operations_of_lt f.fifo_lt.1).1, (operations_of_lt f.fifo_lt.2).2, mac, channel, flow, rx,
    queue]
  rfl

/-- Duplex and speed come to be as the status reports them, and an unknown speed leaves the
selector 0. -/
theorem reconcile_macConfiguration (status : Word) :
    reconcile macConfiguration status = linked status := by
  unfold reconcile linked LinkState.ofStatus
  dsimp only
  generalize MacPhyStatus.fullDuplex.test status = full
  generalize LinkSpeed.ofClock (MacPhyStatus.speed.get status) = speed
  cases full <;> cases speed <;> decide

theorem settings_apart {f : Features} {offset : Nat}
    (elsewhere : offset ∉ setUp ++ [Register.macConfiguration]) :
    ∀ write ∈ settings f ++ [(Register.macConfiguration, macConfiguration)], offset ≠ write.1 := by
  rintro write member rfl
  exact elsewhere (List.mem_map_of_mem member : write.1 ∈ List.map Prod.fst _)

end Working

theorem InterruptMask.ne_or_stateOnly (wanted : InterruptMask) (missing : wanted.state = false) :
    wanted ≠ wanted ||| .stateOnly := by
  intro same
  have state : wanted.state = true := (congrArg InterruptMask.state same).trans (Bool.or_true _)
  rw [missing] at state
  cases state

def enableDeeds (bits wanted again : InterruptMask) : List Deed :=
  [⟨.acquire, ()⟩, ⟨.mask, wanted⟩, ⟨.mask, again⟩] ++
    (if again = wanted ||| bits then []
      else ⟨.setMask (wanted ||| bits), ()⟩ ::
        stored [(Register.macInterruptEnable, (wanted ||| bits).macEnable),
          (Register.channelInterruptEnable, (wanted ||| bits).channelEnable)]) ++
    [⟨.release, ()⟩]

theorem Interrupt.changeMask_course {new : InterruptMask} {deeds : List Deed} {result : Unit}
    (course : (changeMask new).Course deeds result) :
    ∃ old, deeds = ⟨.mask, old⟩ ::
      if old = new then []
      else ⟨.setMask new, ()⟩ :: stored [(Register.macInterruptEnable, new.macEnable),
        (Register.channelInterruptEnable, new.channelEnable)] := by
  unfold changeMask at course
  rw [course_act_bind] at course
  obtain ⟨old, rest, rfl, course⟩ := course
  refine ⟨old, ?_⟩
  rw [course_onlyIf] at course
  by_cases same : old = new
  · rw [if_neg (by simp [same])] at course
    rw [if_pos same, course]
  · rw [if_pos (by simp [same])] at course
    rw [course_act_bind] at course
    obtain ⟨_, _, rfl, course⟩ := course
    rw [course_store_bind] at course
    obtain ⟨_, rfl, course⟩ := course
    obtain ⟨_, _, rfl, rfl, _⟩ := course
    rw [if_neg same]
    rfl

theorem Interrupt.enable_course {bits : InterruptMask} {deeds : List Deed} {result : Unit}
    (course : (enable bits).Course deeds result) :
    ∃ wanted again, deeds = enableDeeds bits wanted again := by
  unfold enable addWanted at course
  rw [course_locked] at course
  obtain ⟨_, rfl, course⟩ := course
  rw [course_act_bind] at course
  obtain ⟨wanted, _, rfl, course⟩ := course
  obtain ⟨again, rfl⟩ := changeMask_course course
  exact ⟨wanted, again, rfl⟩

def Adapter.entryDeeds (f : Features) (status config stale : Word) (wanted again : InterruptMask) :
    List Deed :=
  [⟨.setActive true, false⟩] ++
    stored (Working.settings f ++ [(Register.macConfiguration, Working.macConfiguration)]) ++
    refreshDeeds status config ++ [⟨.load Register.channelStatus, stale⟩] ++
    (if stale = 0 then [] else stored [(Register.channelStatus, stale)]) ++
    enableDeeds .stateOnly wanted again

/-- An active device refuses; any other goes the whole way. -/
theorem Adapter.enterWorking_course {a : Adapter} {deeds : List Deed} {result : Except Error Unit}
    (course : a.enterWorking.Course deeds result) :
    deeds = [⟨.setActive true, true⟩] ∧ result = .error (.io .invalidState) ∨
      ∃ status config stale wanted again,
        deeds = entryDeeds a.features status config stale wanted again ∧ result = .ok () := by
  unfold enterWorking at course
  rw [course_act_bind] at course
  obtain ⟨was, rest, rfl, course⟩ := course
  cases was with
  | true =>
    obtain ⟨rfl, rfl⟩ := course
    exact .inl ⟨rfl, rfl⟩
  | false =>
    refine .inr ?_
    simp only [Bool.false_eq_true, if_false, Features.queueSize_txFifo, Features.queueSize_rxFifo,
      pure_bind] at course
    iterate 6
      rw [course_store_bind] at course
      obtain ⟨_, rfl, course⟩ := course
    rw [course_bind] at course
    obtain ⟨_, _, _, rfl, refreshed, course⟩ := course
    obtain ⟨_, refreshed⟩ := (course_discard ..).mp refreshed
    obtain ⟨status, config, rfl, _⟩ := refreshLink_course.mp refreshed
    rw [course_load_bind] at course
    obtain ⟨stale, _, rfl, course⟩ := course
    rw [course_bind] at course
    obtain ⟨_, _, _, rfl, cleared, course⟩ := course
    obtain rfl := course_onlyIf_store.mp cleared
    rw [course_bind] at course
    obtain ⟨_, _, _, rfl, enabled, rfl, rfl⟩ := course
    obtain ⟨wanted, again, rfl⟩ := Interrupt.enable_course enabled
    refine ⟨status, config, stale, wanted, again, ?_, rfl⟩
    unfold entryDeeds
    simp [stored, Working.settings]

section Entry

variable {f : Features} {status config stale : Word} {wanted again : InterruptMask}
  {tracked : Nat → Prop} {cell : Nat → Word}

theorem writes_entryDeeds :
    writes (Adapter.entryDeeds f status config stale wanted again) =
      Working.settings f ++ [(Register.macConfiguration, Working.macConfiguration)] ++
        (if reconcile config status = config then []
          else [(Register.macConfiguration, reconcile config status)]) ++
        (if stale = 0 then [] else [(Register.channelStatus, stale)]) ++
        (if again = wanted ||| .stateOnly then []
          else [(Register.macInterruptEnable, (wanted ||| .stateOnly).macEnable),
            (Register.channelInterruptEnable, (wanted ||| .stateOnly).channelEnable)]) := by
  have refresh : writes (refreshDeeds status config) =
      if reconcile config status = config then []
      else [(Register.macConfiguration, reconcile config status)] := by
    unfold refreshDeeds
    split <;> rfl
  have enable : writes (enableDeeds .stateOnly wanted again) =
      if again = wanted ||| .stateOnly then []
      else [(Register.macInterruptEnable, (wanted ||| .stateOnly).macEnable),
        (Register.channelInterruptEnable, (wanted ||| .stateOnly).channelEnable)] := by
    unfold enableDeeds
    split <;> rfl
  have turnedOn : writes [⟨.setActive true, false⟩] = [] := rfl
  have looked : writes [⟨.load Register.channelStatus, stale⟩] = [] := rfl
  unfold Adapter.entryDeeds
  rw [writes_append, writes_append, writes_append, writes_append, writes_append, turnedOn, refresh,
    looked, enable, writes_stored, apply_ite writes, writes_stored, List.nil_append, List.append_nil]
  rfl

theorem reads_entryDeeds (phy : tracked Register.macPhyStatus)
    (configuration : tracked Register.macConfiguration)
    (faithful : Faithful tracked cell (Adapter.entryDeeds f status config stale wanted again)) :
    status = cell Register.macPhyStatus ∧ config = Working.macConfiguration := by
  unfold Adapter.entryDeeds refreshDeeds at faithful
  simp only [List.append_assoc] at faithful
  obtain ⟨_, later⟩ := faithful_append.mp faithful
  obtain ⟨_, read, found, _⟩ := faithful_append.mp later
  have apart : ∀ write ∈ writes (stored (Working.settings f ++
      [(Register.macConfiguration, Working.macConfiguration)])), Register.macPhyStatus ≠ write.1 := by
    rw [writes_stored]
    exact Working.settings_apart (by decide)
  exact ⟨(read phy).trans (written_of_apart apart), found configuration⟩

/-- Every register of the programme ends as it says, whatever the registers held. -/
theorem programmed_entryDeeds (missing : wanted.state = false) :
    ∀ write ∈ Working.programme f status (wanted ||| .stateOnly),
      written cell (writes (Adapter.entryDeeds f status Working.macConfiguration stale wanted wanted))
        write.1 = write.2 := by
  rw [writes_entryDeeds, Working.reconcile_macConfiguration, if_neg (wanted.ne_or_stateOnly missing)]
  generalize wanted ||| .stateOnly = mask
  simp only [Working.programme_eq, Working.settings, List.cons_append, List.nil_append,
    List.forall_mem_cons]
  -- With the conditions decided, what stands in each register is a matter of computation.
  by_cases same : Working.linked status = Working.macConfiguration
  · rw [if_pos same, same]
    split <;> exact ⟨rfl, rfl, rfl, rfl, rfl, rfl, rfl, rfl, List.forall_mem_nil _⟩
  · rw [if_neg same]
    split <;> exact ⟨rfl, rfl, rfl, rfl, rfl, rfl, rfl, rfl, List.forall_mem_nil _⟩

end Entry

end EthernetMac
