import EthernetMac.Proofs.Trail

/-! Which actions the longer operations are made of. -/

namespace EthernetMac

open Program

theorem Features.addressCount_lt (f : Features) : f.addressCount < 32 :=
  MacFeature0.addressCount.toNat_get_lt f.feature0

def fifoBlocks (code : Word) : Nat := ((0x80 <<< code.toNat) % 0x100000000) / 0x100 - 1

theorem queueSize_of_lt {code : Word} (small : code < 32) :
    queueSize code = pure (.ofNat 32 (fifoBlocks code)) := by
  have sizes : ∀ code : Fin 32, queueSize? (.ofNat 32 code.val) =
      some (.ofNat 32 (fifoBlocks (.ofNat 32 code.val))) := by decide +kernel
  have size := sizes ⟨code.toNat, BitVec.lt_def.mp small⟩
  simp only [BitVec.ofNat_toNat, BitVec.setWidth_eq] at size
  unfold queueSize
  rw [size]

theorem Features.fifo_lt (f : Features) : f.txFifo < 32 ∧ f.rxFifo < 32 := by
  have tx : f.txFifo.toNat < 1 <<< 5 := MacFeature1.txFifo.toNat_get_lt f.feature1
  have rx : f.rxFifo.toNat < 1 <<< 5 := MacFeature1.rxFifo.toNat_get_lt f.feature1
  exact ⟨BitVec.lt_def.mpr tx, BitVec.lt_def.mpr rx⟩

theorem Features.queueSize_txFifo (f : Features) :
    queueSize f.txFifo = pure (.ofNat 32 (fifoBlocks f.txFifo)) :=
  queueSize_of_lt f.fifo_lt.1

theorem Features.queueSize_rxFifo (f : Features) :
    queueSize f.rxFifo = pure (.ofNat 32 (fifoBlocks f.rxFifo)) :=
  queueSize_of_lt f.fifo_lt.2

/-- The actions of a filter request. A slot is too far only in a table that no device has. -/
def filterActions (tableSize : Nat) : Effect → Prop
  | .store offset _ =>
    offset = Register.macPacketFilter ∨
      ∃ slot < max 1 tableSize,
        offset = Register.addressHigh slot ∨ offset = Register.addressLow slot
  | .fault cause => cause = .slotTooFar ∧ Register.slotLimit < tableSize
  | _ => False

theorem writeSlot_only {tableSize slot : Nat} (inside : slot < max 1 tableSize)
    (address : MacAddress) (enable : Bool) :
    (writeSlot slot address enable).Only (filterActions tableSize) := by
  unfold writeSlot
  split
  · refine (Only.act (.inr ⟨slot, inside, .inl rfl⟩)).bind fun _ => ?_
    exact Only.act (.inr ⟨slot, inside, .inr rfl⟩)
  · rename_i far
    refine Only.fail ⟨rfl, ?_⟩
    have positive : 0 < Register.slotLimit := by decide
    omega

theorem applyFilter_only (tableSize : Nat) (current : MacAddress) (flags : FilterFlags)
    (multicast : List LinkLayerAddress) :
    (applyFilter tableSize current flags multicast).Only (filterActions tableSize) := by
  unfold applyFilter
  split
  · exact Only.act (.inl rfl)
  · refine (writeSlot_only (by omega) _ _).bind fun _ => Only.bind ?_ fun _ => Only.act (.inl rfl)
    refine (obeys_forM _ _ (fun _ => True) ?_ trivial).mono fun _ _ _ => trivial
    intro slot member _ _
    have inside : slot < max 1 tableSize := by
      have bounds := List.mem_range'_1.mp member
      omega
    unfold writeEntry
    split <;> exact writeSlot_only inside _ _

def statisticsActions : Effect → Prop
  | .load offset => RegisterFile.InWindow offset ∧ Register.mmcControl < offset
  | _ => False

theorem readStatistics_only : readStatistics.Only statisticsActions := by
  have counter (offset : Nat)
      (inside : RegisterFile.InWindow offset ∧ Register.mmcControl < offset)
      (next : Word → Program Statistics) (rest : ∀ value, (next value).Only statisticsActions) :
      (load offset >>= next).Only statisticsActions :=
    Only.bind (Only.act inside) rest
  unfold readStatistics
  iterate 11 refine counter _ (by decide) _ fun value => ?_
  trivial

def maskActions : Effect → Prop
  | .store offset _ =>
    offset = Register.macInterruptEnable ∨ offset = Register.channelInterruptEnable
  | .mask | .setMask _ => True
  | _ => False

def sectionActions : Effect → Prop
  | .acquire | .release | .wanted | .setQueue _ _ | .takeQueue _ | .count _ | .notify _ => True
  | e => maskActions e

theorem sectionActions_of_mask (e : Effect) (mask : maskActions e) : sectionActions e := by
  cases e <;> first | exact mask | trivial

def handlerActions : Effect → Prop
  | .load offset => offset = Register.macInterruptStatus ∨ offset = Register.channelStatus ∨
      offset = Register.macPhyStatus
  | .store offset _ => offset = Register.channelStatus
  | .merge _ | .schedule | .count _ => True
  | _ => False

def refreshActions : Effect → Prop
  | .load offset => offset = Register.macPhyStatus ∨ offset = Register.macConfiguration
  | .store offset _ => offset = Register.macConfiguration
  | .publishLink _ => True
  | _ => False

def serveActions : Effect → Prop
  | .count _ | .linkChanged => True
  | e => refreshActions e

theorem serveActions_of_refresh (e : Effect) (refresh : refreshActions e) : serveActions e := by
  cases e <;> first | exact refresh | trivial

theorem refreshLink_only : refreshLink.Only refreshActions := by
  unfold refreshLink
  refine (Only.act (.inl rfl)).bind fun status => (Only.act (.inr rfl)).bind fun config => ?_
  refine Only.bind (.onlyIf ?_) fun _ => (Only.act trivial).bind fun _ => .pure _
  exact .store rfl

theorem linkChange_only {linkChange : Program Unit}
    (either : linkChange = act .linkChanged ∨ linkChange = discard refreshLink) :
    linkChange.Only serveActions := by
  rcases either with rfl | rfl
  · exact Only.act trivial
  · exact (refreshLink_only.mono serveActions_of_refresh).bind fun _ => .pure ()

namespace Interrupt

theorem changeMask_only (new : InterruptMask) : (changeMask new).Only maskActions := by
  refine (Only.act trivial).bind fun old => .onlyIf ?_
  refine (Only.act trivial).bind fun _ => ?_
  exact (Only.act (.inl rfl)).bind fun _ => Only.act (.inr rfl)

theorem addWanted_only (bits : InterruptMask) : (addWanted bits).Only maskActions :=
  (Only.act trivial).bind fun _ => changeMask_only _

theorem removeWanted_only (bits : InterruptMask) : (removeWanted bits).Only maskActions :=
  (Only.act trivial).bind fun _ => changeMask_only _

theorem locked_only {p : Program Unit} (body : p.Only sectionActions) :
    (locked p).Only sectionActions :=
  (Only.act trivial).bind fun _ => body.bind fun _ => (Only.act trivial).bind fun _ => .pure ()

theorem enable_only (bits : InterruptMask) : (enable bits).Only sectionActions :=
  locked_only ((addWanted_only bits).mono sectionActions_of_mask)

theorem disable_only (bits : InterruptMask) : (disable bits).Only sectionActions :=
  locked_only ((removeWanted_only bits).mono sectionActions_of_mask)

theorem register_only (direction : Direction) (queue : Option QueueHandle) :
    (register direction queue).Only sectionActions := by
  refine locked_only ((Only.act trivial).bind fun _ => Only.mono ?_ sectionActions_of_mask)
  exact .ite (addWanted_only _) (removeWanted_only _)

theorem notifyOnce_only (direction : Direction) : (notifyOnce direction).Only sectionActions := by
  refine (Only.act trivial).bind fun answer => ?_
  cases answer with
  | none => exact .pure ()
  | some queue => exact (Only.act trivial).bind fun _ => Only.act trivial

def serveQueues (causes : Causes) : Program Unit :=
  locked do
    removeWanted causes.queues
    onlyIf causes.receive (notifyOnce .receive)
    onlyIf causes.transmit (notifyOnce .transmit)

theorem serveQueues_only (causes : Causes) : (serveQueues causes).Only sectionActions := by
  refine locked_only (((removeWanted_only _).mono sectionActions_of_mask).bind fun _ => ?_)
  exact (notifyOnce_only _).onlyIf.bind fun _ => (notifyOnce_only _).onlyIf

theorem handle_only : handle.Only handlerActions := by
  unfold handle
  refine (Only.act (.inl rfl)).bind fun mac => (Only.act (.inr (.inl rfl))).bind fun channel => ?_
  refine Only.ite ((Only.act trivial).bind fun _ => .pure _) ?_
  refine (Only.onlyIf ((Only.act (.inr (.inr rfl))).bind fun _ => .pure ())).bind fun _ => ?_
  refine Only.bind (.onlyIf ?_) fun _ => (Only.act trivial).bind fun _ => ?_
  · exact .store rfl
  · exact (Only.act trivial).bind fun _ => (Only.act trivial).bind fun _ => .pure _

theorem interrupt_only (target : Target) : (Operation.interrupt.task target).Only handlerActions := by
  have handles : (Task.once handle .truth).Only handlerActions := handle_only.bind fun _ => .pure _
  cases target with
  | noDevice => exact .pure _
  | _ => exact handles

/-- A round whose section obeys a law obeys it, if the law does not care about the rest. -/
theorem serve_obeys {σ : Type} {law : Law σ} {q : σ} {post : Unit → σ → Prop} {causes : Causes}
    {linkChange : Program Unit}
    (either : linkChange = act .linkChanged ∨ linkChange = discard refreshLink)
    (ignores : ∀ e, serveActions e → law.Ignores q e) (yields : law.yields q)
    (queues : (onlyIf (!causes.queues.isEmpty) (serveQueues causes)).Obeys law post q) :
    (serve linkChange causes).Obeys law post q := by
  have quiet {p : Program Unit} (only : p.Only serveActions) :
      p.Obeys law (fun _ after => after = q) q :=
    .of_only only ignores yields
  have link := linkChange_only either
  refine (quiet (Only.onlyIf (Only.act trivial))).seq fun _ => ?_
  refine (quiet (Only.onlyIf (Only.act trivial))).seq fun _ => ?_
  exact (quiet (Only.onlyIf ((Only.act trivial).bind fun _ => link))).seq fun _ => queues

end Interrupt

def powerActions : Effect → Prop
  | .load _ | .store _ _ | .publishLink _ | .setActive _ | .armed _ | .fault _ => True
  | _ => False

theorem powerActions_of_refresh (e : Effect) (refresh : refreshActions e) : powerActions e := by
  cases e <;> trivial

def Working.setUp : List Nat :=
  [Register.macTxFlowControl, Register.mtlTxOperation, Register.macRxFlowControl,
    Register.macRxQueueControl, Register.mtlRxOperation]

namespace Adapter

variable {σ : Type} {law : Law σ}

section Parts

variable {s q r : σ} {post : Except Error Unit → σ → Prop}

/-- The way into the working state in its parts, where a law is in one state up to the configuration
and in one state from the refresh of the link on. -/
theorem enterWorking_parts (a : Adapter)
    (turnedOn : (act (.setActive true)).Obeys law
      (fun was after => if was then post (.error (.io .invalidState)) after else after = q) s)
    (configured : ∀ offset ∈ Working.setUp, ∀ value,
      (store offset value).Obeys law (fun _ after => after = q) q)
    (refreshed : (do store Register.macConfiguration Working.macConfiguration
                     discard refreshLink).Obeys law (fun _ after => after = r) q)
    (cleared : (do let stale ← load Register.channelStatus
                   onlyIf (stale != 0) (store Register.channelStatus stale)).Obeys law
      (fun _ after => after = r) r)
    (enabled : (Interrupt.enable .stateOnly).Obeys law (fun _ => post (.ok ())) r) :
    a.enterWorking.Obeys law post s := by
  unfold enterWorking
  rw [obeys_bind]
  refine turnedOn.mono fun was after onward => (obeys_ite ..).mpr ⟨?_, ?_⟩
  · rintro rfl
    exact onward
  intro off
  rw [if_neg off] at onward
  subst onward
  simp only [Features.queueSize_txFifo, Features.queueSize_rxFifo, pure_bind]
  iterate 5 refine (configured _ (by decide) _).seq fun _ => ?_
  refine (obeys_bind ..).mpr (((obeys_bind ..).mp refreshed).mono fun _ _ link => ?_)
  refine link.andThen fun _ => ?_
  refine (obeys_bind ..).mpr (((obeys_bind ..).mp cleared).mono fun stale _ clears => ?_)
  exact clears.andThen fun _ => (obeys_bind ..).mpr enabled

/-- The way out, where a law is in one state before the section and in one state from there to the
last of the checks. -/
theorem leaveWorking_parts
    (turnedOff : (act (.setActive false)).Obeys law
      (fun was after => if was then after = q else post (.error (.io .invalidState)) after) s)
    (dropped : (Interrupt.disable .all).Obeys law (fun _ after => after = r) q)
    (cleared : ∀ direction, (requireCleared direction).Obeys law (fun _ after => after = r) r)
    (stopped : (do let config ← load Register.macConfiguration
                   store Register.macConfiguration (Working.stopped config)).Obeys law
      (fun _ => post (.ok ())) r) :
    leaveWorking.Obeys law post s := by
  unfold leaveWorking
  rw [obeys_bind]
  refine turnedOff.mono fun was after onward => (obeys_ite ..).mpr ⟨?_, ?_⟩
  · rintro rfl
    obtain rfl : after = q := onward
    refine dropped.andThen fun _ => ?_
    refine (cleared .receive).andThen fun _ => (cleared .transmit).andThen fun _ => ?_
    refine (obeys_bind ..).mpr (((obeys_bind ..).mp stopped).mono fun config _ stops => ?_)
    exact (obeys_bind ..).mpr stops
  · intro off
    rwa [if_neg off] at onward

end Parts

def enteringActions : Effect → Prop
  | .setActive on => on = true
  | .load offset =>
    offset ∈ [Register.macPhyStatus, Register.macConfiguration, Register.channelStatus]
  | .store offset value =>
    offset ∈ Register.macConfiguration :: Register.channelStatus :: Working.setUp ∨
      maskActions (.store offset value)
  | .publishLink _ => True
  | e => sectionActions e

def leavingActions : Effect → Prop
  | .setActive on => on = false
  | .armed _ => True
  | .fault cause => ∃ direction, cause = .queueRegistered direction
  | .load offset => offset = Register.macConfiguration
  | .store offset value =>
    offset = Register.macConfiguration ∨ maskActions (.store offset value)
  | e => sectionActions e

theorem enterWorking_only (a : Adapter) : a.enterWorking.Only enteringActions := by
  have still {α : Type} {p : Program α} (only : p.Only enteringActions) :
      p.Obeys (.only enteringActions) (fun _ after => after = ()) () :=
    Obeys.mono only fun _ _ _ => rfl
  have refresh : (discard refreshLink).Only enteringActions := by
    refine Only.bind (refreshLink_only.mono fun e inside => ?_) fun _ => .pure ()
    cases e with
    | load =>
      rcases inside with rfl | rfl
      · exact .head _
      · exact .tail _ (.head _)
    | store =>
      cases inside
      exact .inl (.head _)
    | publishLink => trivial
    | _ => exact inside.elim
  have enable : (Interrupt.enable .stateOnly).Only enteringActions :=
    (Interrupt.enable_only _).mono fun e inside => by
      cases e with
      | store => exact .inr inside
      | load | setActive | publishLink => exact inside.elim
      | _ => exact inside
  refine enterWorking_parts a ?turnedOn
    (fun _ member _ => still (.store (.inl (.tail _ (.tail _ member))))) (still ?refreshed)
    (still ?cleared) enable
  case turnedOn =>
    refine ⟨rfl, fun was => ⟨fun _ => trivial, ?_⟩⟩
    cases was <;> trivial
  case refreshed => exact Only.bind (.store (.inl (.head _))) fun _ => refresh
  case cleared =>
    refine Only.bind (.act (.tail _ (.tail _ (.head _)))) fun stale => .onlyIf (.store (.inl ?_))
    exact .tail _ (.head _)

theorem leaveWorking_only : leaveWorking.Only leavingActions := by
  have still {α : Type} {p : Program α} (only : p.Only leavingActions) :
      p.Obeys (.only leavingActions) (fun _ after => after = ()) () :=
    Obeys.mono only fun _ _ _ => rfl
  have disable : (Interrupt.disable .all).Only leavingActions :=
    (Interrupt.disable_only _).mono fun e inside => by
      cases e with
      | store => exact .inr inside
      | load | setActive | armed | fault => exact inside.elim
      | _ => exact inside
  refine leaveWorking_parts ?turnedOff (still disable) (fun direction => still ?cleared) ?stopped
  case turnedOff =>
    refine ⟨rfl, fun was => ⟨fun _ => trivial, ?_⟩⟩
    cases was <;> trivial
  case cleared =>
    exact Only.bind (.act trivial) fun armed => .ite (.fail ⟨direction, rfl⟩) (.pure ())
  case stopped => exact Only.bind (.act rfl) fun config => .store (.inl rfl)

variable {q : σ} (ignores : ∀ e, powerActions e → law.Ignores q e) (yields : law.yields q)

include ignores yields

theorem enterWorking_obeys (a : Adapter)
    (wants : (Interrupt.enable .stateOnly).Obeys law (fun _ after => after = q) q) :
    a.enterWorking.Obeys law (fun _ after => after = q) q := by
  have quiet {α : Type} {p : Program α} (only : p.Only powerActions) :
      p.Obeys law (fun _ after => after = q) q :=
    .of_only only ignores yields
  refine enterWorking_parts a ?_ (fun _ _ _ => quiet (.store trivial)) (quiet ?_) (quiet ?_) wants
  · refine Obeys.mono (quiet (.act ?_)) fun was after same => by cases was <;> exact same
    trivial
  · exact Only.bind (.store trivial) fun _ =>
      (refreshLink_only.mono powerActions_of_refresh).bind fun _ => .pure ()
  · exact (Only.act trivial).bind fun stale => .onlyIf (.store trivial)

theorem leaveWorking_obeys
    (drops : (Interrupt.disable .all).Obeys law (fun _ after => after = q) q) :
    leaveWorking.Obeys law (fun _ after => after = q) q := by
  have quiet {α : Type} {p : Program α} (only : p.Only powerActions) :
      p.Obeys law (fun _ after => after = q) q :=
    .of_only only ignores yields
  refine leaveWorking_parts ?_ drops (fun direction => quiet ?_) (quiet ?_)
  · refine Obeys.mono (quiet (.act ?_)) fun was after same => by cases was <;> exact same
    trivial
  · exact (Only.act trivial).bind fun _ => .ite (.fail trivial) (.pure ())
  · exact (Only.act trivial).bind fun config => .store trivial

end Adapter

def bringUpActions : Effect → Prop
  | .load offset | .store offset _ => RegisterFile.InWindow offset
  | .delay _ | .publishLink _ | .publishCapabilities _ | .startDatapath | .random _ => True
  | _ => False

def resetActions : Effect → Prop
  | .delay _ => True
  | .load offset => offset = Register.dmaMode
  | .store offset _ =>
    offset = Register.dmaMode ∨ offset = Register.addressHigh 0 ∨ offset = Register.addressLow 0
  | _ => False

theorem await_only (station : MacAddress) (used left : Nat) :
    (Reset.await station used left).Only resetActions := by
  induction left generalizing used with
  | zero => exact .pure _
  | succ left ih =>
    refine (Only.act trivial).bind fun _ => Only.bind (Only.act rfl) fun mode => .ite (ih _) ?_
    rw [writeSlot_of_lt (by decide)]
    have write : (do store (Register.addressHigh 0) (station.highWord true)
                     store (Register.addressLow 0) station.lowWord).Only resetActions :=
      Only.bind (.store (.inr (.inl rfl))) fun _ => .store (.inr (.inr rfl))
    exact write.bind fun _ => .pure _

theorem softReset_only (station : MacAddress) : (softReset station).Only resetActions :=
  Only.bind (.store (.inl rfl)) fun _ => await_only _ _ _

theorem bringUpActions_of_reset (e : Effect) (reset : resetActions e) : bringUpActions e := by
  cases e with
  | delay => trivial
  | load offset =>
    cases reset
    exact (by decide : RegisterFile.InWindow Register.dmaMode)
  | store offset value =>
    rcases reset with rfl | rfl | rfl
    · exact (by decide : RegisterFile.InWindow Register.dmaMode)
    · exact (by decide : RegisterFile.InWindow (Register.addressHigh 0))
    · exact (by decide : RegisterFile.InWindow (Register.addressLow 0))
  | _ => exact reset.elim

def settingActions : Effect → Prop
  | .load offset => offset = Register.dmaSystemBus ∨ offset = Register.channelControl
  | .store offset _ => RegisterFile.InWindow offset
  | _ => False

theorem configure_only : Bus.configure.Only settingActions := by
  have write {offset : Nat} {value : Word} (inside : RegisterFile.InWindow offset) :
      (store offset value).Only settingActions :=
    Only.act inside
  refine Only.bind (Only.act (.inl rfl)) fun _ => (write (by decide)).bind fun _ => ?_
  refine (write (by decide)).bind fun _ => Only.bind (Only.act (.inr rfl)) fun _ => ?_
  exact (write (by decide)).bind fun _ => write (by decide)

theorem bringUpActions_of_setting (e : Effect) (setting : settingActions e) : bringUpActions e := by
  cases e with
  | load offset =>
    rcases setting with rfl | rfl
    · exact (by decide : RegisterFile.InWindow Register.dmaSystemBus)
    · exact (by decide : RegisterFile.InWindow Register.channelControl)
  | store => exact setting
  | _ => exact setting.elim

def surveyActions : Effect → Prop
  | .load offset => RegisterFile.InWindow offset ∧ offset < Register.dmaMode
  | .random _ => True
  | _ => False

theorem load_only {offset : Nat}
    (inside : RegisterFile.InWindow offset ∧ offset < Register.dmaMode) :
    (load offset).Only surveyActions :=
  Only.act inside

theorem readFeatures_only : readFeatures.Only surveyActions := by
  unfold readFeatures
  iterate 5 refine (load_only (by decide)).bind fun _ => ?_
  exact .pure _

theorem readPermanent_only : readPermanent.Only surveyActions :=
  (load_only (by decide)).bind fun _ => (load_only (by decide)).bind fun _ => .pure _

theorem selectCurrent_only (requested : Option LinkLayerAddress) (permanent : MacAddress) :
    (selectCurrent requested permanent).Only surveyActions := by
  unfold selectCurrent
  split
  · exact .pure _
  · exact .ite ((Only.act trivial).bind fun _ => .pure _) (.ite (.pure _) (.pure _))

theorem bringUpActions_of_survey (e : Effect) (survey : surveyActions e) : bringUpActions e := by
  cases e with
  | load => exact survey.1
  | random => trivial
  | _ => exact survey.elim

theorem bringUp_only (config : HostConfig) (line : Nat) :
    (Adapter.bringUp config line).Only bringUpActions := by
  refine (readPermanent_only.mono bringUpActions_of_survey).bind fun permanent => ?_
  refine ((selectCurrent_only _ _).mono bringUpActions_of_survey).bind fun current => ?_
  refine (readFeatures_only.mono bringUpActions_of_survey).bind fun features => ?_
  split
  · exact .pure _
  · refine (Only.act trivial).bind fun _ => (Only.act trivial).bind fun _ => ?_
    refine ((softReset_only _).mono bringUpActions_of_reset).bind fun reset => ?_
    split
    · exact .pure _
    · refine (configure_only.mono bringUpActions_of_setting).bind fun _ => ?_
      exact (Only.act trivial).bind fun _ => .ite (.pure _) (.pure _)

def searchActions : Effect → Prop
  | .map _ _ | .unmap => True
  | _ => False

def adapterActions : Effect → Prop
  | .map _ _ | .unmap | .attach _ | .detach => True
  | e => bringUpActions e

theorem adapterActions_of_bringUp (e : Effect) (bringUp : bringUpActions e) : adapterActions e := by
  cases e <;> first | exact bringUp | trivial

theorem adapterActions_of_search (e : Effect) (search : searchActions e) : adapterActions e := by
  cases e <;> first | exact search.elim | trivial

theorem scan_only (resources : List Resource) (survey : Survey) :
    (survey.scan resources).Only searchActions := by
  induction resources generalizing survey with
  | nil =>
    unfold Survey.scan Survey.conclude
    refine .ite ?_ (.ite (.pure _) (.pure _))
    split
    · exact .pure _
    · exact (Only.act trivial).bind fun _ => .pure _
  | cons resource rest ih =>
    cases resource with
    | memory first length =>
      unfold Survey.scan
      refine .ite (ih _) (.ite (ih _) ?_)
      exact (Only.act trivial).bind fun _ => .ite (ih _) (.pure _)
    | interrupt | other => exact ih _

theorem bringIn_only (config : HostConfig) (resources : List Resource) :
    (Adapter.prepare config resources).Only adapterActions := by
  refine ((scan_only resources {}).mono adapterActions_of_search).bind fun scanned => ?_
  split
  · exact .pure _
  · refine ((bringUp_only config _).mono adapterActions_of_bringUp).bind fun up => ?_
    split
    · exact (Only.act trivial).bind fun _ => .pure _
    · exact .pure _

theorem prepare_only (config : HostConfig) (resources : List Resource) :
    (Task.prepare config resources).Only adapterActions := by
  refine (bringIn_only config resources).bind fun result => ?_
  split
  · exact (Only.act trivial).bind fun _ => .pure _
  · exact .pure _

theorem release_only (a : Adapter) : (Task.release a).Only adapterActions := by
  have reset := ((softReset_only a.permanent).mono bringUpActions_of_reset).mono
    adapterActions_of_bringUp
  refine (Only.act trivial).bind fun _ => Only.bind ?_ fun _ => .pure _
  refine reset.bind fun _ => (Only.act trivial).bind fun _ => ?_
  split <;> exact .pure _

/-- The operations of a device between its preparation and its release. -/
def Operation.InService : Operation → Prop
  | prepare _ _ | release => False
  | _ => True

def Operation.Coordinating : Operation → Prop
  | register _ _ | enable _ | disable _ | interrupt | deferred | wanted => True
  | _ => False

theorem Operation.Coordinating.inService {op : Operation} (coordinating : op.Coordinating) :
    op.InService := by
  cases op <;> trivial

theorem Operation.Coordinating.task {op : Operation} (coordinating : op.Coordinating)
    {target : Target} (present : target ≠ .noDevice) :
    ∃ linkChange, (linkChange = act .linkChanged ∨ linkChange = discard refreshLink) ∧
      op.interruptTask? linkChange = some (op.task target) := by
  cases target with
  | noDevice => exact absurd rfl present
  | interrupts => cases op <;> first | exact ⟨_, .inl rfl, rfl⟩ | exact coordinating.elim
  | device a => cases op <;> first | exact ⟨_, .inr rfl, rfl⟩ | exact coordinating.elim

/-- The work that an operation in service can come to, whatever it is begun on. -/
inductive Operation.Work : Operation → Task → Prop where
  | nothing (op : Operation) (answer : Answer) : Work op (return .finished answer)
  | read (offset : Nat) : Work (.read offset) (.once (Program.load offset) .word)
  | write (offset : Nat) (value : Word) :
      Work (.write offset value) (.once (store offset value) fun _ => .ok)
  | load (offset : Nat) : Work (.load offset) (.once (Program.load offset) .word)
  | statistics : Work .statistics (.once readStatistics .statistics)
  | filter (a : Adapter) (flags : FilterFlags) (multicast : List LinkLayerAddress) :
      Work (.filter flags multicast)
        (.once (applyFilter a.features.addressCount a.current flags multicast) fun _ => .ok)
  | enterWorking (a : Adapter) : Work .enterWorking (.once a.enterWorking Task.outcome)
  | leaveWorking : Work .leaveWorking (.once Adapter.leaveWorking Task.outcome)
  | register (direction : Direction) (queue : Option QueueHandle) :
      Work (.register direction queue) (.once (Interrupt.register direction queue) fun _ => .ok)
  | enable (bits : InterruptMask) : Work (.enable bits) (.once (Interrupt.enable bits) fun _ => .ok)
  | disable (bits : InterruptMask) :
      Work (.disable bits) (.once (Interrupt.disable bits) fun _ => .ok)
  | interrupt : Work .interrupt (.once Interrupt.handle .truth)
  | deferred (linkChange : Program Unit)
      (either : linkChange = act .linkChanged ∨ linkChange = discard refreshLink) :
      Work .deferred (.deferred linkChange)
  | wanted : Work .wanted (.once (act .wanted) .mask)
  | describe (a : Adapter) : Work .describe (.describe a)

theorem Operation.work (op : Operation) (inService : op.InService) (target : Target) :
    op.Work (op.task target) := by
  cases op with
  | prepare | release => exact inService.elim
  | read | write => cases target <;> constructor
  | deferred =>
    cases target with
    | interrupts => exact .deferred _ (.inl rfl)
    | device a => exact .deferred _ (.inr rfl)
    | noDevice => exact .nothing _ _
  | _ => cases target <;> constructor

def Operation.besideActions (op : Operation) : Effect → Prop
  | .load _ | .store _ _ | .publishLink _ | .setActive _ | .active | .fault _ => True
  | .wanted | .armed _ => op = enterWorking ∨ op = leaveWorking ∨ op = describe
  | _ => False

/-- Such an operation obeys a law whose section obeys it, if the law does not care about the rest. -/
theorem Operation.Work.beside {σ : Type} {law : Law σ} {q : σ} {op : Operation} {task : Task}
    (work : op.Work task) (other : ¬ op.Coordinating)
    (ignores : ∀ e, op.besideActions e → law.Ignores q e) (yields : law.yields q)
    (enters : op = .enterWorking →
      (Interrupt.enable .stateOnly).Obeys law (fun _ after => after = q) q)
    (leaves : op = .leaveWorking → (Interrupt.disable .all).Obeys law (fun _ after => after = q) q) :
    task.Obeys law (fun _ after => after = q) q := by
  have quiet {α : Type} {p : Program α} (only : p.Only op.besideActions) :
      p.Obeys law (fun _ after => after = q) q :=
    .of_only only ignores yields
  have once {α : Type} {p : Program α} {answer : α → Answer}
      (kept : p.Obeys law (fun _ after => after = q) q) :
      (Task.once p answer).Obeys law (fun _ after => after = q) q :=
    kept.seq fun _ => rfl
  have power (transition : op = .enterWorking ∨ op = .leaveWorking) (e : Effect)
      (inside : powerActions e) : law.Ignores q e := by
    refine ignores e ?_
    cases e with
    | armed direction => exact transition.imp_right .inl
    | load | store | publishLink | setActive | fault => trivial
    | _ => exact inside.elim
  cases work with
  | nothing => rfl
  | read | load | write => exact once (quiet (.act trivial))
  | statistics =>
    refine once (quiet (readStatistics_only.mono fun e inside => ?_))
    cases e <;> first | exact inside.elim | trivial
  | filter a flags multicast =>
    refine once (quiet ((applyFilter_only ..).mono fun e inside => ?_))
    cases e <;> first | exact inside.elim | trivial
  | enterWorking a => exact once (a.enterWorking_obeys (power (.inl rfl)) yields (enters rfl))
  | leaveWorking =>
    exact once (Adapter.leaveWorking_obeys (power (.inr rfl)) yields (leaves rfl))
  | describe a =>
    exact quiet (Only.bind (.act (.inr (.inr rfl))) fun _ => Only.bind (.act trivial) fun _ => .pure _)
  | _ => exact absurd trivial other

/-- What an operation in service may do at all: handlers merge and schedule, workers drain, and the
device and its window stay. -/
def Operation.actions (op : Operation) : Effect → Prop
  | .map _ _ | .unmap | .attach _ | .detach => False
  | .merge _ | .schedule => op = .interrupt
  | .drain => op = .deferred
  | _ => True

namespace Operation

variable {op : Operation}

theorem actions_of_section (e : Effect) (inside : sectionActions e) : op.actions e := by
  cases e <;> first | exact inside.elim | trivial

theorem actions_of_serve (e : Effect) (inside : serveActions e) : op.actions e := by
  cases e <;> first | exact inside.elim | trivial

theorem work_only {task : Task} (work : op.Work task) : task.Only op.actions := by
  have once {α : Type} {p : Program α} {answer : α → Answer} (only : p.Only op.actions) :
      (Task.once p answer).Only op.actions :=
    only.bind fun _ => .pure _
  have within {p : Program Unit} (only : p.Only sectionActions) : p.Only op.actions :=
    only.mono actions_of_section
  by_cases coordinating : op.Coordinating
  · cases work with
    | nothing => exact .pure _
    | wanted => exact once (Only.act trivial)
    | register direction queue => exact once (within (Interrupt.register_only direction queue))
    | enable bits => exact once (within (Interrupt.enable_only bits))
    | disable bits => exact once (within (Interrupt.disable_only bits))
    | interrupt =>
      refine once (Interrupt.handle_only.mono fun e inside => ?_)
      cases e <;> first | exact inside.elim | trivial
    | deferred linkChange either =>
      have serve (causes : Causes) : (Interrupt.serve linkChange causes).Only deferred.actions :=
        Interrupt.serve_obeys either (fun e inside => ⟨actions_of_serve e inside, fun _ => rfl⟩)
          trivial (Only.onlyIf (within (Interrupt.serveQueues_only causes)))
      refine Only.bind (Only.bind (Only.act rfl) fun word => ?_) fun round => ?_
      · exact .ite (.pure _) ((serve _).bind fun _ => .pure _)
      · cases round <;> exact .pure _
    | _ => exact coordinating.elim
  · have kept {p : Program Unit} (only : p.Only sectionActions) :
        p.Obeys (.only op.actions) (fun _ after => after = ()) () :=
      Obeys.mono (within only) fun _ _ _ => rfl
    refine (work.beside coordinating (fun e inside => ⟨?_, fun _ => rfl⟩) trivial
      (fun _ => kept (Interrupt.enable_only _)) fun _ => kept (Interrupt.disable_only _)).mono
      fun _ _ _ => trivial
    cases e <;> first | exact inside.elim | trivial

theorem task_only (inService : op.InService) (target : Target) : (op.task target).Only op.actions :=
  work_only (op.work inService target)

/-- Only the worker goes on to another round. -/
theorem again_only {deeds : List Deed} {target : Target}
    (course : (op.task target).Course deeds .again) : op = .deferred := by
  by_cases inService : op.InService
  · have work := op.work inService target
    generalize op.task target = task at work course
    cases work with
    | nothing => cases course.2
    | deferred => rfl
    | describe =>
      obtain ⟨_, _, rfl, _, _, rfl, course⟩ := course
      cases course.2
    | _ =>
      obtain ⟨_, _, again⟩ := (course_once _ _ _).mp course
      cases again
  · cases op with
    | prepare config resources =>
      cases target with
      | noDevice =>
        obtain ⟨_, result, _, rfl, _, last⟩ := (course_bind _ _ _).mp course
        cases result with
        | error cause => cases last.2
        | ok adapter =>
          obtain ⟨_, _, rfl, last⟩ := last
          cases last.2
      | _ => cases course.2
    | release =>
      cases target with
      | device a =>
        obtain ⟨_, _, rfl, course⟩ := course
        obtain ⟨_, _, _, rfl, _, course⟩ := (course_bind a.giveBack _ _).mp course
        cases course.2
      | _ => cases course.2
    | _ => exact absurd trivial inService

end Operation

theorem Run.renews {admits : Machine → Step → Prop} {start m : Machine} {history : History}
    (resting : start.stack = []) (run : Run admits start history m) {op : Operation}
    {target : Target} {below : List Frame}
    (top : m.stack = .running op target (.done .again) :: below) : op = .deferred := by
  obtain ⟨deeds, _, _, course⟩ := run.round_course (fun _ _ => True) resting (fun _ _ _ => trivial) top
  exact Operation.again_only course

end EthernetMac
