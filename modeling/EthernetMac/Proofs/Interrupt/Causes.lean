import EthernetMac.Proofs.Action
import EthernetMac.Proofs.Footprint

namespace EthernetMac

open Program

inductive Cause where
  | link
  | channel (bit : Fin 32)
  deriving DecidableEq

namespace Cause

def register : Cause → Nat
  | link => Register.macInterruptStatus
  | channel _ => Register.channelStatus

def bit : Cause → Nat
  | link => MacInterruptStatus.linkStatus.low
  | channel bit => bit

def place : Cause → Nat
  | link => 31
  | channel bit => bit

def Latched (c : Cause) (f : RegisterFile) : Prop := (f.cell c.register).getLsbD c.bit = true

/-- A pending word, or what will become part of one, has the cause. -/
def In (c : Cause) (word : Word) : Prop := word.getLsbD c.place = true

def RaisedBy (c : Cause) : Step → Prop
  | .raiseLink => c = link
  | .raiseChannel bits => ∃ bit : Fin 32, c = channel bit ∧ bits.getLsbD bit = true
  | _ => False

end Cause

namespace Entry

def raises (c : Cause) : Entry → Prop
  | .begun _ step => c.RaisedBy step
  | _ => False

def acknowledges (c : Cause) : Entry → Prop
  | .acted _ _ (.load offset) _ => c = .link ∧ offset = Register.macPhyStatus
  | .acted _ _ (.store offset value) _ =>
    offset = Register.channelStatus ∧ c.register = Register.channelStatus ∧
      value.getLsbD c.bit = true
  | _ => False

def drains (c : Cause) : Entry → Prop
  | .acted _ _ .drain word => c.In word
  | _ => False

end Entry

namespace Cause

variable {c : Cause}

theorem register_ne_dmaMode : c.register ≠ Register.dmaMode := by
  cases c with
  | link => exact (by decide : Register.macInterruptStatus ≠ Register.dmaMode)
  | channel i => exact (by decide : Register.channelStatus ≠ Register.dmaMode)

theorem register_ne_phyStatus : c.register ≠ Register.macPhyStatus := by
  cases c with
  | link => exact (by decide : Register.macInterruptStatus ≠ Register.macPhyStatus)
  | channel i => exact (by decide : Register.channelStatus ≠ Register.macPhyStatus)

theorem latched_set_of_ne {f : RegisterFile} {offset : Nat} (value : Word)
    (apart : c.register ≠ offset) : c.Latched (f.set offset value) ↔ c.Latched f := by
  unfold Latched
  rw [RegisterFile.cell_set_of_ne f value apart]

/-- A latch stays until it is acknowledged, and no action sets it. -/
theorem latched_apply {s after : Station} {e : Effect} {answer : e.Answer} (depth : Nat)
    (op : Operation) (device : s.registers.backing = .device)
    (applied : s.apply e = .ok (answer, after))
    (reserved : ∀ value, e ≠ .store Register.macInterruptStatus value) :
    c.Latched after.registers ↔
      c.Latched s.registers ∧ ¬ (Entry.acted depth op e answer).acknowledges c := by
  rw [Station.apply_registers applied]
  cases e with
  | load offset =>
    by_cases phy : offset = Register.macPhyStatus
    · subst phy
      simp only [Effect.registers, RegisterFile.reading_phyStatus device, Entry.acknowledges]
      cases c with
      | link =>
        have cleared : ¬ link.Latched s.registers.acknowledgeLink := by
          change ¬ MacInterruptStatus.linkStatus.test (s.registers.acknowledgeLink.cell _) = true
          simp [RegisterFile.acknowledgeLink, register, Field.test_assign MacInterruptStatus.linkStatus (by decide)]
        simp [cleared]
      | channel i =>
        have apart : (channel i).register ≠ Register.macInterruptStatus :=
          (by decide : Register.channelStatus ≠ Register.macInterruptStatus)
        simp [RegisterFile.acknowledgeLink, latched_set_of_ne _ apart]
    · have same : (s.registers.reading offset).cell c.register = s.registers.cell c.register :=
        RegisterFile.reading_cell_of_ne register_ne_dmaMode fun is => absurd is phy
      simp [Effect.registers, Latched, same, Entry.acknowledges, phy]
  | store offset value =>
    by_cases status : offset = Register.channelStatus
    · subst status
      simp only [Effect.registers, RegisterFile.writing_channelStatus device, Entry.acknowledges]
      cases c with
      | link =>
        have apart : link.register ≠ Register.channelStatus := by decide
        simp [latched_set_of_ne _ apart, apart]
      | channel i => simp [Latched, register, bit]
    · have apart : c.register ≠ offset := by
        cases c with
        | link => exact fun same => reserved value (by rw [← same]; rfl)
        | channel i => exact fun same => status same.symm
      simp [Effect.registers, RegisterFile.writing_of_ne status, latched_set_of_ne _ apart,
        Entry.acknowledges, status]
  | _ => simp [Effect.registers, Entry.acknowledges]

/-- What is not an action sets a latch only by raising the cause. -/
theorem latched_meet {s : Station} {step : Step}
    (reserved : ∀ offset value, step = .set offset value → offset ≠ c.register) :
    c.Latched (s.meet step).registers ↔ c.Latched s.registers ∨ c.RaisedBy step := by
  cases step with
  | set offset value =>
    have apart : c.register ≠ offset := (reserved offset value rfl).symm
    simp [Station.meet, latched_set_of_ne _ apart, RaisedBy]
  | raiseLink =>
    cases c with
    | link =>
      have up : link.Latched s.registers.raiseLink := by
        change MacInterruptStatus.linkStatus.test (s.registers.raiseLink.cell _) = true
        simp [RegisterFile.raiseLink, register, Field.test_assign MacInterruptStatus.linkStatus (by decide)]
      simp [Station.meet, up, RaisedBy]
    | channel i =>
      have apart : (channel i).register ≠ Register.macInterruptStatus :=
          (by decide : Register.channelStatus ≠ Register.macInterruptStatus)
      simp [Station.meet, RegisterFile.raiseLink, latched_set_of_ne _ apart, RaisedBy]
  | raiseChannel bits =>
    cases c with
    | link =>
      have apart : link.register ≠ Register.channelStatus := by decide
      simp [Station.meet, RegisterFile.raiseChannel, latched_set_of_ne _ apart, RaisedBy]
    | channel i =>
      simp [Station.meet, RegisterFile.raiseChannel, Latched, register, bit, RaisedBy]
  | _ => simp [Station.meet, Latched, RaisedBy]

end Cause

def causesOf (offset : Nat) (value : Word) : Word :=
  if offset = Register.macInterruptStatus then
    if MacInterruptStatus.linkStatus.test value then linkCause else 0
  else if offset = Register.channelStatus then value
  else 0

structure Reading where
  call : Option Operation
  unmerged : Word

namespace Reading

/-- Only causes that were read are acknowledged, and a merge hands on all of them. -/
def Permits (q : Reading) : Effect → Prop
  | .load offset => offset = Register.macPhyStatus →
      q.call = some .deferred ∨ q.call = some .interrupt ∧ Cause.link.In q.unmerged
  | .store offset value => offset ≠ Register.macInterruptStatus ∧
      (offset = Register.channelStatus → q.call = some .interrupt ∧
        ∀ i, value.getLsbD i = true → q.unmerged.getLsbD i = true)
  | .merge causes => q.call = some .interrupt ∧ causes = q.unmerged
  | .attach _ | .fault _ => False
  | _ => True

def after (q : Reading) : (e : Effect) → e.Answer → Reading
  | .load offset, value =>
    if q.call = some .interrupt then { q with unmerged := q.unmerged ||| causesOf offset value }
    else q
  | .merge _, _ => { q with unmerged := 0 }
  | _, _ => q

end Reading

def causeLaw : Law Reading where
  idle := ⟨none, 0⟩
  start op := ⟨some op, 0⟩
  permits := Reading.Permits
  after := Reading.after
  ends q := q.unmerged = 0

namespace causeLaw

@[simp] theorem idle_eq : causeLaw.idle = ⟨none, 0⟩ := rfl

@[simp] theorem start_eq (op : Operation) : causeLaw.start op = ⟨some op, 0⟩ := rfl

@[simp] theorem permits_eq : causeLaw.permits = Reading.Permits := rfl

@[simp] theorem after_eq : causeLaw.after = Reading.after := rfl

@[simp] theorem yields_eq (q : Reading) : causeLaw.yields q ↔ True := .rfl

@[simp] theorem ends_eq (q : Reading) : causeLaw.ends q ↔ q.unmerged = 0 := .rfl

theorem call_eq (depth : Nat) (history : History) :
    (causeLaw.state depth history).call = calls.state depth history := by
  refine Law.state_map Reading.call rfl (fun _ => rfl) (fun q e answer => ?_) depth history
  cases e with
  | load offset =>
    simp only [after_eq, Reading.after]
    split <;> rfl
  | _ => rfl

theorem of_section {q : Reading} {p : Program Unit} (only : p.Only sectionActions) :
    p.Obeys causeLaw (fun _ after => after = q) q := by
  refine .of_only only (fun e allowed => ?_) trivial
  cases e with
  | store offset value =>
    refine ⟨?_, fun _ => rfl⟩
    rcases allowed with rfl | rfl <;> exact ⟨by decide, nofun⟩
  | acquire | release | wanted | mask | setMask | setQueue | takeQueue | count | notify =>
    exact ⟨trivial, fun _ => rfl⟩
  | _ => exact allowed.elim

theorem handle :
    Interrupt.handle.Obeys causeLaw (fun _ => causeLaw.ends) ⟨some .interrupt, 0⟩ := by
  unfold Interrupt.handle
  rw [obeys_bind, obeys_load]
  refine ⟨nofun, fun mac => ⟨trivial, ?_⟩⟩
  rw [obeys_bind, obeys_load]
  refine ⟨nofun, fun channel => ⟨trivial, ?_⟩⟩
  have read : causeLaw.after (causeLaw.after ⟨some .interrupt, 0⟩
      (.load Register.macInterruptStatus) mac) (.load Register.channelStatus) channel =
      ⟨some .interrupt,
        channel ||| if MacInterruptStatus.linkStatus.test mac then linkCause else 0⟩ := by
    simp [Reading.after, causesOf, Register.macInterruptStatus, Register.channelStatus,
      BitVec.or_comm]
  rw [read]
  generalize MacInterruptStatus.linkStatus.test mac = link
  dsimp only
  rw [obeys_ite]
  constructor
  · intro nothing
    have none : link = false ∧ channel = 0 := by simpa using nothing
    rw [none.1, none.2]
    exact ⟨trivial, fun _ => ⟨nofun, rfl⟩⟩
  · intro _
    refine Obeys.seq (.onlyIf fun up => (obeys_discard ..).mpr ?_) fun _ => ?_
    · rw [up]
      exact ⟨fun _ => .inr ⟨rfl, by simp [Cause.In, Cause.place, linkCause]⟩,
        fun _ => ⟨fun _ => trivial, by simp [Reading.after, causesOf,
          Register.macPhyStatus, Register.macInterruptStatus, Register.channelStatus]⟩⟩
    refine Obeys.seq (.onlyIf fun _ => ?_) fun _ => ?_
    · refine ⟨⟨by decide, fun _ => ⟨rfl, fun i bit => by simp [bit]⟩⟩, fun _ => ⟨fun _ => trivial, rfl⟩⟩
    exact ⟨⟨rfl, rfl⟩, fun _ => ⟨nofun, trivial, fun _ => ⟨fun _ => trivial, trivial,
      fun _ => ⟨nofun, rfl⟩⟩⟩⟩

theorem serve {linkChange : Program Unit} (causes : Causes)
    (either : linkChange = act .linkChanged ∨ linkChange = discard refreshLink) :
    (Interrupt.serve linkChange causes).Obeys causeLaw
      (fun _ after => after = ⟨some .deferred, 0⟩) ⟨some .deferred, 0⟩ := by
  refine Interrupt.serve_obeys either (fun e inside => ?_) trivial
    (.onlyIf fun _ => of_section (Interrupt.serveQueues_only causes))
  cases e with
  | load offset => exact ⟨fun _ => .inl rfl, fun _ => rfl⟩
  | store offset value =>
    cases inside
    exact ⟨⟨by decide, nofun⟩, fun _ => rfl⟩
  | publishLink | linkChanged | count => exact ⟨trivial, fun _ => rfl⟩
  | _ => exact inside.elim

theorem work {linkChange : Program Unit}
    (either : linkChange = act .linkChanged ∨ linkChange = discard refreshLink) :
    (Interrupt.work linkChange).Obeys causeLaw
      (fun _ after => after = ⟨some .deferred, 0⟩) ⟨some .deferred, 0⟩ := by
  refine Obeys.seq ⟨trivial, fun _ => ⟨nofun, rfl⟩⟩ fun pending => ?_
  rw [obeys_ite]
  exact ⟨fun _ => rfl, fun _ => (serve _ either).seq fun _ => rfl⟩

theorem task {op : Operation} (coordinating : op.Coordinating) (target : Target) :
    (op.task target).Obeys causeLaw (fun _ => causeLaw.ends) (causeLaw.start op) := by
  have within {p : Program Unit} {answer : Unit → Answer} (only : p.Only sectionActions) :
      (Task.once p answer).Obeys causeLaw (fun _ => causeLaw.ends) (causeLaw.start op) :=
    (of_section only).seq fun _ => rfl
  have shape := op.work coordinating.inService target
  generalize op.task target = task at shape
  cases shape with
  | nothing => rfl
  | register direction queue => exact within (Interrupt.register_only direction queue)
  | enable bits => exact within (Interrupt.enable_only bits)
  | disable bits => exact within (Interrupt.disable_only bits)
  | interrupt => exact (obeys_once ..).mpr handle
  | deferred linkChange either =>
    refine (work either).seq fun round => ?_
    cases round <;> rfl
  | wanted => exact ⟨trivial, fun _ => ⟨nofun, rfl⟩⟩
  | _ => exact coordinating.elim

end causeLaw

end EthernetMac
