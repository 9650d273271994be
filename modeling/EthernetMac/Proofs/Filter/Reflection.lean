import EthernetMac.Proofs.Address.Permanent
import EthernetMac.Proofs.Filter.Writes

/-! The address table and the packet filter show the latest filter requests, whatever else a device
does, and nothing is left over from earlier ones. -/

namespace EthernetMac

open Program

def Operation.Filters : Operation → Prop
  | filter _ _ => True
  | _ => False

/-- Filter requests are made at top level, and only interrupts come in the middle of one. -/
def Filtering (m : Machine) : Step → Prop
  | .set offset _ => ¬ Register.Filtering offset
  | .operation op => (m.stack = [] ∧ op.Filters) ∨ (op.Aside ∧
      ((∃ frame ∈ m.stack, ∃ other, frame.operation? = some other ∧ other.Filters) → op = .interrupt))
  | _ => True

def Operation.nestable : Operation → Effect → Prop
  | filter _ _ => handlerActions
  | _ => Effect.KeepsFilter

theorem Operation.keepsFilter_of_nestable (op : Operation) (e : Effect) (nested : op.nestable e) :
    e.KeepsFilter := by
  cases op <;> first | exact keepsFilter_of_handler e nested | exact nested

theorem filtering_confines (op : Operation) :
    Confines Filtering op Register.Filtering op.nestable where
  settles := Register.filtering_settles
  spares := op.keepsFilter_of_nestable
  surround m step admitted surrounds offset inside := by
    refine Station.meet_filtering ?_ inside
    rintro other value rfl
    exact admitted
  nested m other own admitted := by
    obtain ⟨frame, member, same⟩ := own
    obtain ⟨resting, _⟩ | ⟨aside, interrupts⟩ := admitted
    · rw [resting] at member
      cases member
    · cases op with
      | filter flags multicast =>
        obtain rfl := interrupts ⟨frame, member, _, same, trivial⟩
        exact Interrupt.interrupt_only _
      | _ => exact aside.only _

def StaysInside (tableSize : Nat) (history : History) : Prop :=
  ∀ depth op offset value (answer : Unit), .acted depth op (.store offset value) answer ∈ history →
    ∀ slot, max 1 tableSize ≤ slot → slot < Register.tableSlots →
      offset ≠ Register.addressHigh slot ∧ offset ≠ Register.addressLow slot

theorem StaysInside.append {tableSize : Nat} {first rest : History}
    (later : StaysInside tableSize first) (earlier : StaysInside tableSize rest) :
    StaysInside tableSize (first ++ rest) := by
  intro depth op offset value answer member
  rcases List.mem_append.mp member with member | member
  · exact later depth op offset value answer member
  · exact earlier depth op offset value answer member

theorem StaysInside.cons {tableSize : Nat} {history : History} {entry : Entry}
    (inside : StaysInside tableSize history)
    (quiet : ∀ depth op effect answer, entry ≠ .acted depth op effect answer) :
    StaysInside tableSize (entry :: history) := by
  intro depth op offset value answer member
  rcases List.mem_cons.mp member with rfl | member
  · exact absurd rfl (quiet _ _ _ _)
  · exact inside depth op offset value answer member

theorem Deeds.staysInside {nestable : Effect → Prop} {start s : Station} {op : Operation}
    {deeds : List Deed} {history : History} {tableSize : Nat}
    (done : Deeds Register.Filtering nestable start op deeds history s)
    (spares : ∀ e, nestable e → e.KeepsFilter)
    (inside : ∀ deed ∈ deeds, ∀ offset value, deed.effect = .store offset value →
      ∀ slot, max 1 tableSize ≤ slot → slot < Register.tableSlots →
        offset ≠ Register.addressHigh slot ∧ offset ≠ Register.addressLow slot) :
    StaysInside tableSize history := by
  intro depth other offset value answer member slot above below
  rcases done.acted _ _ _ _ member with nested | own
  · have outside : ¬ Register.Filtering offset := spares _ nested
    exact Register.slot_apart outside below
  · exact inside _ own offset value rfl slot above below

theorem handlerActions_safe (e : Effect) (inside : handlerActions e) (s : Station) (cause : Fault) :
    s.apply e ≠ .error cause := by
  intro failed
  rcases Station.apply_error failed with rfl | ⟨_, rfl | rfl | ⟨_, rfl⟩⟩ |
    ⟨_, offset, outside, rfl | ⟨value, rfl⟩⟩
  · exact inside
  · exact inside
  · exact inside
  · exact inside
  · rcases inside with rfl | rfl | rfl <;> exact outside (by decide)
  · cases inside
    exact outside (by decide)

theorem filterActions_safe {tableSize : Nat} (fits : tableSize ≤ Register.tableSlots) (e : Effect)
    (inside : filterActions tableSize e) (s : Station) (cause : Fault) :
    s.apply e ≠ .error cause := by
  intro failed
  have room := Register.tableSlots_le
  rcases Station.apply_error failed with rfl | ⟨_, rfl | rfl | ⟨_, rfl⟩⟩ |
    ⟨_, offset, outside, rfl | ⟨value, rfl⟩⟩
  · obtain ⟨_, large⟩ := inside
    omega
  · exact inside
  · exact inside
  · exact inside
  · exact inside
  · rcases inside with rfl | ⟨slot, below, word⟩
    · exact outside (by decide)
    · have few : Register.tableSlots = 128 := rfl
      refine outside ?_
      simp only [RegisterFile.InWindow, Register.addressHigh, Register.addressLow,
        Register.addressTable, Register.addressStride, windowSize] at *
      omega

/-- A filter request programs what it asks for, and cannot fail to. -/
theorem Call.filtered {start m : Machine} {a : Adapter} {flags : FilterFlags}
    {multicast : List LinkLayerAddress} {outcome : Except Fault Answer} {inner : History}
    (call : Call Filtering start (.filter flags multicast) outcome inner m)
    (device : start.station.target = .device a) :
    outcome = .ok .ok ∧ m.station.target = .device a ∧
      Programmed a.features.addressCount a.current flags multicast start.station.registers
        m.station.registers ∧
      StaysInside a.features.addressCount inner := by
  obtain ⟨deeds, done, ended, _⟩ := call.follows (filtering_confines _)
  have fits := Register.addressCount_le a.features
  have only := applyFilter_only a.features.addressCount a.current flags multicast
  have task : (Operation.filter flags multicast).task start.station.target =
      .once (applyFilter a.features.addressCount a.current flags multicast) fun _ => .ok := by
    rw [device]
    rfl
  cases ended with
  | unwound failed allowed =>
    rw [task] at allowed
    rcases allowed with handled | own
    · exact absurd failed (handlerActions_safe _ handled _ _)
    · exact absurd failed (filterActions_safe fits _ (own _ (only.bind fun _ => .pure _)) _ _)
  | answered course =>
    have went := course nofun
    rw [task, course_once] at went
    obtain ⟨_, went, same⟩ := went
    cases same
    have acts := only.course went
    obtain rfl := applyFilter_course (Nat.le_trans fits Register.tableSlots_le) went
    refine ⟨rfl, ?_, filterDeeds_programmed fits done.follows.cells,
      done.staysInside keepsFilter_of_handler fun deed member offset value same slot above below => ?_⟩
    · refine (done.follows.target_eq fun deed member target => ?_).trans device
      have inside := acts deed member
      generalize deed.effect = e at inside
      cases e <;> first | rfl | exact inside.elim
    · have inside := acts deed member
      rw [same] at inside
      rcases inside with rfl | ⟨other, few, word⟩
      · exact ⟨(Register.words_apart slot).2.1.symm, (Register.words_apart slot).2.2.symm⟩
      · have beyond : slot ≠ other := by omega
        have apart := word_apart beyond word
        exact ⟨apart.1.symm, apart.2.symm⟩

theorem Call.aside {start m : Machine} {op : Operation} {outcome : Except Fault Answer}
    {inner : History} (call : Call Filtering start op outcome inner m) (aside : op.Aside) :
    m.station.target = start.station.target ∧
      (∀ offset, Register.Filtering offset →
        m.station.registers.cell offset = start.station.registers.cell offset) ∧
      ∀ tableSize, StaysInside tableSize inner := by
  obtain ⟨deeds, done, _, _⟩ := call.follows (filtering_confines op)
  have keeps := done.own _ (aside.only _)
  have elsewhere (deed : Deed) (member : deed ∈ deeds) (offset : Nat) (value : Word)
      (same : deed.effect = .store offset value) : ¬ Register.Filtering offset := by
    have kept := keeps deed member
    rw [same] at kept
    exact kept
  refine ⟨done.follows.target_eq fun deed member => (keeps deed member).target, ?_, ?_⟩
  · intro offset inside
    rw [done.follows.cells offset inside, written_of_apart]
    rintro ⟨other, value⟩ member rfl
    exact elsewhere _ (mem_writes.mp member) _ value rfl inside
  · intro tableSize
    refine done.staysInside op.keepsFilter_of_nestable ?_
    intro deed member offset value same slot _ below
    exact Register.slot_apart (elsewhere deed member offset value same) below

structure Request where
  flags : FilterFlags
  multicast : List LinkLayerAddress

def Entry.request? : Entry → Option Request
  | .begun _ (.operation (.filter flags multicast)) => some ⟨flags, multicast⟩
  | _ => none

def requests (history : History) : List Request := history.filterMap Entry.request?

def Request.selective (request : Request) : Bool := !request.flags.contains .promiscuous

/-- The registers show the requests of a device that found them as `before`. -/
structure Reflects (a : Adapter) (requests : List Request) (before f : RegisterFile) : Prop where
  /-- The station address takes part unless the last request for the table left it out. -/
  station : f.Holds 0 a.current <|
    (requests.find? Request.selective).all fun request => request.flags.contains .directed
  /-- Every other slot is as that request wants it, cleared where it has nothing for it. -/
  entries : ∀ request, requests.find? Request.selective = some request →
    ∀ slot, 0 < slot → slot < a.features.addressCount →
      f.Holds slot ((request.flags.entry request.multicast slot).getD .zero)
        (request.flags.entry request.multicast slot).isSome
  packet : f.cell Register.macPacketFilter =
    (requests.head?.map fun request => request.flags.packetFilter).getD
      (before.cell Register.macPacketFilter)
  beyond : ∀ slot, max 1 a.features.addressCount ≤ slot → slot < Register.tableSlots →
    f.SameSlot before slot

namespace Reflects

variable {a : Adapter} {requests : List Request} {before f g : RegisterFile}

theorem congr (reflects : Reflects a requests before f)
    (same : ∀ offset, Register.Filtering offset → g.cell offset = f.cell offset) :
    Reflects a requests before g := by
  have slots (slot : Nat) (inside : slot < Register.tableSlots) : g.SameSlot f slot :=
    ⟨same _ (Register.filtering_slot slot inside).1, same _ (Register.filtering_slot slot inside).2⟩
  have fits := Register.addressCount_le a.features
  constructor
  case station => exact (slots 0 (by decide)).holds reflects.station
  case entries =>
    intro request last slot positive inside
    exact (slots slot (by omega)).holds (reflects.entries request last slot positive inside)
  case packet => exact (same _ (.inl rfl)).trans reflects.packet
  case beyond =>
    intro slot above below
    exact (slots slot below).trans (reflects.beyond slot above below)

theorem request {request : Request} (reflects : Reflects a requests before f)
    (programmed : Programmed a.features.addressCount a.current request.flags request.multicast f g) :
    Reflects a (request :: requests) before g := by
  have fits := Register.addressCount_le a.features
  have beyond (slot : Nat) (above : max 1 a.features.addressCount ≤ slot)
      (below : slot < Register.tableSlots) : g.SameSlot before slot :=
    (programmed.beyond slot above below).trans (reflects.beyond slot above below)
  cases promiscuous : request.flags.contains .promiscuous with
  | true =>
    have last : (request :: requests).find? Request.selective = requests.find? Request.selective := by
      rw [List.find?_cons_of_neg]
      simp [Request.selective, promiscuous]
    have spared := programmed.spared promiscuous
    refine ⟨?_, ?_, programmed.packet, beyond⟩ <;> rw [last]
    · exact (spared 0 (by decide)).holds reflects.station
    · intro other same slot positive inside
      exact (spared slot (by omega)).holds (reflects.entries other same slot positive inside)
  | false =>
    have last : (request :: requests).find? Request.selective = some request := by
      rw [List.find?_cons_of_pos]
      simp [Request.selective, promiscuous]
    refine ⟨?_, ?_, programmed.packet, beyond⟩ <;> rw [last]
    · exact programmed.station promiscuous
    · rintro _ ⟨⟩
      exact programmed.entries promiscuous

end Reflects

theorem Call.requests_eq_nil {start m : Machine} {op : Operation} {outcome : Except Fault Answer}
    {inner : History} (call : Call Filtering start op outcome inner m) :
    requests (op.over outcome :: inner) = [] := by
  refine List.filterMap_eq_nil_iff.mpr fun entry member => ?_
  obtain ⟨later, earlier, whole⟩ := List.append_of_mem member
  have run := call.run
  rw [whole] at run
  obtain ⟨before, _, ⟨step, rfl, resting, busy, _⟩ | ⟨_, _, admitted⟩⟩ := run.before
  · exact absurd resting busy
  · cases entry with
    | begun depth step =>
      obtain ⟨busy, allowed⟩ := admitted depth step rfl
      cases step with
      | operation op =>
        cases op with
        | filter =>
          obtain ⟨resting, _⟩ | ⟨aside, _⟩ := allowed
          · exact absurd resting busy
          · exact aside.elim
        | _ => rfl
      | _ => rfl
    | _ => rfl

theorem Call.prepare_staysInside {start m : Machine} {config : HostConfig}
    {resources : List Resource} {inner : History}
    (call : Call Undisturbed start (.prepare config resources) (.ok .ok) inner m)
    (tableSize : Nat) : StaysInside tableSize inner := by
  obtain ⟨main, _, shows', _, _, stores, _⟩ := call.shown (.inl rfl)
  intro depth op offset value answer member slot above below
  have table := Register.filtering_slot slot below
  have later : slot ≠ 0 := by omega
  obtain ⟨highs, highLow, lowHigh, lows⟩ := Register.slots_apart later
  constructor
  · rintro rfl
    exact (shows'.stores (stores _ _ _ _ _ member table.1) table.1).elim highs highLow
  · rintro rfl
    exact (shows'.stores (stores _ _ _ _ _ member table.2) table.2).elim lowHigh lows

/-- The latest requests decide what the registers show, whatever a device did meanwhile, and nothing is
ever written beyond its table. -/
theorem filter_reflects {start prepared m : Machine} {config : HostConfig}
    {resources : List Resource} {first history : History}
    (prepares : Call Undisturbed start (.prepare config resources) (.ok .ok) first prepared)
    (run : Run Filtering prepared history m) (resting : m.stack = []) :
    ∃ a, m.station.target = .device a ∧
      Reflects a (requests history) prepared.station.registers m.station.registers ∧
      StaysInside a.features.addressCount (history ++ first) := by
  obtain ⟨a, attached, _, holds, _⟩ := prepares.attached
  have initial : Reflects a [] prepared.station.registers prepared.station.registers :=
    ⟨holds, nofun, rfl, fun _ _ _ => ⟨rfl, rfl⟩⟩
  obtain ⟨device, reflects, inside⟩ : m.station.target = .device a ∧
      Reflects a (requests history) prepared.station.registers m.station.registers ∧
      StaysInside a.features.addressCount history := by
    refine run.by_calls (P := fun history s => s.target = .device a ∧
        Reflects a (requests history) prepared.station.registers s.registers ∧
        StaysInside a.features.addressCount history) filtering_confines prepares.rests
      ⟨attached, initial, nofun⟩ (fun _ kept => kept) ?surround ?call resting
    case surround =>
      rintro history m step ⟨device, reflects, inside⟩ _ admitted surrounds
      have none : requests (.begun 0 step :: history) = requests history := by
        cases step <;> first | rfl | exact absurd rfl (surrounds _)
      rw [none]
      refine ⟨(m.station.meet_target step).1.trans device, reflects.congr fun offset filtering => ?_,
        inside.cons (fun _ _ _ _ => nofun)⟩
      refine Station.meet_filtering ?_ filtering
      rintro other value rfl
      exact admitted
    case call =>
      rintro history m op outcome inner after ⟨device, reflects, inside⟩ admitted call
      have none := call.requests_eq_nil
      have during {tableSize : Nat} (within : StaysInside tableSize inner)
          (before : StaysInside tableSize history) : StaysInside tableSize
            (op.over outcome :: inner ++ .begun 0 (.operation op) :: history) := by
        refine StaysInside.append (within.cons ?_) (before.cons fun _ _ _ _ => nofun)
        cases outcome <;> exact fun _ _ _ _ => nofun
      -- None is nested in a call, so a call adds at most the request that it is itself.
      have split : requests (op.over outcome :: inner ++ .begun 0 (.operation op) :: history) =
          requests (.begun 0 (.operation op) :: history) := by
        rw [requests, List.filterMap_append, ← requests, none]
        rfl
      rw [split]
      rcases admitted with ⟨_, filters⟩ | ⟨aside, _⟩
      · cases op with
        | filter flags multicast =>
          obtain ⟨_, device, programmed, within⟩ := call.filtered device
          exact ⟨device, reflects.request programmed, during within inside⟩
        | _ => exact filters.elim
      · obtain ⟨same, cells, within⟩ := call.aside aside
        have unasked : requests (.begun 0 (.operation op) :: history) = requests history := by
          cases op <;> first | rfl | exact aside.elim
        rw [unasked]
        exact ⟨same.trans device, reflects.congr cells, during (within _) inside⟩
  exact ⟨a, device, reflects, inside.append (prepares.prepare_staysInside _)⟩

def threeSlots : Machine where
  station :=
    { registers := RegisterFile.preset { cell := fun _ => 0 }
        [(Register.macVersion, 0x5251), (Register.macFeature0, 3 <<< 18)]
      target := .noDevice }

def threeSlotsPrepared : Machine := threeSlots.after (.prepare {} Adapter.fittingResources) 60

def oneGroup : LinkLayerAddress := ⟨[0x01, 0, 0x5E, 0, 0, 1], by decide⟩

def otherGroup : LinkLayerAddress := ⟨[0x01, 0, 0x5E, 0, 0, 2], by decide⟩

def threeSlotsFull : Machine :=
  threeSlotsPrepared.after (.filter (.directed ||| .multicast) [oneGroup, otherGroup]) 20

def threeSlotsFewer : Machine := threeSlotsFull.after (.filter .multicast [otherGroup]) 20

theorem filter_reflects_threeSlots :
    ∃ first history, Call Undisturbed threeSlots (.prepare {} Adapter.fittingResources) (.ok .ok)
        first threeSlotsPrepared ∧
      Run Filtering threeSlotsPrepared history threeSlotsFewer ∧ threeSlotsFewer.stack = [] ∧
      threeSlotsFewer.station.registers.Holds 1 ⟨0x01, 0, 0x5E, 0, 0, 2⟩ true ∧
      threeSlotsFewer.station.registers.Holds 2 .zero false ∧
      threeSlotsFewer.station.registers.listens 0 = false := by
  have prepares : Call Undisturbed threeSlots (.prepare {} Adapter.fittingResources) (.ok .ok) _
      threeSlotsPrepared := .alone _ rfl rfl rfl
  have full : Run Filtering threeSlotsPrepared _ threeSlotsFull :=
    .alone .refl _ rfl rfl (.inl ⟨rfl, trivial⟩)
  have fewer : Run Filtering threeSlotsPrepared _ threeSlotsFewer :=
    .alone full _ rfl rfl (.inl ⟨rfl, trivial⟩)
  obtain ⟨a, device, reflects, _⟩ := filter_reflects prepares fewer rfl
  have slots : a.features.addressCount = 3 := by
    rw [← Target.device.inj device]
    rfl
  have latest := reflects.entries ⟨.multicast, [otherGroup]⟩ rfl
  exact ⟨_, _, prepares, fewer, rfl, latest 1 (by decide) (by omega), latest 2 (by decide) (by omega),
    reflects.station.listens⟩

end EthernetMac
