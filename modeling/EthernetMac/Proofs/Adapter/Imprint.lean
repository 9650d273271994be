import EthernetMac.Proofs.Address.Permanent

namespace EthernetMac

open Program

structure Configured (fields : List (Nat × Nat × Nat)) (old new : Word) : Prop where
  holds : ∀ low width number, (low, width, number) ∈ fields →
    (new.toNat >>> low) % (1 <<< width) = number
  others : ∀ i, (∀ low width number, (low, width, number) ∈ fields → i < low ∨ low + width ≤ i) →
    new.getLsbD i = old.getLsbD i

def configured (settings : List (Field × Word)) (word : Word) : Word :=
  settings.foldl (fun word setting => setting.1.set setting.2 word) word

section Configured

variable {settings : List (Field × Word)}

theorem get_configured {f : Field} (apart : ∀ setting ∈ settings, setting.1.Apart f) (word : Word) :
    f.get (configured settings word) = f.get word := by
  induction settings generalizing word with
  | nil => rfl
  | cons setting settings ih =>
    obtain ⟨first, rest⟩ := List.forall_mem_cons.mp apart
    exact (ih rest _).trans (Field.get_set_of_apart first _ word)

theorem getLsbD_configured {i : Nat} (outside : ∀ setting ∈ settings, ¬ setting.1.Covers i)
    (word : Word) : (configured settings word).getLsbD i = word.getLsbD i := by
  induction settings generalizing word with
  | nil => rfl
  | cons setting settings ih =>
    obtain ⟨first, rest⟩ := List.forall_mem_cons.mp outside
    calc (configured settings (setting.1.set setting.2 word)).getLsbD i
        = (setting.1.set setting.2 word).getLsbD i := ih rest _
      _ = word.getLsbD i := by rw [Field.getLsbD_set, if_neg first]

/-- Fields that lie apart keep what they are set to, if they have room for it. -/
theorem get_configured_of_mem (apart : settings.Pairwise fun one later => later.1.Apart one.1)
    (fits : ∀ setting ∈ settings, setting.2 &&& setting.1.ones = setting.2) (word : Word) :
    ∀ setting ∈ settings, setting.1.get (configured settings word) = setting.2 := by
  induction settings generalizing word with
  | nil => exact List.forall_mem_nil _
  | cons setting settings ih =>
    obtain ⟨first, apart⟩ := List.pairwise_cons.mp apart
    obtain ⟨fit, fits⟩ := List.forall_mem_cons.mp fits
    refine List.forall_mem_cons.mpr ⟨?_, ih apart fits _⟩
    calc setting.1.get (configured settings (setting.1.set setting.2 word))
        = setting.1.get (setting.1.set setting.2 word) := get_configured first _
      _ = setting.2 &&& setting.1.ones := setting.1.get_set _ _
      _ = setting.2 := fit

theorem configured_of_apart (apart : settings.Pairwise fun one later => later.1.Apart one.1)
    (fits : ∀ setting ∈ settings, setting.2 &&& setting.1.ones = setting.2) (word : Word) :
    Configured (settings.map fun setting => (setting.1.low, setting.1.width, setting.2.toNat)) word
      (configured settings word) := by
  constructor
  case holds =>
    intro low width number member
    obtain ⟨setting, here, ⟨⟩⟩ := List.mem_map.mp member
    rw [← Field.toNat_get, get_configured_of_mem apart fits word setting here]
  case others =>
    intro i outside
    refine getLsbD_configured (fun setting member => ?_) word
    have apart := outside _ _ _ (List.mem_map.mpr ⟨setting, member, rfl⟩)
    unfold Field.Covers
    omega

end Configured

namespace Bus

def modeSettings : List (Field × Word) :=
  [ (DmaSystemBus.mixedBurst, 1), (DmaSystemBus.fixedBurst, 0),
    (DmaSystemBus.maxWriteOutstanding, 4), (DmaSystemBus.maxReadOutstanding, 8),
    (DmaSystemBus.burstLength16, 1), (DmaSystemBus.burstLength8, 1),
    (DmaSystemBus.burstLength4, 1) ]

/-- Mixed bursts in place of fixed ones, of 4, 8 and 16 beats, and at most 4 writes and 8 reads
outstanding. -/
def modeFields : List (Nat × Nat × Nat) :=
  [(14, 1, 1), (0, 1, 0), (24, 4, 4), (16, 4, 8), (3, 1, 1), (2, 1, 1), (1, 1, 1)]

def channelSettings : List (Field × Word) :=
  [(ChannelControl.descriptorSkip, 6), (ChannelControl.burstTimesEight, 1)]

def channelFields : List (Nat × Nat × Nat) := [(18, 3, 6), (16, 1, 1)]

theorem mode_configured (old : Word) : Configured modeFields old (mode old) := by
  have apart : modeSettings.Pairwise fun one later => later.1.Apart one.1 := by decide
  exact configured_of_apart apart (by decide) old

theorem channel_configured (old : Word) : Configured channelFields old (channel old) := by
  have apart : channelSettings.Pairwise fun one later => later.1.Apart one.1 := by decide
  exact configured_of_apart apart (by decide) old

end Bus

def Event.outward : Event → Bool
  | .write _ _ | .capabilities _ | .link _ | .start _ => true
  | _ => false

def Register.prepared : List Nat :=
  [ dmaMode, addressHigh 0, addressLow 0, dmaSystemBus, macMicrosecondTick, channelControl,
    mmcControl ]

/-- The words in the registers, and what was written, published and started up to now. -/
structure View where
  cell : Nat → Word
  shown : List Event

def Station.view (s : Station) : View where
  cell := s.registers.cell
  shown := (s.trace.filter Event.outward).reverse

namespace View

def tell (v : View) (event : Event) : View := { v with shown := v.shown ++ [event] }

def store (v : View) (offset : Nat) (value : Word) : View :=
  { v with cell := put v.cell (offset, value) }.tell (.write offset value)

def slot (v : View) (a : MacAddress) : View :=
  (v.store (Register.addressHigh 0) (a.highWord true)).store (Register.addressLow 0) a.lowWord

def mode (v : View) (word : Word) : View := { v with cell := put v.cell (Register.dmaMode, word) }

/-- A reset that is over: the bit was set, and is clear again. -/
def reset (v : View) (a : MacAddress) : View := ((v.store Register.dmaMode 1).mode 0).slot a

def configure (v : View) : View :=
  v.store Register.dmaSystemBus (Bus.mode (v.cell Register.dmaSystemBus))
    |>.store Register.macMicrosecondTick 124
    |>.store Register.channelControl (Bus.channel (v.cell Register.channelControl))
    |>.store Register.mmcControl 1

def prepare (v : View) (capabilities : Capabilities) (a : MacAddress) : View :=
  ((v.tell (.capabilities capabilities)).tell (.link .disconnected)).reset a |>.configure
    |>.tell (.start true)

theorem mode_mode (v : View) (first last : Word) : (v.mode first).mode last = v.mode last :=
  congrArg (View.mk · v.shown) (put_put ..)

variable (v : View) (capabilities : Capabilities) (a : MacAddress)

theorem prepare_cell {offset : Nat} (outside : offset ∉ Register.prepared) :
    (v.prepare capabilities a).cell offset = v.cell offset := by
  have cells : (v.prepare capabilities a).cell = written v.cell
      [ (Register.dmaMode, 1), (Register.dmaMode, 0), (Register.addressHigh 0, a.highWord true),
        (Register.addressLow 0, a.lowWord),
        (Register.dmaSystemBus, Bus.mode (v.cell Register.dmaSystemBus)),
        (Register.macMicrosecondTick, 124),
        (Register.channelControl, Bus.channel (v.cell Register.channelControl)),
        (Register.mmcControl, 1) ] := rfl
  rw [cells]
  refine written_of_apart ?_
  simpa [Register.prepared] using outside

theorem prepare_shown : (v.prepare capabilities a).shown = v.shown ++
    [ .capabilities capabilities, .link .disconnected, .write Register.dmaMode 1,
      .write (Register.addressHigh 0) (a.highWord true), .write (Register.addressLow 0) a.lowWord,
      .write Register.dmaSystemBus (Bus.mode (v.cell Register.dmaSystemBus)),
      .write Register.macMicrosecondTick 124,
      .write Register.channelControl (Bus.channel (v.cell Register.channelControl)),
      .write Register.mmcControl 1, .start true ] := by
  change v.shown ++ [_] ++ [_] ++ [_] ++ [_] ++ [_] ++ [_] ++ [_] ++ [_] ++ [_] ++ [_] = _
  simp only [List.append_assoc]
  rfl

end View

section Runs

variable {α : Type} {p : Program α} {s after : Station} {offset : Nat} {value : Word}

theorem Program.act_view {e : Effect} {answer : e.Answer} {event : Event}
    (still : e.registers s.registers = s.registers) (shows' : e.event? answer = some event)
    (outward : event.outward = true) (ran : (act e).run s = (.ok answer, after)) :
    after.view = s.view.tell event := by
  obtain ⟨applied, reply, rfl⟩ := Station.perform_iff.mp (run_act_iff.mp ran)
  have kept : applied.registers = s.registers := (Station.apply_registers reply).trans still
  simp [Station.view, View.tell, shows', outward, kept]

theorem Program.store_view {reply : Unit} (inside : RegisterFile.InWindow offset)
    (plain : offset ≠ Register.channelStatus)
    (ran : (store offset value).run s = (.ok reply, after)) :
    after.view = s.view.store offset value := by
  have performed := run_act_iff.mp ran
  rw [Station.perform_store inside plain] at performed
  cases performed
  exact congrArg (View.mk (put s.registers.cell (offset, value))) List.reverse_cons

def Register.Still (offset : Nat) : Prop :=
  RegisterFile.InWindow offset ∧ offset ≠ macPhyStatus ∧ offset ≠ dmaMode

instance (offset : Nat) : Decidable (Register.Still offset) := inferInstanceAs (Decidable (_ ∧ _))

theorem Program.load_bind_view {f : Word → Program α} {result : α} (still : Register.Still offset)
    (ran : (load offset >>= f).run s = (.ok result, after)) :
    ∃ mid : Station, mid.view = s.view ∧ (f (s.view.cell offset)).run mid = (.ok result, after) := by
  obtain ⟨inside, status, mode⟩ := still
  obtain ⟨value, mid, read, onward⟩ := run_bind_iff.mp ran
  have performed := run_act_iff.mp read
  rw [Station.perform_load inside, RegisterFile.reading_of_ne _ status mode] at performed
  cases performed
  refine ⟨_, ?_, onward⟩
  rfl

def Effect.Inert : Effect → Prop
  | .map _ _ | .unmap | .random _ => True
  | _ => False

theorem Program.Only.view (only : p.Only Effect.Inert) {value : α}
    (ran : p.run s = (.ok value, after)) : after.view = s.view := by
  obtain ⟨deeds, course, does⟩ := run_eq_ok_iff.mp ran
  have inert := only.course course
  clear ran course
  induction deeds generalizing s with
  | nil =>
    cases does
    rfl
  | cons deed deeds ih =>
    obtain ⟨first, rest⟩ := List.forall_mem_cons.mp inert
    obtain ⟨⟨e, answer⟩, mid, performed, does⟩ := deed, does
    rw [ih does rest]
    cases e with
    | map | unmap | random =>
      cases performed
      rfl
    | _ => exact first.elim

/-- A read of the mode register while a reset may be in progress finds the word as it is, or cleared. -/
theorem RegisterFile.reading_mode {f : RegisterFile} {cell : Nat → Word} {word : Word}
    (here : f.cell = put cell (Register.dmaMode, word)) (bit : word = 0 ∨ word = 1) :
    ∃ next : Word, (next = 0 ∨ next = 1) ∧
      (f.reading Register.dmaMode).cell = put cell (Register.dmaMode, next) := by
  have found : f.cell Register.dmaMode = word := by rw [here, put_self]
  have apart : Register.dmaMode ≠ Register.macPhyStatus := by decide
  unfold reading afterRead advanceReset
  rw [if_neg apart, if_pos rfl, found]
  split
  · exact ⟨word, bit, here⟩
  · dsimp only
    split
    · split
      · exact ⟨word, bit, here⟩
      · refine ⟨0, .inl rfl, ?_⟩
        have cleared : DmaMode.softwareReset.assign false word = 0 := by
          rcases bit with rfl | rfl <;> decide
        rw [cleared]
        change put f.cell (Register.dmaMode, 0) = _
        rw [here, put_put]
    · exact ⟨word, bit, here⟩

theorem Program.poll_view {v : View} {word : Word} (here : s.view = v.mode word)
    (bit : word = 0 ∨ word = 1) (ran : (load Register.dmaMode).run s = (.ok value, after)) :
    (value = 0 ∨ value = 1) ∧ after.view = v.mode value := by
  have performed := run_act_iff.mp ran
  rw [Station.perform_load (by decide)] at performed
  cases performed
  obtain ⟨next, bit, cells⟩ := RegisterFile.reading_mode (congrArg View.cell here) bit
  have shown : s.view.shown = v.shown := by
    rw [here]
    rfl
  have found : (s.registers.reading Register.dmaMode).cell Register.dmaMode = next := by
    rw [cells, put_self]
  rw [found]
  refine ⟨bit, ?_⟩
  calc _ = View.mk (s.registers.reading Register.dmaMode).cell s.view.shown := rfl
    _ = v.mode next := by rw [cells, shown]; rfl

theorem writeSlot_view {a : MacAddress} {reply : Unit}
    (ran : (writeSlot 0 a true).run s = (.ok reply, after)) : after.view = s.view.slot a := by
  rw [writeSlot_of_lt (by decide)] at ran
  obtain ⟨_, mid, high, low⟩ := run_bind_iff.mp ran
  rw [store_view (by decide) (by decide) low, store_view (by decide) (by decide) high]
  rfl

theorem await_view {v : View} {a : MacAddress} {word : Word} {used left polls : Nat}
    (here : s.view = v.mode word) (bit : word = 0 ∨ word = 1)
    (ran : (Reset.await a used left).run s = (.ok (.ok polls), after)) :
    after.view = (v.mode 0).slot a := by
  -- By induction on the polls that are left. The mode register holds 0 or 1 all along, so that a poll
  -- that finds the reset bit clear has found 0.
  induction left generalizing used s word with
  | zero => cases ran
  | succ left ih =>
    obtain ⟨_, waited, delayed, ran⟩ := run_bind_iff.mp ran
    obtain ⟨mode, polled, read, ran⟩ := run_bind_iff.mp ran
    have still : waited.view = v.mode word := by
      cases run_act_iff.mp delayed
      exact here
    obtain ⟨bit, found⟩ := poll_view still bit read
    split at ran
    · exact ih found bit ran
    · rename_i clear
      obtain ⟨_, last, wrote, ⟨⟩⟩ := run_bind_iff.mp ran
      rcases bit with rfl | rfl
      · rw [writeSlot_view wrote, found]
      · exact absurd (by decide) clear

theorem softReset_view {a : MacAddress} {polls : Nat}
    (ran : (softReset a).run s = (.ok (.ok polls), after)) : after.view = s.view.reset a := by
  obtain ⟨_, mid, began, ran⟩ := run_bind_iff.mp ran
  have set : mid.view = (s.view.store Register.dmaMode 1).mode 1 := by
    rw [store_view (by decide) (by decide) began]
    exact ((s.view.tell _).mode_mode 1 1).symm
  exact await_view set (.inr rfl) ran

theorem configure_view {reply : Unit} (ran : Bus.configure.run s = (.ok reply, after)) :
    after.view = s.view.configure := by
  unfold Bus.configure at ran
  obtain ⟨_, first, ran⟩ := load_bind_view (by decide) ran
  obtain ⟨_, _, wrote, ran⟩ := run_bind_iff.mp ran
  have second := store_view (by decide) (by decide) wrote
  obtain ⟨_, _, wrote, ran⟩ := run_bind_iff.mp ran
  have third := store_view (by decide) (by decide) wrote
  obtain ⟨_, fourth, ran⟩ := load_bind_view (by decide) ran
  obtain ⟨_, _, wrote, ran⟩ := run_bind_iff.mp ran
  have fifth := store_view (by decide) (by decide) wrote
  have sixth := store_view (by decide) (by decide) ran
  rw [sixth, fifth, fourth, third, second, first]
  rfl

def Features.ofCell (cell : Nat → Word) : Features where
  version := cell Register.macVersion
  feature0 := cell Register.macFeature0
  feature1 := cell Register.macFeature1
  feature2 := cell Register.macFeature2
  feature3 := cell Register.macFeature3

theorem readFeatures_view {features : Features}
    (ran : readFeatures.run s = (.ok features, after)) :
    features = .ofCell s.registers.cell ∧ after.view = s.view := by
  unfold readFeatures at ran
  obtain ⟨_, first, ran⟩ := load_bind_view (by decide) ran
  obtain ⟨_, second, ran⟩ := load_bind_view (by decide) ran
  obtain ⟨_, third, ran⟩ := load_bind_view (by decide) ran
  obtain ⟨_, fourth, ran⟩ := load_bind_view (by decide) ran
  obtain ⟨_, fifth, ⟨⟩⟩ := load_bind_view (by decide) ran
  rw [fifth, fourth, third, second, first]
  exact ⟨rfl, rfl⟩

theorem readPermanent_view {permanent : MacAddress}
    (ran : readPermanent.run s = (.ok permanent, after)) :
    permanent = s.registers.stored 0 ∧ after.view = s.view := by
  unfold readPermanent at ran
  obtain ⟨_, first, ran⟩ := load_bind_view (by decide) ran
  obtain ⟨_, second, ⟨⟩⟩ := load_bind_view (by decide) ran
  rw [second, first]
  exact ⟨rfl, rfl⟩

theorem selectCurrent_view {requested : Option LinkLayerAddress} {permanent current : MacAddress}
    (ran : (selectCurrent requested permanent).run s = (.ok current, after)) :
    Adapter.Chosen requested permanent current ∧ after.view = s.view := by
  have inert : (selectCurrent requested permanent).Only Effect.Inert := by
    unfold selectCurrent
    split
    · exact .pure _
    · exact .ite ((Only.act trivial).bind fun _ => .pure _) (.ite (.pure _) (.pure _))
  obtain ⟨deeds, course, _⟩ := run_eq_ok_iff.mp ran
  exact ⟨⟨deeds, course⟩, inert.view ran⟩

end Runs

namespace Adapter

def capabilities (a : Adapter) : Capabilities := .ofFeatures a.features a.dma a.permanent a.current

structure Found (config : HostConfig) (f : RegisterFile) (a : Adapter) : Prop where
  features : a.features = .ofCell f.cell
  supported : a.features.supported = .ok a.dma
  permanent : a.permanent = f.stored 0
  current : Chosen config.address a.permanent a.current

variable {config : HostConfig} {resources : List Resource} {s after : Station} {a : Adapter}

theorem bringUp_view {line : Nat} (ran : (bringUp config line).run s = (.ok (.ok a), after)) :
    a.Found config s.registers ∧ after.view = s.view.prepare a.capabilities a.current := by
  unfold bringUp at ran
  obtain ⟨permanent, looked, read, ran⟩ := run_bind_iff.mp ran
  obtain ⟨stored, first⟩ := readPermanent_view read
  obtain ⟨current, chose, select, ran⟩ := run_bind_iff.mp ran
  obtain ⟨chosen, second⟩ := selectCurrent_view select
  obtain ⟨features, surveyed, read, ran⟩ := run_bind_iff.mp ran
  obtain ⟨found, third⟩ := readFeatures_view read
  have same : surveyed.view = s.view := third.trans (second.trans first)
  have cells : chose.registers.cell = s.registers.cell := congrArg View.cell (second.trans first)
  cases checked : features.supported with
  | error cause =>
    rw [checked] at ran
    cases ran
  | ok dma =>
    rw [checked] at ran
    obtain ⟨_, published, publish, ran⟩ := run_bind_iff.mp ran
    have fourth := act_view rfl rfl rfl publish
    obtain ⟨_, told, tell, ran⟩ := run_bind_iff.mp ran
    have fifth := act_view rfl rfl rfl tell
    obtain ⟨reset, ready, resets, ran⟩ := run_bind_iff.mp ran
    cases reset with
    | error cause => cases ran
    | ok polls =>
      have sixth := softReset_view resets
      obtain ⟨_, configured, configures, ran⟩ := run_bind_iff.mp ran
      have seventh := configure_view configures
      obtain ⟨started, last, start, ran⟩ := run_bind_iff.mp ran
      have eighth := act_view rfl rfl rfl start
      cases started with
      | false => cases ran
      | true =>
        cases ran
        refine ⟨⟨cells ▸ found, checked, stored, chosen⟩, ?_⟩
        rw [eighth, seventh, sixth, fifth, fourth, same]
        rfl

theorem prepare_view (ran : (prepare config resources).run s = (.ok (.ok a), after)) :
    a.Found config s.registers ∧ after.view = s.view.prepare a.capabilities a.current := by
  unfold prepare at ran
  obtain ⟨scanned, mid, scans, ran⟩ := run_bind_iff.mp ran
  have inert : (scanResources resources).Only Effect.Inert :=
    (scan_only resources {}).mono fun e search => by cases e <;> first | exact search.elim | trivial
  have same := inert.view scans
  have cells : mid.registers.cell = s.registers.cell := congrArg View.cell same
  cases scanned with
  | error cause => cases ran
  | ok line =>
    obtain ⟨brought, last, brings, ran⟩ := run_bind_iff.mp ran
    cases brought with
    | error cause =>
      obtain ⟨_, _, _, ⟨⟩⟩ := run_bind_iff.mp ran
    | ok adapter =>
      cases ran
      obtain ⟨found, seen⟩ := bringUp_view brings
      rw [same] at seen
      refine ⟨⟨?_, found.supported, ?_, found.current⟩, seen⟩
      · rw [found.features, cells]
      · rw [found.permanent, RegisterFile.stored, cells]
        rfl

/-- What a preparation that succeeds makes of a station. -/
structure Imprint (config : HostConfig) (before after : Station) (a : Adapter) : Prop where
  attached : after.target = .device a ∧ after.active = false ∧ after.interrupt = {}
  found : a.Found config before.registers
  reset : after.registers.cell Register.dmaMode = 0
  slot : after.registers.Holds 0 a.current true
  mode : Configured Bus.modeFields (before.registers.cell Register.dmaSystemBus)
    (after.registers.cell Register.dmaSystemBus)
  tick : after.registers.cell Register.macMicrosecondTick = 124
  channel : Configured Bus.channelFields (before.registers.cell Register.channelControl)
    (after.registers.cell Register.channelControl)
  counters : after.registers.cell Register.mmcControl = 1
  elsewhere : ∀ offset, offset ∉ Register.prepared →
    after.registers.cell offset = before.registers.cell offset
  /-- Every write takes place before the start of the datapath. -/
  shown : after.view.shown = before.view.shown ++
    [ .capabilities a.capabilities, .link .disconnected, .write Register.dmaMode 1,
      .write (Register.addressHigh 0) (after.registers.cell (Register.addressHigh 0)),
      .write (Register.addressLow 0) (after.registers.cell (Register.addressLow 0)),
      .write Register.dmaSystemBus (after.registers.cell Register.dmaSystemBus),
      .write Register.macMicrosecondTick 124,
      .write Register.channelControl (after.registers.cell Register.channelControl),
      .write Register.mmcControl 1, .start true ]
  agree : a.capabilities.current = a.current ∧ after.registers.stored 0 = a.current ∧
    (Operation.inspect.task after.target).run after = (.ok (.finished (.adapter a)), after)

/-- A preparation that succeeds changes what it should and nothing else, whatever the registers held. -/
theorem prepared_imprint
    (prepared : ((Operation.prepare config resources).task s.target).run s =
      (.ok (.finished .ok), after)) :
    ∃ a, Imprint config s after a := by
  cases target : s.target with
  | device | interrupts =>
    rw [target] at prepared
    cases prepared
  | noDevice =>
    rw [target] at prepared
    obtain ⟨result, mid, prepares, ran⟩ := run_bind_iff.mp prepared
    cases result with
    | error cause => cases ran
    | ok a =>
      obtain ⟨_, last, attach, ⟨⟩⟩ := run_bind_iff.mp ran
      cases run_act_iff.mp attach
      obtain ⟨found, seen⟩ := prepare_view prepares
      have cells : mid.registers.cell = (s.view.prepare a.capabilities a.current).cell :=
        congrArg View.cell seen
      have holds : mid.registers.Holds 0 a.current true := by
        rw [RegisterFile.Holds, cells]
        exact ⟨rfl, rfl⟩
      refine ⟨a, ⟨rfl, rfl, rfl⟩, found, ?reset, holds, ?mode, ?tick, ?channel, ?counters, ?elsewhere,
        ?shown, rfl, holds.stored, rfl⟩
      all_goals dsimp only
      case reset => rw [cells]; rfl
      case mode => rw [cells]; exact Bus.mode_configured _
      case tick => rw [cells]; rfl
      case channel => rw [cells]; exact Bus.channel_configured _
      case counters => rw [cells]; rfl
      case elsewhere =>
        intro offset outside
        rw [cells]
        exact View.prepare_cell _ _ _ outside
      case shown =>
        rw [cells]
        exact (congrArg View.shown seen).trans (View.prepare_shown _ _ _)

def leftoverHardware : Station where
  registers :=
    { cell := fun offset =>
        if offset = Register.macVersion then 0x5251 else if offset < 0x300 then 0 else 0xFFFFFFFF
      busy := 2 }
  target := .noDevice

theorem prepared_imprint_leftoverHardware :
    ∃ after a,
      ((Operation.prepare otherStation fittingResources).task leftoverHardware.target).run
        leftoverHardware = (.ok (.finished .ok), after) ∧
      Imprint otherStation leftoverHardware after a ∧
      a.current = ⟨0x0A, 0, 0, 0, 0, 7⟩ ∧
      after.registers.cell Register.dmaSystemBus = 0xF4F8FFFE ∧
      after.registers.cell Register.channelControl = 0xFFFBFFFF := by
  have ran : ((Operation.prepare otherStation fittingResources).task leftoverHardware.target).run
      leftoverHardware = (.ok (.finished .ok), _) := rfl
  obtain ⟨a, imprint⟩ := prepared_imprint ran
  exact ⟨_, a, ran, imprint, imprint.agree.2.1.symm.trans rfl, rfl, rfl⟩

end Adapter

end EthernetMac
