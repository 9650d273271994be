import EthernetMac.Proofs.Footprint
import EthernetMac.Proofs.Interrupt.Handled

/-! The configuration that a status calls for, bit by bit. Everything else about it, and about a
refresh of the link, follows from where each bit comes from. -/

namespace EthernetMac

open Program

theorem Field.toNat_get_two (f : Field) (two : f.width = 2) (word : Word) :
    (f.get word).toNat = (word.getLsbD f.low).toNat + 2 * (word.getLsbD (f.low + 1)).toNat := by
  have bit (i : Nat) : (word.getLsbD i).toNat = (word.toNat >>> i) % 2 := by
    rw [Nat.shiftRight_eq_div_pow]
    exact Nat.toNat_testBit _ _
  have next : word.toNat >>> (f.low + 1) = (word.toNat >>> f.low) / 2 := Nat.shiftRight_succ _ _
  have four : 1 <<< 2 = 4 := rfl
  rw [toNat_get, two, bit, bit, next, four]
  omega

namespace LinkSpeed

def ofPort (selector : Nat) : LinkSpeed :=
  if selector = 0 then mbps1000
  else if selector = 2 then mbps10
  else if selector = 3 then mbps100
  else unknown

theorem ofClock_get (status : Word) :
    ofClock (MacPhyStatus.speed.get status) =
      match status.getLsbD 17, status.getLsbD 18 with
      | false, false => mbps10
      | true, false => mbps100
      | false, true => mbps1000
      | true, true => unknown := by
  have code := MacPhyStatus.speed.toNat_get_two rfl status
  change _ = (status.getLsbD 17).toNat + 2 * (status.getLsbD 18).toNat at code
  have same : MacPhyStatus.speed.get status =
      .ofNat 32 ((status.getLsbD 17).toNat + 2 * (status.getLsbD 18).toNat) := by
    rw [← code, BitVec.ofNat_toNat, BitVec.setWidth_eq]
  rw [same]
  cases status.getLsbD 17 <;> cases status.getLsbD 18 <;> rfl

end LinkSpeed

def SpeedKnown (status : Word) : Prop := (LinkState.ofStatus status).speed ≠ .unknown

theorem speedKnown_iff (status : Word) :
    SpeedKnown status ↔ ¬ (status.getLsbD 17 = true ∧ status.getLsbD 18 = true) := by
  change LinkSpeed.ofClock _ ≠ _ ↔ _
  rw [LinkSpeed.ofClock_get]
  cases status.getLsbD 17 <;> cases status.getLsbD 18 <;> simp

instance (status : Word) : Decidable (SpeedKnown status) := inferInstanceAs (Decidable (_ ≠ _))

variable (config status : Word)

/-- The selector for the reported speed, if it is known. -/
theorem port?_ofClock :
    (LinkSpeed.ofClock (MacPhyStatus.speed.get status)).port? =
      if SpeedKnown status then
        some (.ofNat 32 ((status.getLsbD 17).toNat + 2 * (!status.getLsbD 18).toNat))
      else none := by
  simp only [speedKnown_iff, LinkSpeed.ofClock_get]
  cases status.getLsbD 17 <;> cases status.getLsbD 18 <;> rfl

/-- Where each bit of a reconciled configuration comes from. -/
theorem getLsbD_reconcile (i : Nat) :
    (reconcile config status).getLsbD i =
      if i = 13 then status.getLsbD 16
      else if i = 14 ∧ SpeedKnown status then status.getLsbD 17
      else if i = 15 ∧ SpeedKnown status then !status.getLsbD 18
      else config.getLsbD i := by
  have duplex : (MacConfiguration.fullDuplex.assign (MacPhyStatus.fullDuplex.test status)
      config).getLsbD i = if i = 13 then status.getLsbD 16 else config.getLsbD i := by
    rw [Field.getLsbD_assign]
    by_cases here : i = 13
    · subst here
      rw [if_pos (by decide), if_pos rfl]
      exact Bool.and_true _
    · rw [if_neg here, if_neg]
      simp only [Field.Covers, MacConfiguration.fullDuplex, Field.flag]
      omega
  have selector : ∀ low high : Bool,
      (BitVec.ofNat 32 (low.toNat + 2 * high.toNat)).getLsbD 0 = low ∧
        (BitVec.ofNat 32 (low.toNat + 2 * high.toNat)).getLsbD 1 = high := by decide
  unfold reconcile
  rw [port?_ofClock]
  by_cases known : SpeedKnown status
  · rw [if_pos known]
    dsimp only
    rw [Field.getLsbD_set, duplex]
    by_cases low : i = 14
    · subst low
      rw [if_pos (by decide), if_neg (by decide), if_pos ⟨rfl, known⟩]
      exact (selector _ _).1
    · by_cases high : i = 15
      · subst high
        rw [if_pos (by decide), if_neg (by decide), if_neg (by simp), if_pos ⟨rfl, known⟩]
        exact (selector _ _).2
      · have outside : ¬ MacConfiguration.portSpeed.Covers i := by
          simp only [Field.Covers, MacConfiguration.portSpeed]
          omega
        simp [outside, low, high]
  · simp [known, duplex]

structure Reconciles (config status : Word) : Prop where
  elsewhere : ∀ i, i < 13 ∨ 15 < i → (reconcile config status).getLsbD i = config.getLsbD i
  duplex : MacConfiguration.fullDuplex.test (reconcile config status) =
    MacPhyStatus.fullDuplex.test status
  speed : SpeedKnown status →
    LinkSpeed.ofPort (MacConfiguration.portSpeed.get (reconcile config status)).toNat =
      (LinkState.ofStatus status).speed
  selector : ¬ SpeedKnown status →
    MacConfiguration.portSpeed.get (reconcile config status) = MacConfiguration.portSpeed.get config
  again : reconcile (reconcile config status) status = reconcile config status
  latest : ∀ later, SpeedKnown later →
    reconcile (reconcile config status) later = reconcile config later
  receiver : ∀ on, reconcile (MacConfiguration.receiverEnable.assign on config) status =
    MacConfiguration.receiverEnable.assign on (reconcile config status)
  transmitter : ∀ on, reconcile (MacConfiguration.transmitterEnable.assign on config) status =
    MacConfiguration.transmitterEnable.assign on (reconcile config status)

/-- Reconciling leaves a field in the low bits, whatever is put there first. -/
theorem reconcile_assign {field : Field} (low : field.low + field.width ≤ 13) (on : Bool) :
    reconcile (field.assign on config) status = field.assign on (reconcile config status) := by
  refine BitVec.eq_of_getLsbD_eq fun i _ => ?_
  rw [getLsbD_reconcile, Field.getLsbD_assign, Field.getLsbD_assign, getLsbD_reconcile]
  by_cases covered : field.Covers i
  · obtain ⟨_, below⟩ := id covered
    simp [covered, show i ≠ 13 by omega, show i ≠ 14 by omega, show i ≠ 15 by omega]
  · simp [covered]

theorem toNat_portSpeed : (MacConfiguration.portSpeed.get config).toNat =
    (config.getLsbD 14).toNat + 2 * (config.getLsbD 15).toNat :=
  MacConfiguration.portSpeed.toNat_get_two rfl config

theorem reconcile_laws : Reconciles config status where
  elsewhere i outside := by
    rw [getLsbD_reconcile, if_neg (by omega), if_neg (by omega), if_neg (by omega)]
  duplex := by
    change (reconcile config status).getLsbD 13 = status.getLsbD 16
    rw [getLsbD_reconcile]
    rfl
  speed known := by
    change _ = LinkSpeed.ofClock _
    rw [toNat_portSpeed, getLsbD_reconcile, getLsbD_reconcile, LinkSpeed.ofClock_get]
    simp only [known]
    rw [speedKnown_iff] at known
    revert known
    cases status.getLsbD 17 <;> cases status.getLsbD 18 <;> simp [LinkSpeed.ofPort]
  selector unknown := by
    rw [← BitVec.toNat_inj, toNat_portSpeed, toNat_portSpeed, getLsbD_reconcile, getLsbD_reconcile]
    simp [unknown]
  again := by
    refine BitVec.eq_of_getLsbD_eq fun i _ => ?_
    rw [getLsbD_reconcile (reconcile config status), getLsbD_reconcile]
    grind
  latest later known := by
    refine BitVec.eq_of_getLsbD_eq fun i _ => ?_
    rw [getLsbD_reconcile (reconcile config status), getLsbD_reconcile, getLsbD_reconcile]
    grind
  receiver := reconcile_assign config status (by decide)
  transmitter := reconcile_assign config status (by decide)

def refreshDeeds (status config : Word) : List Deed :=
  [⟨.load Register.macPhyStatus, status⟩, ⟨.load Register.macConfiguration, config⟩] ++
    (if reconcile config status = config then []
      else [⟨.store Register.macConfiguration (reconcile config status), ()⟩]) ++
    [⟨.publishLink (.ofStatus status), ()⟩]

theorem course_onlyIf_store {condition : Bool} {offset : Nat} {value : Word} {deeds : List Deed}
    {result : Unit} : (onlyIf condition (store offset value)).Course deeds result ↔
      deeds = if condition then [⟨.store offset value, ()⟩] else [] := by
  rw [course_onlyIf]
  split
  · constructor
    · rintro ⟨_, _, rfl, rfl, _⟩
      rfl
    · rintro rfl
      exact ⟨(), [], rfl, rfl, rfl⟩
  · exact .rfl

theorem refreshLink_course {deeds : List Deed} {state : LinkState} :
    refreshLink.Course deeds state ↔
      ∃ status config, deeds = refreshDeeds status config ∧ state = .ofStatus status := by
  unfold refreshLink refreshDeeds
  simp only [course_load_bind, course_bind (onlyIf _ _), course_onlyIf_store, bne_iff_ne, ite_not]
  constructor
  · rintro ⟨status, _, rfl, config, _, rfl, _, _, _, rfl, rfl, _, _, rfl, rfl, rfl⟩
    exact ⟨status, config, by simp, rfl⟩
  · rintro ⟨status, config, rfl, rfl⟩
    exact ⟨status, _, rfl, config, _, rfl, _, (), _, rfl, rfl, (), _, rfl, rfl, rfl⟩

def Station.refreshed (s : Station) : Station :=
  let status := s.registers.cell Register.macPhyStatus
  let config := s.registers.cell Register.macConfiguration
  { s with
    registers := (s.registers.reading Register.macPhyStatus).set Register.macConfiguration
      (reconcile config status)
    trace := ((refreshDeeds status config).filterMap Deed.event?).reverse ++ s.trace }

theorem RegisterFile.reading_phyStatus_cell (f : RegisterFile) {offset : Nat}
    (link : offset ≠ Register.macInterruptStatus) :
    (f.reading Register.macPhyStatus).cell offset = f.cell offset := by
  unfold reading
  split
  · rfl
  · exact cell_set_of_ne f _ link

section Refresh

variable (s : Station)

def Station.refreshing : Station :=
  { s with
    registers := s.registers.reading Register.macPhyStatus
    trace := .read Register.macConfiguration (s.registers.cell Register.macConfiguration) ::
      .read Register.macPhyStatus (s.registers.cell Register.macPhyStatus) :: s.trace }

theorem does_refreshing : s.Does
    [⟨.load Register.macPhyStatus, s.registers.cell Register.macPhyStatus⟩,
      ⟨.load Register.macConfiguration, s.registers.cell Register.macConfiguration⟩]
    s.refreshing := by
  have status := @Station.perform_load s Register.macPhyStatus (by decide)
  rw [RegisterFile.reading_phyStatus_cell _ (by decide)] at status
  refine ⟨_, status, _, ?_, rfl⟩
  have config := @Station.perform_load
    { s with
      registers := s.registers.reading Register.macPhyStatus
      trace := .read Register.macPhyStatus (s.registers.cell Register.macPhyStatus) :: s.trace }
    Register.macConfiguration (by decide)
  have plain : (s.registers.reading Register.macPhyStatus).reading Register.macConfiguration =
      s.registers.reading Register.macPhyStatus :=
    RegisterFile.reading_of_ne _ (by decide) (by decide)
  dsimp only at config
  rw [plain, RegisterFile.reading_phyStatus_cell _ (by decide)] at config
  exact config

theorem refreshed_registers_of_same
    (same : reconcile (s.registers.cell Register.macConfiguration)
      (s.registers.cell Register.macPhyStatus) = s.registers.cell Register.macConfiguration) :
    s.refreshed.registers = s.registers.reading Register.macPhyStatus := by
  unfold Station.refreshed
  dsimp only
  rw [same, ← s.registers.reading_phyStatus_cell (by decide), RegisterFile.set_cell_self]

/-- The configuration is written where it changes. That leaves the registers as if it were written
always. -/
theorem does_refresh :
    s.Does (refreshDeeds (s.registers.cell Register.macPhyStatus)
      (s.registers.cell Register.macConfiguration)) s.refreshed := by
  unfold Station.refreshed
  dsimp only
  unfold refreshDeeds
  rw [List.append_assoc, Station.Does.append]
  refine ⟨s.refreshing, does_refreshing s, ?_⟩
  by_cases same : reconcile (s.registers.cell Register.macConfiguration)
      (s.registers.cell Register.macPhyStatus) = s.registers.cell Register.macConfiguration
  · have kept := refreshed_registers_of_same s same
    unfold Station.refreshed at kept
    dsimp only at kept
    rw [kept, if_pos same]
    exact ⟨_, rfl, rfl⟩
  · rw [if_neg same]
    exact ⟨_, Station.perform_store (by decide) (by decide) _, _, rfl, rfl⟩

structure Refreshes : Prop where
  /-- Two words are read, the configuration is written if and only if reconciling changes it, and
  the state that the first word reports is published. -/
  courses : ∀ deeds state, refreshLink.Course deeds state ↔
    ∃ status config, deeds = refreshDeeds status config ∧ state = .ofStatus status
  runs : refreshLink.run s =
    (.ok (.ofStatus (s.registers.cell Register.macPhyStatus)), s.refreshed)
  configuration : s.refreshed.registers.cell Register.macConfiguration =
    reconcile (s.registers.cell Register.macConfiguration) (s.registers.cell Register.macPhyStatus)
  elsewhere : ∀ offset, offset ≠ Register.macConfiguration →
    s.refreshed.registers.cell offset = (s.registers.reading Register.macPhyStatus).cell offset
  kept : ∀ offset, offset ≠ Register.macConfiguration → offset ≠ Register.macInterruptStatus →
    s.refreshed.registers.cell offset = s.registers.cell offset
  acknowledged : s.registers.backing = .device →
    s.refreshed.registers.cell Register.macInterruptStatus =
      MacInterruptStatus.linkStatus.assign false (s.registers.cell Register.macInterruptStatus)
  /-- Another one under the same status finds the configuration as it wants it. -/
  again : ∀ t : Station,
    t.registers.cell Register.macPhyStatus = s.registers.cell Register.macPhyStatus →
    t.registers.cell Register.macConfiguration =
      s.refreshed.registers.cell Register.macConfiguration →
    refreshLink.run t =
        (.ok (.ofStatus (s.registers.cell Register.macPhyStatus)), t.refreshed) ∧
      t.refreshed.registers = t.registers.reading Register.macPhyStatus ∧
      ∃ config, t.Does [⟨.load Register.macPhyStatus, s.registers.cell Register.macPhyStatus⟩,
        ⟨.load Register.macConfiguration, config⟩,
        ⟨.publishLink (.ofStatus (s.registers.cell Register.macPhyStatus)), ()⟩] t.refreshed

theorem refreshLink_run :
    refreshLink.run s =
      (.ok (.ofStatus (s.registers.cell Register.macPhyStatus)), s.refreshed) :=
  run_eq_ok_iff.mpr ⟨_, refreshLink_course.mpr ⟨_, _, rfl, rfl⟩, does_refresh s⟩

theorem refreshLink_refreshes : Refreshes s where
  courses _ _ := refreshLink_course
  runs := refreshLink_run s
  configuration := RegisterFile.cell_set_self _ _ _
  elsewhere _ other := RegisterFile.cell_set_of_ne _ _ other
  kept offset other link :=
    (RegisterFile.cell_set_of_ne _ _ other).trans (RegisterFile.reading_phyStatus_cell _ link)
  acknowledged device := by
    rw [Station.refreshed, RegisterFile.cell_set_of_ne _ _ (by decide),
      RegisterFile.reading_phyStatus device]
    exact RegisterFile.cell_set_self _ _ _
  again t status config := by
    have stands : reconcile (t.registers.cell Register.macConfiguration)
        (t.registers.cell Register.macPhyStatus) = t.registers.cell Register.macConfiguration := by
      rw [status, config, Station.refreshed, RegisterFile.cell_set_self]
      exact (reconcile_laws _ _).again
    have does := does_refresh t
    rw [refreshDeeds, if_pos stands, status] at does
    exact ⟨status ▸ refreshLink_run t, refreshed_registers_of_same t stands, _, does⟩

end Refresh

theorem link_reconciles :
    (∀ config status : Word, Reconciles config status) ∧ ∀ s : Station, Refreshes s :=
  ⟨reconcile_laws, refreshLink_refreshes⟩

end EthernetMac
