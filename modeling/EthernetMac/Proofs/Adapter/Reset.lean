import EthernetMac.Proofs.Adapter.Courses
import EthernetMac.Proofs.Address.Table

namespace EthernetMac

open Program

def ReadsInTurn (mode : Nat → Word) (used : Nat) (deeds : List Deed) : Prop :=
  ∀ i value, (reads Register.dmaMode deeds)[i]? = some value → value = mode (used + i + 1)

/-- So many rounds after the first `used` ones: a delay of 20 microseconds, and a read. -/
def polls (mode : Nat → Word) (used : Nat) : (rounds : Nat) → List Deed
  | 0 => []
  | rounds + 1 =>
    ⟨.delay 20, ()⟩ :: ⟨.load Register.dmaMode, mode (used + 1)⟩ :: polls mode (used + 1) rounds

/-- How a reset goes where the reads of the mode register answer `mode 1`, `mode 2` and so on. -/
inductive ResetGoes (station : MacAddress) (mode : Nat → Word) :
    List Deed → Except IoError Nat → Prop where
  | ready {n : Nat} (first : 1 ≤ n) (last : n ≤ 1000) (clear : (mode n).getLsbD 0 = false)
      (busy : ∀ i, 1 ≤ i → i < n → (mode i).getLsbD 0 = true) :
      ResetGoes station mode
        (⟨.store Register.dmaMode 1, ()⟩ :: polls mode 0 n ++
          [⟨.store (Register.addressHigh 0) (station.highWord true), ()⟩,
            ⟨.store (Register.addressLow 0) station.lowWord, ()⟩])
        (.ok n)
  | timeout (busy : ∀ i, 1 ≤ i → i ≤ 1000 → (mode i).getLsbD 0 = true) :
      ResetGoes station mode (⟨.store Register.dmaMode 1, ()⟩ :: polls mode 0 1000)
        (.error .timeout)

variable {mode : Nat → Word} {used left : Nat} {deeds : List Deed} {result : Except IoError Nat}

theorem readsInTurn_cons {value : Word} :
    ReadsInTurn mode used (⟨.load Register.dmaMode, value⟩ :: deeds) ↔
      value = mode (used + 1) ∧ ReadsInTurn mode (used + 1) deeds := by
  have first : reads Register.dmaMode (⟨.load Register.dmaMode, value⟩ :: deeds) =
      value :: reads Register.dmaMode deeds := rfl
  unfold ReadsInTurn
  rw [first]
  constructor
  · intro inTurn
    refine ⟨inTurn 0 value rfl, fun i word there => ?_⟩
    rw [inTurn (i + 1) word there]
    congr 1
    omega
  · rintro ⟨same, later⟩ i word there
    cases i with
    | zero => exact (Option.some.inj there).symm.trans same
    | succ i =>
      rw [later i word there]
      congr 1
      omega

inductive AwaitGoes (station : MacAddress) (mode : Nat → Word) (used left : Nat) :
    List Deed → Except IoError Nat → Prop where
  | ready {n : Nat} (first : 1 ≤ n) (last : n ≤ left) (clear : (mode (used + n)).getLsbD 0 = false)
      (busy : ∀ i, 1 ≤ i → i < n → (mode (used + i)).getLsbD 0 = true) :
      AwaitGoes station mode used left (polls mode used n ++ slotDeeds 0 station true) (.ok (used + n))
  | timeout (busy : ∀ i, 1 ≤ i → i ≤ left → (mode (used + i)).getLsbD 0 = true) :
      AwaitGoes station mode used left (polls mode used left) (.error .timeout)

namespace AwaitGoes

variable {station : MacAddress}

theorem later (busy : (mode (used + 1)).getLsbD 0 = true)
    (goes : AwaitGoes station mode (used + 1) left deeds result) :
    AwaitGoes station mode used (left + 1)
      (⟨.delay 20, ()⟩ :: ⟨.load Register.dmaMode, mode (used + 1)⟩ :: deeds) result := by
  have shift (i : Nat) : used + 1 + i = used + (i + 1) := by omega
  have all {i : Nat} (first : 1 ≤ i)
      (rest : ∀ j, j + 1 = i → 1 ≤ j → (mode (used + 1 + j)).getLsbD 0 = true) :
      (mode (used + i)).getLsbD 0 = true := by
    rcases Nat.lt_or_eq_of_le first with more | rfl
    · have before := rest (i - 1) (by omega) (by omega)
      rwa [shift, Nat.sub_add_cancel first] at before
    · exact busy
  cases goes with
  | @ready n first last clear busies =>
    rw [shift] at clear ⊢
    exact ready (Nat.le_add_left 1 n) (Nat.succ_le_succ last) clear fun i one less =>
      all one fun j same above => busies j above (by omega)
  | timeout busies =>
    exact timeout fun i one le => all one fun j same above => busies j above (by omega)

theorem succ_iff : AwaitGoes station mode used (left + 1) deeds result ↔
    ∃ rest, deeds = ⟨.delay 20, ()⟩ :: ⟨.load Register.dmaMode, mode (used + 1)⟩ :: rest ∧
      if (mode (used + 1)).getLsbD 0 = true then AwaitGoes station mode (used + 1) left rest result
      else rest = slotDeeds 0 station true ∧ result = .ok (used + 1) := by
  have shift (i : Nat) : used + (i + 1) = used + 1 + i := by omega
  constructor
  · intro goes
    cases goes with
    | @ready n first last clear busies =>
      obtain ⟨n, rfl⟩ := Nat.exists_eq_add_of_le' first
      refine ⟨_, rfl, ?_⟩
      cases n with
      | zero =>
        rw [if_neg (by rw [clear]; exact Bool.false_ne_true)]
        exact ⟨rfl, rfl⟩
      | succ n =>
        rw [if_pos (busies 1 (Nat.le_refl 1) (by omega))]
        rw [shift (n + 1)] at clear ⊢
        exact ready (Nat.le_add_left 1 n) (Nat.le_of_succ_le_succ last) clear fun i one less => by
          rw [← shift]
          exact busies (i + 1) (Nat.le_add_left 1 i) (Nat.succ_lt_succ less)
    | timeout busies =>
      refine ⟨_, rfl, ?_⟩
      rw [if_pos (busies 1 (Nat.le_refl 1) (Nat.le_add_left 1 left))]
      exact timeout fun i one le => by
        rw [← shift]
        exact busies (i + 1) (Nat.le_add_left 1 i) (Nat.succ_le_succ le)
  · rintro ⟨rest, rfl, decided⟩
    by_cases busy : (mode (used + 1)).getLsbD 0 = true
    · rw [if_pos busy] at decided
      exact decided.later busy
    · rw [if_neg busy] at decided
      obtain ⟨rfl, rfl⟩ := decided
      exact ready (Nat.le_refl 1) (Nat.le_add_left 1 left) (Bool.eq_false_iff.mpr busy) fun i one less =>
        absurd less (Nat.not_lt_of_le one)

theorem total (station : MacAddress) (mode : Nat → Word) (used left : Nat) :
    ∃ deeds result, AwaitGoes station mode used left deeds result := by
  induction left generalizing used with
  | zero => exact ⟨_, _, timeout fun i one le => absurd one (Nat.not_le_of_lt (Nat.lt_succ_of_le le))⟩
  | succ left ih =>
    by_cases busy : (mode (used + 1)).getLsbD 0 = true
    · obtain ⟨rest, result, goes⟩ := ih (used + 1)
      exact ⟨_, result, goes.later busy⟩
    · exact ⟨_, _, succ_iff.mpr ⟨_, rfl, by rw [if_neg busy]; exact ⟨rfl, rfl⟩⟩⟩

end AwaitGoes

theorem await_goes {station : MacAddress} :
    (Reset.await station used left).Course deeds result ∧ ReadsInTurn mode used deeds ↔
      AwaitGoes station mode used left deeds result := by
  induction left generalizing used deeds with
  | zero =>
    constructor
    · rintro ⟨⟨rfl, rfl⟩, _⟩
      exact .timeout fun i one le => absurd one (Nat.not_le_of_lt (Nat.lt_succ_of_le le))
    · intro goes
      cases goes with
      | ready first last => omega
      | timeout => exact ⟨⟨rfl, rfl⟩, nofun⟩
  | succ left ih =>
    rw [AwaitGoes.succ_iff]
    have decides (rest : List Deed) :
        ((if DmaMode.softwareReset.test (mode (used + 1)) then Reset.await station (used + 1) left
          else do writeSlot 0 station true; return .ok (used + 1)).Course rest result ∧
            ReadsInTurn mode (used + 1) rest) ↔
          if (mode (used + 1)).getLsbD 0 = true then AwaitGoes station mode (used + 1) left rest result
          else rest = slotDeeds 0 station true ∧ result = .ok (used + 1) := by
      rw [show DmaMode.softwareReset.test (mode (used + 1)) = (mode (used + 1)).getLsbD 0 from rfl]
      split
      · exact ih
      · rw [writeSlot_of_lt (by decide)]
        constructor
        · rintro ⟨⟨_, _, rfl, _, _, rfl, rfl, rfl⟩, _⟩
          exact ⟨rfl, rfl⟩
        · rintro ⟨rfl, rfl⟩
          exact ⟨⟨(), _, rfl, (), _, rfl, rfl, rfl⟩, nofun⟩
    constructor
    · rintro ⟨⟨_, _, rfl, value, rest, rfl, course⟩, inTurn⟩
      obtain ⟨rfl, later⟩ := readsInTurn_cons.mp inTurn
      exact ⟨rest, rfl, (decides rest).mp ⟨course, later⟩⟩
    · rintro ⟨rest, rfl, decided⟩
      obtain ⟨course, inTurn⟩ := (decides rest).mpr decided
      exact ⟨⟨(), _, rfl, _, rest, rfl, course⟩, readsInTurn_cons.mpr ⟨rfl, inTurn⟩⟩

namespace RegisterFile

variable {f : RegisterFile}

theorem reading_of_busy (device : f.backing = .device)
    (resetting : (f.cell Register.dmaMode).getLsbD 0 = true) {busy : Nat} (left : f.busy = busy + 1) :
    f.reading Register.dmaMode = { f with busy } := by
  have test : DmaMode.softwareReset.test (f.cell Register.dmaMode) = true := resetting
  have apart : Register.dmaMode ≠ Register.macPhyStatus := by decide
  simp [reading, device, afterRead, apart, advanceReset, test, left]

theorem reading_of_idle (device : f.backing = .device)
    (resetting : (f.cell Register.dmaMode).getLsbD 0 = true) (idle : f.busy = 0) :
    ((f.reading Register.dmaMode).cell Register.dmaMode).getLsbD 0 = false := by
  have test : DmaMode.softwareReset.test (f.cell Register.dmaMode) = true := resetting
  have apart : Register.dmaMode ≠ Register.macPhyStatus := by decide
  have after : f.reading Register.dmaMode = f.set Register.dmaMode
      (DmaMode.softwareReset.assign false (f.cell Register.dmaMode)) := by
    simp [reading, device, afterRead, apart, advanceReset, test, idle]
  rw [after, cell_set_self]
  exact Field.test_assign _ (by decide) false _

end RegisterFile

theorem run_writeSlot (station : MacAddress) (polls : Nat) (s : Station) :
    ((do writeSlot 0 station true; return .ok polls : Program (Except IoError Nat)).run s).1 =
      .ok (.ok polls) := by
  have shape : (do writeSlot 0 station true; return .ok polls : Program (Except IoError Nat)) =
      perform (.store (Register.addressHigh 0) (station.highWord true)) fun _ =>
        perform (.store (Register.addressLow 0) station.lowWord) fun _ => done (.ok polls) := by
    rw [writeSlot_of_lt (by decide)]
    rfl
  have plain : Register.addressHigh 0 ≠ Register.channelStatus ∧
      Register.addressLow 0 ≠ Register.channelStatus := by decide
  rw [shape, run_performs (Station.perform_store (by decide) plain.1 _),
    run_performs (Station.perform_store (by decide) plain.2 _)]
  rfl

theorem run_poll (station : MacAddress) {s : Station} (device : s.registers.backing = .device) :
    ∃ trace, (Reset.await station used (left + 1)).run s =
      (if ((s.registers.reading Register.dmaMode).cell Register.dmaMode).getLsbD 0 = true then
        Reset.await station (used + 1) left
      else do writeSlot 0 station true; return .ok (used + 1)).run
        { s with registers := s.registers.reading Register.dmaMode, trace } := by
  have polled := Station.perform_iff.mpr ⟨_, Station.apply_load
    (s := { s with trace := .delay Reset.pollInterval :: s.trace }) device Register.dmaMode, rfl⟩
  exact ⟨_, run_performs polled⟩

/-- On the simulated registers a wait ends with the poll after the last busy one. -/
theorem await_simulated {station : MacAddress} {s : Station} (device : s.registers.backing = .device)
    (resetting : (s.registers.cell Register.dmaMode).getLsbD 0 = true) :
    ((Reset.await station used left).run s).1 =
      .ok (if s.registers.busy < left then .ok (used + s.registers.busy + 1) else .error .timeout) := by
  induction left generalizing used s with
  | zero => rfl
  | succ left ih =>
    obtain ⟨trace, polled⟩ := run_poll station device
    rw [polled]
    cases remaining : s.registers.busy with
    | zero =>
      have clear := RegisterFile.reading_of_idle device resetting remaining
      rw [if_neg (Bool.eq_false_iff.mp clear), run_writeSlot, if_pos (Nat.zero_lt_succ left)]
    | succ busy =>
      rw [RegisterFile.reading_of_busy device resetting remaining, if_pos resetting]
      have rest := @ih (used + 1) { s with registers := { s.registers with busy }, trace } device
        resetting
      have shift : used + 1 + busy + 1 = used + (busy + 1) + 1 := by omega
      simp only [shift] at rest
      simp only [rest, Nat.succ_lt_succ_iff]

structure SoftResets (station : MacAddress) : Prop where
  /-- It goes one way for each sequence of mode words. -/
  goes : ∀ mode deeds result,
    (softReset station).Course deeds result ∧ ReadsInTurn mode 0 deeds ↔
      ResetGoes station mode deeds result
  returns : ∀ mode, ∃ deeds result, ResetGoes station mode deeds result
  /-- The words of the first slot are the bytes of the address and the enable bit. -/
  low : station.lowWord.toNat = station.b0.toNat + 0x100 * station.b1.toNat +
    0x10000 * station.b2.toNat + 0x1000000 * station.b3.toNat
  high : (station.highWord true).toNat = station.b4.toNat + 0x100 * station.b5.toNat + 0x80000000
  simulated : ∀ s : Station, s.registers.backing = .device →
    ((softReset station).run s).1 =
      .ok (if s.registers.busy < 1000 then .ok (s.registers.busy + 1) else .error .timeout)

theorem resetGoes_iff {station : MacAddress} :
    ResetGoes station mode deeds result ↔
      ∃ rest, deeds = ⟨.store Register.dmaMode 1, ()⟩ :: rest ∧
        AwaitGoes station mode 0 1000 rest result := by
  constructor
  · rintro (⟨first, last, clear, busy⟩ | busy)
    · have goes : AwaitGoes station mode 0 1000 _ _ :=
        .ready first last (by rwa [Nat.zero_add]) fun i one less => by
          rw [Nat.zero_add]
          exact busy i one less
      rw [Nat.zero_add] at goes
      exact ⟨_, rfl, goes⟩
    · refine ⟨_, rfl, .timeout fun i one le => ?_⟩
      rw [Nat.zero_add]
      exact busy i one le
  · rintro ⟨rest, rfl, goes⟩
    cases goes with
    | ready first last clear busy =>
      rw [Nat.zero_add] at clear ⊢
      exact .ready first last clear fun i one less => Nat.zero_add i ▸ busy i one less
    | timeout busy => exact .timeout fun i one le => Nat.zero_add i ▸ busy i one le

theorem softReset_resets (station : MacAddress) : SoftResets station where
  goes mode deeds result := by
    rw [resetGoes_iff]
    constructor
    · rintro ⟨⟨_, rest, rfl, course⟩, inTurn⟩
      exact ⟨rest, rfl, await_goes.mp ⟨course, inTurn⟩⟩
    · rintro ⟨rest, rfl, goes⟩
      obtain ⟨course, inTurn⟩ := await_goes.mpr goes
      exact ⟨⟨(), rest, rfl, course⟩, inTurn⟩
  returns mode := by
    obtain ⟨rest, result, goes⟩ := AwaitGoes.total station mode 0 1000
    exact ⟨_, result, resetGoes_iff.mpr ⟨rest, rfl, goes⟩⟩
  low := station.toNat_lowWord
  high := station.toNat_highWord
  simulated s device := by
    have begun := @Station.perform_store s Register.dmaMode (by decide) (by decide)
      (DmaMode.softwareReset.assign true 0)
    have resetting : ((s.registers.set Register.dmaMode
        (DmaMode.softwareReset.assign true 0)).cell Register.dmaMode).getLsbD 0 = true := by
      rw [RegisterFile.cell_set_self]
      exact Field.test_assign _ (by decide) true 0
    generalize Event.write Register.dmaMode _ :: s.trace = trace at begun
    have waited := @await_simulated 0 1000 station { s with
      registers := s.registers.set Register.dmaMode (DmaMode.softwareReset.assign true 0), trace }
      device resetting
    rw [Nat.zero_add] at waited
    exact (congrArg Prod.fst (run_performs begun)).trans waited

end EthernetMac
