import EthernetMac.Proofs.Adapter.Courses

/-! What becomes of a preparation: its result is decided by the first check that fails, nothing is
done before a check that a later failure would leave behind, and every failure gives the window
back. -/

namespace EthernetMac

open Program

theorem Adapter.Surveys.polls {features : Features} {survey : List Deed}
    (surveys : Surveys features survey) : reads Register.dmaMode survey = [] := by
  refine reads_eq_nil fun deed member same => ?_
  have inside := surveys.only deed member
  rw [same] at inside
  exact Nat.lt_irrefl _ inside.2

theorem reads_settings {offset : Nat} {settings : List Deed}
    (sets : ∀ deed ∈ settings, settingActions deed.effect)
    (apart : offset ≠ Register.dmaSystemBus ∧ offset ≠ Register.channelControl) :
    reads offset settings = [] := by
  refine reads_eq_nil fun deed member same => ?_
  have inside := sets deed member
  rw [same] at inside
  exact inside.elim apart.1 apart.2

theorem reads_polling {offset : Nat} {polling : List Deed}
    (resets : ∀ deed ∈ polling, resetActions deed.effect) (apart : offset ≠ Register.dmaMode) :
    reads offset polling = [] := by
  refine reads_eq_nil fun deed member same => ?_
  have inside := resets deed member
  rw [same] at inside
  exact apart inside

namespace Adapter.Readied

variable {features : Features} {main : List Deed} {outcome : Except Error Adapter}

theorem read_once (readied : Readied features main outcome) :
    reads Register.macVersion main = [features.version] ∧
      reads Register.macFeature1 main = [features.feature1] := by
  have later {offset : Nat} (capabilities : Capabilities) :
      reads offset (announcement capabilities) = [] := rfl
  cases readied with
  | rejected surveys => exact ⟨surveys.version, surveys.feature1⟩
  | timedOut capabilities surveys _ resets =>
    simp [later, surveys.version, surveys.feature1,
      reads_polling resets (by decide : Register.macVersion ≠ _),
      reads_polling resets (by decide : Register.macFeature1 ≠ _)]
  | ready capabilities _ surveys _ resets _ _ sets =>
    simp [later, surveys.version, surveys.feature1,
      reads_polling resets (by decide : Register.macVersion ≠ _),
      reads_polling resets (by decide : Register.macFeature1 ≠ _),
      reads_settings sets (by decide : Register.macVersion ≠ _ ∧ Register.macVersion ≠ _),
      reads_settings sets (by decide : Register.macFeature1 ≠ _ ∧ Register.macFeature1 ≠ _)]

theorem polled (readied : Readied features main outcome) :
    (reads Register.dmaMode main).length ≤ Reset.maxPolls ∧
    (outcome = .error (.io .timeout) →
      (∀ mode ∈ reads Register.dmaMode main, Resetting mode) ∧
        (reads Register.dmaMode main).length = Reset.maxPolls) ∧
    ((∃ adapter, outcome = .ok adapter) → ∃ mode ∈ reads Register.dmaMode main, ¬ Resetting mode) := by
  have later (capabilities : Capabilities) :
      reads Register.dmaMode (announcement capabilities) = [] := rfl
  cases readied with
  | rejected surveys => simp [surveys.polls]
  | timedOut capabilities surveys _ _ exhausted busy =>
    simpa [later, surveys.polls, exhausted] using busy
  | ready capabilities _ surveys _ _ within clear sets =>
    simpa [later, surveys.polls, within,
      reads_settings sets (by decide : Register.dmaMode ≠ _ ∧ Register.dmaMode ≠ _)] using clear

end Adapter.Readied

namespace Adapter

variable {config : HostConfig} {resources : List Resource} {deeds : List Deed}
  {result : Except Error Adapter}

/-- The three ways in which a preparation that has its window and its line can end. -/
inductive Prepared (config : HostConfig) (resources : List Resource) (features : Features) :
    List Deed → Except Error Adapter → Prop where
  | failed {main : List Deed} {cause : Error} (first : Nat)
      (readied : Readied features main (.error cause)) :
      Prepared config resources features
        (⟨.map first windowSize, true⟩ :: main ++ [⟨.unmap, ()⟩]) (.error cause)
  | refused {main : List Deed} {adapter : Adapter} (first : Nat)
      (readied : Readied features main (.ok adapter))
      (otherwise : (prepare config resources).Course
        (⟨.map first windowSize, true⟩ :: main ++ [⟨.startDatapath, true⟩]) (.ok adapter)) :
      Prepared config resources features
        (⟨.map first windowSize, true⟩ :: main ++ [⟨.startDatapath, false⟩, ⟨.unmap, ()⟩])
        (.error (.config .datapathStartFailed))
  | succeeded {main : List Deed} {adapter : Adapter} (first : Nat)
      (readied : Readied features main (.ok adapter)) :
      Prepared config resources features
        (⟨.map first windowSize, true⟩ :: main ++ [⟨.startDatapath, true⟩]) (.ok adapter)

theorem prepare_course (course : (prepare config resources).Course deeds result)
    (windowed : HasWindow resources) (lined : HasLine resources) (granted : Granted deeds) :
    ∃ features, Prepared config resources features deeds result := by
  unfold prepare at course
  rw [course_bind] at course
  obtain ⟨scan, scanned, _, rfl, found, course⟩ := course
  have mapped : Granted scan := fun first length member =>
    granted first length (List.mem_append_left _ member)
  obtain ⟨first, line, rfl, rfl⟩ := Survey.scan_course found rfl windowed (.inr lined) mapped
  replace course := (course_bind (bringUp config line) _ _).mp course
  obtain ⟨_, brought, rest, rfl, up, course⟩ := course
  rw [bringUp_eq, course_bind] at up
  obtain ⟨main, outcome, start, rfl, up, started⟩ := up
  obtain ⟨features, readied⟩ := ready_course up
  refine ⟨features, ?_⟩
  cases outcome with
  | error cause =>
    obtain ⟨rfl, rfl⟩ := started
    obtain ⟨_, _, rfl, rfl, rfl⟩ := course
    simpa using Prepared.failed first readied
  | ok adapter =>
    -- The same course up to the start of the datapath, had the host accepted.
    have otherwise : (prepare config resources).Course
        (⟨.map first windowSize, true⟩ :: main ++ [⟨.startDatapath, true⟩]) (.ok adapter) := by
      refine (course_bind _ _ _).mpr
        ⟨[⟨.map first windowSize, true⟩], .ok line, main ++ [⟨.startDatapath, true⟩], rfl, found, ?_⟩
      refine (course_bind (bringUp config line) _ _).mpr
        ⟨main ++ [⟨.startDatapath, true⟩], .ok adapter, [], by simp, ?_, rfl, rfl⟩
      rw [bringUp_eq]
      exact (course_bind _ _ _).mpr ⟨main, .ok adapter, _, rfl, up, true, [], rfl, rfl, rfl⟩
    obtain ⟨accepted, _, rfl, started⟩ := started
    cases accepted with
    | true =>
      obtain ⟨rfl, rfl⟩ := started
      obtain ⟨rfl, rfl⟩ := course
      simpa using Prepared.succeeded first readied
    | false =>
      obtain ⟨rfl, rfl⟩ := started
      obtain ⟨_, _, rfl, rfl, rfl⟩ := course
      simpa using Prepared.refused first readied otherwise

structure Decided (features : Features) (polls : List Word) (refused : Prop)
    (result : Except Error Adapter) : Prop where
  unsupported : result = .error (.config .unsupportedVersion) ↔ features.Unsupported
  unknownWidth : ¬ features.Unsupported →
    (result = .error (.config .unknownAddressWidth) ↔ features.UnknownWidth)
  timeout : ¬ features.Unsupported → ¬ features.UnknownWidth →
    (result = .error (.io .timeout) ↔ ∀ mode ∈ polls, Resetting mode)
  startFailed : ¬ features.Unsupported → ¬ features.UnknownWidth →
    ¬ (∀ mode ∈ polls, Resetting mode) →
      (result = .error (.config .datapathStartFailed) ↔ refused)
  success : ¬ features.Unsupported → ¬ features.UnknownWidth →
    ¬ (∀ mode ∈ polls, Resetting mode) → ¬ refused → ∃ adapter, result = .ok adapter

/-- What a preparation has checked and done, from what it read and what it was answered. -/
structure Verdict (config : HostConfig) (resources : List Resource) (features : Features)
    (deeds : List Deed) (result : Except Error Adapter) : Prop where
  version : reads Register.macVersion deeds = [features.version]
  feature1 : reads Register.macFeature1 deeds = [features.feature1]
  decided : Decided features (reads Register.dmaMode deeds)
    ((⟨.startDatapath, false⟩ : Deed) ∈ deeds) result
  polls : (reads Register.dmaMode deeds).length ≤ Reset.maxPolls
  exhausted : result = .error (.io .timeout) →
    (reads Register.dmaMode deeds).length = Reset.maxPolls
  /-- Before the version and the features are checked nothing is written, published or started. -/
  untouched : result = .error (.config .unsupportedVersion) ∨
    result = .error (.config .unknownAddressWidth) → outwards deeds = []
  announced : result = .error (.io .timeout) →
    ∃ capabilities, outwards deeds = announcement capabilities
  /-- A host that refuses the start sees what one that accepts it sees. -/
  otherwise : result = .error (.config .datapathStartFailed) →
    ∃ before adapter, deeds = before ++ [⟨.startDatapath, false⟩, ⟨.unmap, ()⟩] ∧
      (prepare config resources).Course (before ++ [⟨.startDatapath, true⟩]) (.ok adapter)
  /-- A success ends with the one start that it asks for, and the host has granted it. -/
  accepted : ∀ adapter, result = .ok adapter → ∃ before, deeds = before ++ [⟨.startDatapath, true⟩] ∧
    ∀ deed ∈ before, deed.effect ≠ .startDatapath
  /-- After any other failure the host has not been asked. -/
  unasked : ∀ cause, result = .error cause → cause ≠ .config .datapathStartFailed →
    ∀ deed ∈ deeds, deed.effect ≠ .startDatapath
  /-- Every failure gives the window back, once and last. -/
  released : ∀ cause, result = .error cause →
    ∃ before, deeds = before ++ [⟨.unmap, ()⟩] ∧ ∀ deed ∈ before, deed.effect ≠ .unmap

namespace Readied

variable {features : Features} {main : List Deed}

/-- What failed before the start of the datapath. -/
theorem error_cases {cause : Error} (readied : Readied features main (.error cause)) :
    (features.Unsupported ∧ cause = .config .unsupportedVersion ∧ outwards main = []) ∨
    (¬ features.Unsupported ∧ features.UnknownWidth ∧ cause = .config .unknownAddressWidth ∧
      outwards main = []) ∨
    ¬ features.Unsupported ∧ ¬ features.UnknownWidth ∧ cause = .io .timeout ∧
      ∃ capabilities, outwards main = announcement capabilities := by
  have silent {survey : List Deed} (surveys : Surveys features survey) : outwards survey = [] := by
    refine outwards_eq_nil fun deed member => ?_
    have inside := surveys.only deed member
    generalize deed.effect = e at inside
    cases e <;> first | rfl | exact inside.elim
  cases readied with
  | rejected surveys checked =>
    rcases features.supported_cases with ⟨yes, same⟩ | ⟨no, yes, same⟩ | ⟨_, _, dma, same⟩ <;>
      rw [checked] at same <;> cases same
    · exact .inl ⟨yes, rfl, silent surveys⟩
    · exact .inr (.inl ⟨no, yes, rfl, silent surveys⟩)
  | timedOut capabilities surveys checked _ _ _ quiet =>
    obtain ⟨served, known⟩ := Features.checked_of_ok checked
    refine .inr (.inr ⟨served, known, rfl, capabilities, ?_⟩)
    rw [outwards_append, outwards_append, silent surveys, quiet, List.append_nil]
    rfl

theorem ok_checked {adapter : Adapter} (readied : Readied features main (.ok adapter)) :
    ¬ features.Unsupported ∧ ¬ features.UnknownWidth := by
  cases readied with
  | ready _ _ _ checked => exact Features.checked_of_ok checked

theorem not_early {outcome : Except Error Adapter} (readied : Readied features main outcome)
    {deed : Deed} (member : deed ∈ main) : deed.effect ≠ .startDatapath ∧ deed.effect ≠ .unmap := by
  have inside := readied.only deed member
  constructor <;> intro same <;> rw [same] at inside <;> exact inside

end Readied

section Decided

variable {features : Features} {polls : List Word} {refused : Prop}

theorem decided_unsupported (unsupported : features.Unsupported) :
    Decided features polls refused (.error (.config .unsupportedVersion)) := by
  constructor <;> simp [unsupported]

theorem decided_unknownWidth (served : ¬ features.Unsupported) (unknown : features.UnknownWidth) :
    Decided features polls refused (.error (.config .unknownAddressWidth)) := by
  constructor <;> simp [served, unknown]

theorem decided_timeout (served : ¬ features.Unsupported) (known : ¬ features.UnknownWidth)
    (busy : ∀ mode ∈ polls, Resetting mode) :
    Decided features polls refused (.error (.io .timeout)) := by
  have all : (∀ mode ∈ polls, Resetting mode) = True := eq_true busy
  constructor <;> simp [served, known, all]

theorem decided_started (served : ¬ features.Unsupported) (known : ¬ features.UnknownWidth)
    (clear : ¬ ∀ mode ∈ polls, Resetting mode) (adapter : Adapter) :
    (refused → Decided features polls refused (.error (.config .datapathStartFailed))) ∧
      (¬ refused → Decided features polls refused (.ok adapter)) := by
  constructor <;> intro answer <;> constructor <;> simp [served, known, clear, answer]

end Decided

variable {features : Features}

namespace Prepared

variable {first : Nat} {main tail : List Deed}

theorem reads_eq {offset : Nat} (none : reads offset tail = []) :
    reads offset (⟨.map first windowSize, true⟩ :: main ++ tail) = reads offset main := by
  rw [reads_append, none, List.append_nil]
  rfl

theorem outwards_eq (none : outwards tail = []) :
    outwards (⟨.map first windowSize, true⟩ :: main ++ tail) = outwards main := by
  rw [outwards_append, none, List.append_nil]
  rfl

theorem released {outcome : Except Error Adapter} (readied : Readied features main outcome)
    (last : tail = [] ∨ tail = [⟨.startDatapath, false⟩]) :
    ∀ deed ∈ ⟨.map first windowSize, true⟩ :: main ++ tail, deed.effect ≠ .unmap := by
  intro deed member
  rcases List.mem_append.mp member with member | member
  · rcases List.mem_cons.mp member with rfl | member
    · exact nofun
    · exact (readied.not_early member).2
  · rcases last with rfl | rfl
    · cases member
    · rw [List.mem_singleton.mp member]
      exact nofun

theorem unasked {outcome : Except Error Adapter} (readied : Readied features main outcome) :
    ∀ deed ∈ ⟨.map first windowSize, true⟩ :: main, deed.effect ≠ .startDatapath :=
  List.forall_mem_cons.mpr ⟨nofun, fun _ member => (readied.not_early member).1⟩

theorem verdict_failed {cause : Error} (readied : Readied features main (.error cause)) :
    Verdict config resources features
      (⟨.map first windowSize, true⟩ :: main ++ [⟨.unmap, ()⟩]) (.error cause) := by
  have polls : reads Register.dmaMode (⟨.map first windowSize, true⟩ :: main ++ [⟨.unmap, ()⟩]) =
      reads Register.dmaMode main := reads_eq rfl
  have outer : outwards (⟨.map first windowSize, true⟩ :: main ++ [⟨.unmap, ()⟩]) =
      outwards main := outwards_eq rfl
  have few := readied.polled.1
  have timedOut := readied.polled.2.1
  have checked : Decided features (reads Register.dmaMode main)
        ((⟨.startDatapath, false⟩ : Deed) ∈ ⟨.map first windowSize, true⟩ :: main ++ [⟨.unmap, ()⟩])
        (.error cause) ∧
      (cause = .config .unsupportedVersion ∨ cause = .config .unknownAddressWidth →
        outwards main = []) ∧
      (cause = .io .timeout → ∃ capabilities, outwards main = announcement capabilities) ∧
      cause ≠ .config .datapathStartFailed := by
    rcases readied.error_cases with ⟨bad, rfl, silent⟩ | ⟨served, bad, rfl, silent⟩ |
      ⟨served, known, rfl, announced⟩
    · exact ⟨decided_unsupported bad, fun _ => silent, nofun, nofun⟩
    · exact ⟨decided_unknownWidth served bad, fun _ => silent, nofun, nofun⟩
    · exact ⟨decided_timeout served known (timedOut rfl).1, by simp, fun _ => announced, nofun⟩
  obtain ⟨decided, untouched, announced, started⟩ := checked
  constructor
  case version => exact (reads_eq rfl).trans readied.read_once.1
  case feature1 => exact (reads_eq rfl).trans readied.read_once.2
  case decided => rwa [polls]
  case polls => rwa [polls]
  case exhausted =>
    rw [polls]
    exact fun same => (timedOut same).2
  case untouched =>
    rw [outer]
    simpa using untouched
  case announced =>
    rw [outer]
    simpa using announced
  case otherwise => exact fun same => absurd (Except.error.inj same) started
  case accepted => exact nofun
  case unasked =>
    intro _ _ _ deed member
    rcases List.mem_append.mp member with before | last
    · exact unasked readied deed before
    · rw [List.mem_singleton.mp last]
      exact nofun
  case released =>
    have back : ∀ deed ∈ ⟨.map first windowSize, true⟩ :: main ++ [], deed.effect ≠ .unmap :=
      released readied (.inl rfl)
    rw [List.append_nil] at back
    exact fun _ _ => ⟨_, rfl, back⟩

theorem verdict_refused {adapter : Adapter} (readied : Readied features main (.ok adapter))
    (otherwise : (prepare config resources).Course
      (⟨.map first windowSize, true⟩ :: main ++ [⟨.startDatapath, true⟩]) (.ok adapter)) :
    Verdict config resources features
      (⟨.map first windowSize, true⟩ :: main ++ [⟨.startDatapath, false⟩, ⟨.unmap, ()⟩])
      (.error (.config .datapathStartFailed)) := by
  have polls : reads Register.dmaMode
      (⟨.map first windowSize, true⟩ :: main ++ [⟨.startDatapath, false⟩, ⟨.unmap, ()⟩]) =
      reads Register.dmaMode main := reads_eq rfl
  have idle : ¬ ∀ mode ∈ reads Register.dmaMode main, Resetting mode := by
    simpa using readied.polled.2.2 ⟨adapter, rfl⟩
  have checked := readied.ok_checked
  constructor
  case version => exact (reads_eq rfl).trans readied.read_once.1
  case feature1 => exact (reads_eq rfl).trans readied.read_once.2
  case decided =>
    rw [polls]
    exact (decided_started checked.1 checked.2 idle adapter).1 (by simp)
  case polls =>
    rw [polls]
    exact readied.polled.1
  case exhausted => exact nofun
  case untouched => simp
  case announced => exact nofun
  case otherwise => exact fun _ => ⟨_, adapter, rfl, otherwise⟩
  case accepted => exact nofun
  case unasked => exact fun _ same other => absurd (Except.error.inj same).symm other
  case released =>
    intro _ _
    exact ⟨⟨.map first windowSize, true⟩ :: main ++ [⟨.startDatapath, false⟩], by simp,
      released readied (.inr rfl)⟩

theorem verdict_succeeded {adapter : Adapter} (readied : Readied features main (.ok adapter)) :
    Verdict config resources features
      (⟨.map first windowSize, true⟩ :: main ++ [⟨.startDatapath, true⟩]) (.ok adapter) := by
  have polls : reads Register.dmaMode
      (⟨.map first windowSize, true⟩ :: main ++ [⟨.startDatapath, true⟩]) =
      reads Register.dmaMode main := reads_eq rfl
  have idle : ¬ ∀ mode ∈ reads Register.dmaMode main, Resetting mode := by
    simpa using readied.polled.2.2 ⟨adapter, rfl⟩
  have checked := readied.ok_checked
  constructor
  case version => exact (reads_eq rfl).trans readied.read_once.1
  case feature1 => exact (reads_eq rfl).trans readied.read_once.2
  case decided =>
    rw [polls]
    refine (decided_started checked.1 checked.2 idle adapter).2 ?_
    simpa using fun member => (readied.not_early member).1 rfl
  case polls =>
    rw [polls]
    exact readied.polled.1
  case accepted => exact fun _ _ => ⟨_, rfl, unasked readied⟩
  all_goals exact nofun

theorem verdict (prepared : Prepared config resources features deeds result) :
    Verdict config resources features deeds result := by
  cases prepared with
  | failed first readied => exact verdict_failed readied
  | refused first readied otherwise => exact verdict_refused readied otherwise
  | succeeded first readied => exact verdict_succeeded readied

end Prepared

theorem adapterActions_safe (e : Effect) (inside : adapterActions e) (s : Station) (cause : Fault) :
    s.apply e ≠ .error cause := by
  intro failed
  rcases Station.apply_error failed with rfl | ⟨_, rfl | rfl | ⟨_, rfl⟩⟩ |
    ⟨_, offset, outside, rfl | ⟨value, rfl⟩⟩
  · exact inside
  · exact inside
  · exact inside
  · exact inside
  · exact outside inside
  · exact outside inside

end Adapter

namespace Station

def refusing (s : Station) (refuses : Bool) : Station :=
  { s with host := { s.host with refusesStart := refuses } }

theorem apply_refusing {s : Station} {e : Effect} (other : e ≠ .startDatapath) (refuses : Bool) :
    (s.refusing refuses).apply e =
      (s.apply e).map fun reply => (reply.1, reply.2.refusing refuses) := by
  cases e with
  | startDatapath => exact absurd rfl other
  | load offset =>
    simp only [apply, refusing]
    cases s.registers.read? offset <;> rfl
  | store offset value =>
    simp only [apply, refusing]
    cases s.registers.write? offset value <;> rfl
  | acquire | wanted | armed =>
    simp only [apply, refusing]
    cases s.interrupt.lock <;> rfl
  | _ => rfl

/-- Until it is asked, nobody can tell whether the host will refuse. -/
theorem Does.refusing {s after : Station} {deeds : List Deed} (does : s.Does deeds after)
    (unasked : ∀ deed ∈ deeds, deed.effect ≠ .startDatapath) (refuses : Bool) :
    (s.refusing refuses).Does deeds (after.refusing refuses) := by
  induction deeds generalizing s with
  | nil =>
    cases does
    rfl
  | cons deed deeds ih =>
    obtain ⟨mid, performed, does⟩ := does
    obtain ⟨applied, reply, rfl⟩ := perform_iff.mp performed
    obtain ⟨first, rest⟩ := List.forall_mem_cons.mp unasked
    refine ⟨_, perform_iff.mpr ⟨applied.refusing refuses, ?_, rfl⟩, ih does rest⟩
    rw [apply_refusing first, reply]
    rfl

end Station

namespace Adapter

variable (config : HostConfig) (resources : List Resource)

theorem granted_of_does {s after : Station} {deeds : List Deed} (does : s.Does deeds after)
    (grants : s.host.refusesMapping = false) : Granted deeds := by
  intro first length member
  have answer := does.map_answer member
  rw [grants] at answer
  cases answer

/-- A preparation that has its window and its line always comes to a result, which is decided by the
first check that fails; and one that the host refuses to start differs from one that it starts only
from there on. -/
theorem prepare_verdict (windowed : HasWindow resources) (lined : HasLine resources) :
    (∀ s : Station, s.host.refusesMapping = false → ∃ deeds result after,
      (prepare config resources).run s = (.ok result, after) ∧
        (prepare config resources).Course deeds result ∧ Granted deeds ∧ s.Does deeds after ∧
        after.trace = (deeds.filterMap Deed.event?).reverse ++ s.trace) ∧
    (∀ deeds result, (prepare config resources).Course deeds result → Granted deeds →
      ∃ features, Verdict config resources features deeds result) ∧
    ∀ s after : Station, s.host.refusesMapping = false →
      (prepare config resources).run s = (.ok (.error (.config .datapathStartFailed)), after) →
        ∃ adapter started shown,
          (prepare config resources).run (s.refusing false) = (.ok (.ok adapter), started) ∧
            after.trace = .unmap :: .start false :: shown ∧ started.trace = .start true :: shown := by
  refine ⟨?comes, ?decides, ?differs⟩
  case comes =>
    intro s grants
    obtain ⟨result, after, ran⟩ := (bringIn_only config resources).run adapterActions_safe s
    obtain ⟨deeds, course, does⟩ := run_eq_ok_iff.mp ran
    exact ⟨deeds, result, after, ran, course, granted_of_does does grants, does, does.trace⟩
  case decides =>
    intro deeds result course granted
    obtain ⟨features, prepared⟩ := prepare_course course windowed lined granted
    exact ⟨features, prepared.verdict⟩
  case differs =>
    intro s after grants ran
    obtain ⟨deeds, course, does⟩ := run_eq_ok_iff.mp ran
    obtain ⟨features, prepared⟩ :=
      prepare_course course windowed lined (granted_of_does does grants)
    cases prepared with
    | failed first readied => simpa using readied.error_cases
    | refused first readied otherwise =>
      rename_i main adapter
      -- The host is asked once, at the end, so that the deeds before are those of a host that accepts.
      obtain ⟨mid, before, last⟩ := Station.Does.append.mp does
      have unasked : ∀ deed ∈ ⟨.map first windowSize, true⟩ :: main,
          deed.effect ≠ .startDatapath :=
        Prepared.unasked readied
      have accepted : (mid.refusing false).Does [⟨.startDatapath, true⟩]
          ((mid.refusing false).record (.start true)) :=
        ⟨_, rfl, rfl⟩
      have ran := run_eq_ok_iff.mpr ⟨_, otherwise,
        Station.Does.append.mpr ⟨_, before.refusing unasked false, accepted⟩⟩
      exact ⟨adapter, _, mid.trace, ran, last.trace, rfl⟩

def fittingResources : List Resource := [.memory 0xA0000000 windowSize, .interrupt 40]

def refusingHost : Station where
  registers := { cell := fun offset => if offset = Register.macVersion then 0x5251 else 0 }
  host := { refusesStart := true }
  target := .noDevice

theorem prepare_verdict_refusingHost :
    HasWindow fittingResources ∧ HasLine fittingResources ∧
      ∃ features deeds, Verdict {} fittingResources features deeds
        (.error (.config .datapathStartFailed)) := by
  have windowed : HasWindow fittingResources := ⟨0xA0000000, windowSize, .head _, Nat.le_refl _⟩
  have lined : HasLine fittingResources := ⟨40, .tail _ (.head _)⟩
  obtain ⟨comes, decides, _⟩ := prepare_verdict {} fittingResources windowed lined
  obtain ⟨deeds, result, after, ran, course, granted, _⟩ := comes refusingHost rfl
  have refused : ((prepare {} fittingResources).run refusingHost).1 =
      .ok (.error (.config .datapathStartFailed)) := by rfl
  rw [ran] at refused
  cases refused
  obtain ⟨features, verdict⟩ := decides deeds _ course granted
  exact ⟨windowed, lined, features, deeds, verdict⟩

end Adapter

end EthernetMac
