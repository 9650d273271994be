import EthernetMac.Proofs.Footprint
import EthernetMac.Proofs.Solo

namespace EthernetMac

open Program

def Deed.read? (offset : Nat) : Deed → Option Word
  | ⟨.load other, value⟩ => if other = offset then some value else none
  | _ => none

def reads (offset : Nat) (deeds : List Deed) : List Word := deeds.filterMap (Deed.read? offset)

@[simp] theorem reads_append (offset : Nat) (first rest : List Deed) :
    reads offset (first ++ rest) = reads offset first ++ reads offset rest :=
  List.filterMap_append

@[simp] theorem reads_nil (offset : Nat) : reads offset [] = [] := rfl

theorem reads_eq_nil {deeds : List Deed} {offset : Nat}
    (never : ∀ deed ∈ deeds, deed.effect ≠ .load offset) : reads offset deeds = [] := by
  refine List.filterMap_eq_nil_iff.mpr fun deed member => ?_
  obtain ⟨e, answer⟩ := deed
  cases e with
  | load other =>
    have apart : other ≠ offset := fun same => never _ member (congrArg Effect.load same)
    simp [Deed.read?, apart]
  | _ => rfl

/-- Writes a register, publishes something, or starts the datapath. -/
def Effect.outward : Effect → Bool
  | .store _ _ | .publishLink _ | .publishCapabilities _ | .startDatapath => true
  | _ => false

def outwards (deeds : List Deed) : List Deed := deeds.filter (·.effect.outward)

@[simp] theorem outwards_append (first rest : List Deed) :
    outwards (first ++ rest) = outwards first ++ outwards rest :=
  List.filter_append ..

@[simp] theorem outwards_nil : outwards [] = [] := rfl

theorem outwards_eq_nil {deeds : List Deed} (never : ∀ deed ∈ deeds, deed.effect.outward = false) :
    outwards deeds = [] :=
  List.filter_eq_nil_iff.mpr fun deed member => by simp [never deed member]

def HasWindow (resources : List Resource) : Prop :=
  ∃ first length, .memory first length ∈ resources ∧ windowSize ≤ length

def HasLine (resources : List Resource) : Prop := ∃ vector, .interrupt vector ∈ resources

def Granted (deeds : List Deed) : Prop := ∀ first length, (⟨.map first length, false⟩ : Deed) ∉ deeds

namespace Survey

variable {survey : Survey} {resources : List Resource} {deeds : List Deed}
  {result : Except ConfigError Nat}

theorem scan_mapped (course : (survey.scan resources).Course deeds result)
    (mapped : survey.mapped = true) (line : survey.line.isSome ∨ HasLine resources) :
    deeds = [] ∧ ∃ line, result = .ok line := by
  induction resources generalizing survey with
  | nil =>
    have found : survey.line.isSome := line.resolve_right (by simp [HasLine])
    obtain ⟨line, same⟩ := Option.isSome_iff_exists.mp found
    simp only [scan, conclude, mapped, same, if_true, course_pure] at course
    exact ⟨course.1, line, course.2⟩
  | cons resource rest ih =>
    have lined (other : ∀ vector, resource ≠ .interrupt vector) :
        survey.line.isSome ∨ HasLine rest := by
      refine line.imp_right ?_
      rintro ⟨vector, member⟩
      exact ⟨vector, (List.mem_cons.mp member).resolve_left fun same => other vector same.symm⟩
    cases resource with
    | memory first length =>
      simp only [scan, mapped, if_true] at course
      exact ih course mapped (lined (by rintro _ ⟨⟩))
    | interrupt vector =>
      simp only [scan] at course
      exact ih course mapped (.inl (by simp))
    | other code =>
      simp only [scan] at course
      exact ih course mapped (lined (by rintro _ ⟨⟩))

/-- A scan maps the first window that is large enough, and nothing else. -/
theorem scan_course (course : (survey.scan resources).Course deeds result)
    (unmapped : survey.mapped = false) (windowed : HasWindow resources)
    (line : survey.line.isSome ∨ HasLine resources) (granted : Granted deeds) :
    ∃ first line, deeds = [⟨.map first windowSize, true⟩] ∧ result = .ok line := by
  induction resources generalizing survey with
  | nil => simp [HasWindow] at windowed
  | cons resource rest ih =>
    have lined (other : ∀ vector, resource ≠ .interrupt vector) :
        survey.line.isSome ∨ HasLine rest :=
      line.imp_right fun ⟨vector, member⟩ =>
        ⟨vector, (List.mem_cons.mp member).resolve_left fun same => other vector same.symm⟩
    have later (other : ∀ first length, windowSize ≤ length → resource ≠ .memory first length) :
        HasWindow rest := by
      obtain ⟨first, length, member, large⟩ := windowed
      exact ⟨first, length,
        (List.mem_cons.mp member).resolve_left fun same => other first length large same.symm, large⟩
    cases resource with
    | memory first length =>
      simp only [scan, unmapped, Bool.false_eq_true, if_false] at course
      split at course
      · rename_i small
        refine ih course rfl (later ?_) (lined nofun)
        rintro _ _ large ⟨⟩
        omega
      · obtain ⟨accepted, tail, rfl, course⟩ := course
        cases accepted with
        | false => exact absurd (.head _) (granted first windowSize)
        | true =>
          obtain ⟨rfl, line, rfl⟩ := scan_mapped course rfl (lined nofun)
          exact ⟨first, line, rfl, rfl⟩
    | interrupt vector =>
      simp only [scan] at course
      exact ih course unmapped (later nofun) (.inl (by simp))
    | other code =>
      simp only [scan] at course
      exact ih course unmapped (later nofun) (lined nofun)

end Survey

def Resetting (mode : Word) : Prop := DmaMode.softwareReset.test mode = true

/-- A reset polls until the first mode that is clear, or as often as it may. -/
theorem await_course {station : MacAddress} {used left : Nat} {deeds : List Deed}
    {result : Except IoError Nat} (course : (Reset.await station used left).Course deeds result) :
    (reads Register.dmaMode deeds).length ≤ left ∧
    ((result = .error .timeout ∧ (reads Register.dmaMode deeds).length = left ∧
        (∀ mode ∈ reads Register.dmaMode deeds, Resetting mode) ∧ outwards deeds = []) ∨
      (∃ polls, result = .ok polls) ∧ ∃ mode ∈ reads Register.dmaMode deeds, ¬ Resetting mode) := by
  induction left generalizing used deeds with
  | zero =>
    obtain ⟨rfl, rfl⟩ := course
    exact ⟨Nat.le_refl _, .inl ⟨rfl, rfl, nofun, rfl⟩⟩
  | succ left ih =>
    obtain ⟨_, _, rfl, mode, rest, rfl, course⟩ := course
    have first : reads Register.dmaMode
        (⟨.delay Reset.pollInterval, ()⟩ :: ⟨.load Register.dmaMode, mode⟩ :: rest) =
        mode :: reads Register.dmaMode rest := rfl
    have quiet : outwards
        (⟨.delay Reset.pollInterval, ()⟩ :: ⟨.load Register.dmaMode, mode⟩ :: rest) =
        outwards rest := rfl
    change (if DmaMode.softwareReset.test mode then Reset.await station (used + 1) left
      else do writeSlot 0 station true; return .ok (used + 1)).Course rest result at course
    split at course
    · rename_i busy
      obtain ⟨bound, outcome⟩ := ih course
      rw [first]
      refine ⟨by simpa using bound, ?_⟩
      rcases outcome with ⟨timeout, all, busies, silent⟩ | ⟨done, clear, member, idle⟩
      · refine .inl ⟨timeout, by simpa using all, ?_, quiet.trans silent⟩
        exact List.forall_mem_cons.mpr ⟨busy, busies⟩
      · exact .inr ⟨done, clear, .tail _ member, idle⟩
    · rename_i clear
      rw [writeSlot_of_lt (by decide)] at course
      obtain ⟨_, _, rfl, _, _, rfl, rfl, rfl⟩ := course
      exact ⟨Nat.succ_le_succ (Nat.zero_le _), .inr ⟨⟨_, rfl⟩, mode, .head _, clear⟩⟩

theorem AddressWidth.ofCode?_eq_none (code : Word) :
    AddressWidth.ofCode? code = none ↔ code ≠ 0 ∧ code ≠ 1 ∧ code ≠ 2 := by
  unfold AddressWidth.ofCode? MacFeature1.width32 MacFeature1.width40 MacFeature1.width48
  split
  · simp_all
  · split
    · simp_all
    · split <;> simp_all

namespace Features

def Unsupported (f : Features) : Prop :=
  MacVersion.core.get f.version < 0x51 ∨ 0x52 < MacVersion.vendor.get f.version

def UnknownWidth (f : Features) : Prop :=
  let code := MacFeature1.addressWidth.get f.feature1
  code ≠ 0 ∧ code ≠ 1 ∧ code ≠ 2

theorem supported_cases (f : Features) :
    (f.Unsupported ∧ f.supported = .error .unsupportedVersion) ∨
    (¬ f.Unsupported ∧ f.UnknownWidth ∧ f.supported = .error .unknownAddressWidth) ∨
    ¬ f.Unsupported ∧ ¬ f.UnknownWidth ∧ ∃ dma, f.supported = .ok dma := by
  by_cases unsupported : f.Unsupported
  · refine .inl ⟨unsupported, ?_⟩
    have rejected : f.checkVersion = .error .unsupportedVersion := if_pos unsupported
    rw [supported, rejected]
    rfl
  · have served : f.checkVersion = .ok () := if_neg unsupported
    by_cases unknown : f.UnknownWidth
    · refine .inr (.inl ⟨unsupported, unknown, ?_⟩)
      rw [supported, served]
      change f.dma = _
      rw [dma, (AddressWidth.ofCode?_eq_none _).mpr unknown]
    · refine .inr (.inr ⟨unsupported, unknown, ?_⟩)
      obtain ⟨width, found⟩ := Option.ne_none_iff_exists'.mp
        fun none => unknown ((AddressWidth.ofCode?_eq_none _).mp none)
      refine ⟨.ofWidth width, ?_⟩
      rw [supported, served]
      change f.dma = _
      rw [dma, found]

theorem checked_of_ok {f : Features} {dma : DmaCapability} (ok : f.supported = .ok dma) :
    ¬ f.Unsupported ∧ ¬ f.UnknownWidth := by
  rcases f.supported_cases with ⟨_, failed⟩ | ⟨_, _, failed⟩ | ⟨served, known, _⟩
  · rw [ok] at failed
    cases failed
  · rw [ok] at failed
    cases failed
  · exact ⟨served, known⟩

end Features

namespace Adapter

def ready (config : HostConfig) (line : Nat) : Program (Except Error Adapter) := do
  let permanent ← readPermanent
  let current ← selectCurrent config.address permanent
  let features ← readFeatures
  match features.supported with
  | .error cause => return .error (.config cause)
  | .ok dma =>
    act (.publishCapabilities (.ofFeatures features dma permanent current))
    act (.publishLink .disconnected)
    match ← softReset current with
    | .error cause => return .error (.io cause)
    | .ok _ =>
      Bus.configure
      return .ok ⟨line, features, dma, permanent, current⟩

def startedBy : Except Error Adapter → Program (Except Error Adapter)
  | .error cause => return .error cause
  | .ok adapter => do
    if ← act .startDatapath then return .ok adapter
    else return .error (.config .datapathStartFailed)

theorem bringUp_eq (config : HostConfig) (line : Nat) :
    bringUp config line = ready config line >>= startedBy := by
  unfold bringUp ready
  simp only [LawfulMonad.bind_assoc]
  refine bind_congr fun permanent => bind_congr fun current => bind_congr fun features => ?_
  cases features.supported with
  | error cause => rfl
  | ok dma =>
    simp only [LawfulMonad.bind_assoc]
    refine bind_congr fun _ => bind_congr fun _ => bind_congr fun reset => ?_
    cases reset with
    | error cause => rfl
    | ok polls =>
      simp only [LawfulMonad.bind_assoc]
      rfl

def announcement (capabilities : Capabilities) : List Deed :=
  [⟨.publishCapabilities capabilities, ()⟩, ⟨.publishLink .disconnected, ()⟩,
    ⟨.store Register.dmaMode (DmaMode.softwareReset.assign true 0), ()⟩]

structure Surveys (features : Features) (deeds : List Deed) : Prop where
  only : ∀ deed ∈ deeds, surveyActions deed.effect
  version : reads Register.macVersion deeds = [features.version]
  feature1 : reads Register.macFeature1 deeds = [features.feature1]

/-- The three ways to come to the start of the datapath, or to fail before it. -/
inductive Readied (features : Features) : List Deed → Except Error Adapter → Prop where
  | rejected {survey : List Deed} {cause : ConfigError} (surveys : Surveys features survey)
      (checked : features.supported = .error cause) : Readied features survey (.error (.config cause))
  | timedOut {survey polling : List Deed} {dma : DmaCapability} (capabilities : Capabilities)
      (surveys : Surveys features survey) (checked : features.supported = .ok dma)
      (resets : ∀ deed ∈ polling, resetActions deed.effect)
      (exhausted : (reads Register.dmaMode polling).length = Reset.maxPolls)
      (busy : ∀ mode ∈ reads Register.dmaMode polling, Resetting mode)
      (silent : outwards polling = []) :
      Readied features (survey ++ announcement capabilities ++ polling) (.error (.io .timeout))
  | ready {survey polling settings : List Deed} {dma : DmaCapability} (capabilities : Capabilities)
      (adapter : Adapter) (surveys : Surveys features survey) (checked : features.supported = .ok dma)
      (resets : ∀ deed ∈ polling, resetActions deed.effect)
      (within : (reads Register.dmaMode polling).length ≤ Reset.maxPolls)
      (clear : ∃ mode ∈ reads Register.dmaMode polling, ¬ Resetting mode)
      (sets : ∀ deed ∈ settings, settingActions deed.effect) :
      Readied features (survey ++ announcement capabilities ++ polling ++ settings) (.ok adapter)

theorem surveys_of_course {requested : Option LinkLayerAddress} {permanent current : MacAddress}
    {features : Features} {first second third : List Deed}
    (found : readPermanent.Course first permanent)
    (selected : (selectCurrent requested permanent).Course second current)
    (read : readFeatures.Course third features) : Surveys features (first ++ second ++ third) := by
  have only : ∀ deed ∈ first ++ second ++ third, surveyActions deed.effect := by
    simpa only [List.mem_append, or_imp, forall_and] using
      ⟨⟨readPermanent_only.course found, (selectCurrent_only _ _).course selected⟩,
        readFeatures_only.course read⟩
  have choice : (selectCurrent requested permanent).Only fun e => ∃ size, e = .random size := by
    unfold selectCurrent
    split
    · exact .pure _
    · exact .ite ((Only.act ⟨4, rfl⟩).bind fun _ => .pure _) (.ite (.pure _) (.pure _))
  have none (offset : Nat) : reads offset second = [] :=
    reads_eq_nil fun deed member same => by
      obtain ⟨size, random⟩ := choice.course selected deed member
      rw [random] at same
      cases same
  obtain ⟨high, _, rfl, low, _, rfl, rfl, _⟩ := found
  obtain ⟨version, _, rfl, _, _, rfl, feature1, _, rfl, _, _, rfl, _, _, rfl, rfl, rfl⟩ := read
  refine ⟨only, ?_, ?_⟩
  · rw [reads_append, reads_append, none]
    rfl
  · rw [reads_append, reads_append, none]
    rfl

theorem ready_course {config : HostConfig} {line : Nat} {deeds : List Deed}
    {result : Except Error Adapter} (course : (ready config line).Course deeds result) :
    ∃ features, Readied features deeds result := by
  unfold ready at course
  rw [course_bind] at course
  obtain ⟨first, permanent, _, rfl, found, course⟩ := course
  rw [course_bind] at course
  obtain ⟨second, current, _, rfl, selected, course⟩ := course
  rw [course_bind] at course
  obtain ⟨third, features, rest, rfl, read, course⟩ := course
  have surveys := surveys_of_course found selected read
  refine ⟨features, ?_⟩
  rw [← List.append_assoc second, ← List.append_assoc first]
  rw [← List.append_assoc first]
  generalize first ++ second ++ third = survey at surveys ⊢
  cases checked : features.supported with
  | error cause =>
    rw [checked] at course
    obtain ⟨rfl, rfl⟩ := course
    rw [List.append_nil]
    exact .rejected surveys checked
  | ok dma =>
    rw [checked] at course
    obtain ⟨_, _, rfl, _, _, rfl, course⟩ := course
    replace course := (course_bind (softReset current) _ _).mp course
    obtain ⟨_, reset, rest, rfl, ⟨_, polling, rfl, awaited⟩, course⟩ := course
    have resets := (await_only current 0 Reset.maxPolls).course awaited
    obtain ⟨within, ⟨rfl, exhausted, busy, silent⟩ | ⟨⟨polls, rfl⟩, clear⟩⟩ := await_course awaited
    · obtain ⟨rfl, rfl⟩ := course
      simpa [announcement] using Readied.timedOut _ surveys checked resets exhausted busy silent
    · replace course := (course_bind Bus.configure _ _).mp course
      obtain ⟨settings, _, _, rfl, set, rfl, rfl⟩ := course
      have sets := configure_only.course set
      simpa [announcement] using Readied.ready _ _ surveys checked resets within clear sets

/-- What comes before the start of the datapath gives nothing back. -/
def readyActions : Effect → Prop
  | .startDatapath => False
  | e => bringUpActions e

namespace Readied

variable {features : Features} {main : List Deed} {outcome : Except Error Adapter}

theorem only (readied : Readied features main outcome) :
    ∀ deed ∈ main, readyActions deed.effect := by
  have survey (e : Effect) (inside : surveyActions e) : readyActions e := by
    cases e <;> first | exact inside.elim | exact bringUpActions_of_survey _ inside
  have reset (e : Effect) (inside : resetActions e) : readyActions e := by
    cases e <;> first | exact inside.elim | exact bringUpActions_of_reset _ inside
  have setting (e : Effect) (inside : settingActions e) : readyActions e := by
    cases e <;> first | exact inside.elim | exact bringUpActions_of_setting _ inside
  have announced (capabilities : Capabilities) :
      ∀ deed ∈ announcement capabilities, readyActions deed.effect := by
    have inside : RegisterFile.InWindow Register.dmaMode := by decide
    simpa [announcement, readyActions, bringUpActions] using inside
  cases readied with
  | rejected surveys => exact fun deed member => survey _ (surveys.only deed member)
  | timedOut capabilities surveys _ resets =>
    intro deed member
    rcases List.mem_append.mp member with member | member
    · rcases List.mem_append.mp member with member | member
      · exact survey _ (surveys.only deed member)
      · exact announced capabilities deed member
    · exact reset _ (resets deed member)
  | ready capabilities _ surveys _ resets _ _ sets =>
    intro deed member
    rcases List.mem_append.mp member with member | member
    · rcases List.mem_append.mp member with member | member
      · rcases List.mem_append.mp member with member | member
        · exact survey _ (surveys.only deed member)
        · exact announced capabilities deed member
      · exact reset _ (resets deed member)
    · exact setting _ (sets deed member)

end Readied

end Adapter

end EthernetMac
