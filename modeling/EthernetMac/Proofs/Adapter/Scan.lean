import EthernetMac.Proofs.Adapter.Courses

namespace EthernetMac

open Program

namespace Resource

def window? : Resource → Option Nat
  | memory start length => if windowSize ≤ length then some start else none
  | _ => none

def line? : Resource → Option Nat
  | interrupt vector => some vector
  | _ => none

def isMemory : Resource → Bool
  | memory _ _ => true
  | _ => false

def isInterrupt : Resource → Bool
  | interrupt _ => true
  | _ => false

end Resource

def FirstWindow (resources : List Resource) (start : Nat) : Prop :=
  ∃ before length after, resources = before ++ .memory start length :: after ∧ 0x1200 ≤ length ∧
    ∀ first short, .memory first short ∈ before → short < 0x1200

def FirstLine (resources : List Resource) (vector : Nat) : Prop :=
  ∃ before after, resources = before ++ .interrupt vector :: after ∧
    ∀ other, .interrupt other ∉ before

/-- The ways in which a scan of `resources` can go: what is asked of the mapper, with its answers, and
what comes of it. -/
inductive Scanned (resources : List Resource) : List Deed → Except ConfigError Nat → Prop where
  | refused {start : Nat} (window : FirstWindow resources start) :
      Scanned resources [⟨.map start 0x1200, false⟩] (.error .mapFailed)
  | tooSmall {start length : Nat} (windowless : ¬ HasWindow resources)
      (offered : .memory start length ∈ resources) :
      Scanned resources [] (.error .registerWindowTooSmall)
  | missing (unoffered : ∀ start length, .memory start length ∉ resources) :
      Scanned resources [] (.error .noRegisterWindow)
  | lineless {start : Nat} (window : FirstWindow resources start) (lineless : ¬ HasLine resources) :
      Scanned resources [⟨.map start 0x1200, true⟩, ⟨.unmap, ()⟩] (.error .noInterrupt)
  | found {start vector : Nat} (window : FirstWindow resources start)
      (line : FirstLine resources vector) :
      Scanned resources [⟨.map start 0x1200, true⟩] (.ok vector)

section Lists

variable {resources : List Resource}

theorem Resource.window?_eq_some {resource : Resource} {start : Nat} :
    resource.window? = some start ↔
      ∃ length, resource = .memory start length ∧ windowSize ≤ length := by
  cases resource with
  | memory first length =>
    simp only [window?, Option.ite_none_right_eq_some, Option.some.injEq, memory.injEq]
    constructor
    · rintro ⟨large, same⟩
      exact ⟨length, ⟨same, rfl⟩, large⟩
    · rintro ⟨_, ⟨same, rfl⟩, large⟩
      exact ⟨large, same⟩
  | _ => simp [window?]

theorem Resource.window?_eq_none {resource : Resource} :
    resource.window? = none ↔
      ∀ start length, resource = .memory start length → length < windowSize := by
  cases resource <;> simp [window?]

theorem Resource.line?_eq_some {resource : Resource} {vector : Nat} :
    resource.line? = some vector ↔ resource = .interrupt vector := by
  cases resource <;> simp [line?]

theorem firstWindow_iff {start : Nat} :
    FirstWindow resources start ↔ resources.findSome? Resource.window? = some start := by
  rw [List.findSome?_eq_some_iff]
  constructor
  · rintro ⟨before, length, after, rfl, large, small⟩
    refine ⟨before, .memory start length, after, rfl, Resource.window?_eq_some.mpr ⟨_, rfl, large⟩, ?_⟩
    rintro resource member
    exact Resource.window?_eq_none.mpr fun first short same => small first short (same ▸ member)
  · rintro ⟨before, resource, after, rfl, found, none⟩
    obtain ⟨length, rfl, large⟩ := Resource.window?_eq_some.mp found
    exact ⟨before, length, after, rfl, large,
      fun first short member => Resource.window?_eq_none.mp (none _ member) first short rfl⟩

theorem firstLine_iff {vector : Nat} :
    FirstLine resources vector ↔ resources.findSome? Resource.line? = some vector := by
  rw [List.findSome?_eq_some_iff]
  constructor
  · rintro ⟨before, after, rfl, none⟩
    refine ⟨before, .interrupt vector, after, rfl, rfl, fun resource member => ?_⟩
    cases resource with
    | interrupt other => exact absurd member (none other)
    | _ => rfl
  · rintro ⟨before, resource, after, rfl, found, none⟩
    cases Resource.line?_eq_some.mp found
    exact ⟨before, after, rfl, fun other member => nomatch none _ member⟩

theorem no_window_iff :
    ¬ HasWindow resources ↔ resources.findSome? Resource.window? = none := by
  rw [List.findSome?_eq_none_iff]
  constructor
  · intro windowless resource member
    refine Resource.window?_eq_none.mpr fun start length same => Nat.lt_of_not_le fun large => ?_
    exact windowless ⟨start, length, same ▸ member, large⟩
  · rintro none ⟨start, length, member, large⟩
    exact Nat.not_lt_of_le large (Resource.window?_eq_none.mp (none _ member) start length rfl)

theorem no_line_iff : ¬ HasLine resources ↔ resources.findSome? Resource.line? = none := by
  rw [List.findSome?_eq_none_iff]
  constructor
  · intro lineless resource member
    cases resource with
    | interrupt vector => exact absurd ⟨vector, member⟩ lineless
    | _ => rfl
  · rintro none ⟨vector, member⟩
    cases none _ member

theorem offered_iff :
    resources.any Resource.isMemory = true ↔ ∃ start length, .memory start length ∈ resources := by
  rw [List.any_eq_true]
  constructor
  · rintro ⟨resource, member, memory⟩
    cases resource with
    | memory start length => exact ⟨start, length, member⟩
    | _ => cases memory
  · rintro ⟨start, length, member⟩
    exact ⟨_, member, rfl⟩

theorem findSome?_filter {found? : Resource → Option Nat} {among : Resource → Bool}
    (inside : ∀ resource, among resource = false → found? resource = none) :
    (resources.filter among).findSome? found? = resources.findSome? found? := by
  induction resources with
  | nil => rfl
  | cons resource rest ih =>
    cases kept : among resource with
    | true => rw [List.filter_cons_of_pos kept, List.findSome?_cons, List.findSome?_cons, ih]
    | false =>
      rw [List.filter_cons_of_neg (by simp [kept]), List.findSome?_cons, inside resource kept, ih]

end Lists

namespace Survey

def settle (window : Option Nat) (small : Bool) (line : Option Nat) :
    Program (Except ConfigError Nat) :=
  match window with
  | none => conclude ⟨false, small, line⟩
  | some start => do
    if ← act (.map start windowSize) then conclude ⟨true, small, line⟩
    else return .error .mapFailed

theorem scan_of_mapped (small : Bool) (line : Option Nat) (resources : List Resource) :
    scan ⟨true, small, line⟩ resources =
      conclude ⟨true, small, line.or (resources.findSome? Resource.line?)⟩ := by
  induction resources generalizing line with
  | nil => simp [scan]
  | cons resource rest ih =>
    cases resource with
    | memory start length => exact ih line
    | interrupt vector =>
      rw [scan, ih, Option.or_assoc]
      rfl
    | other code => exact ih line

theorem scan_eq (small : Bool) (line : Option Nat) (resources : List Resource) :
    scan ⟨false, small, line⟩ resources =
      settle (resources.findSome? Resource.window?) (small || resources.any Resource.isMemory)
        (line.or (resources.findSome? Resource.line?)) := by
  induction resources generalizing small line with
  | nil => simp [scan, settle]
  | cons resource rest ih =>
    cases resource with
    | memory start length =>
      have lines : (Resource.memory start length :: rest).findSome? Resource.line? =
          rest.findSome? Resource.line? := rfl
      have offered (resources : Bool) : (small || (true || resources)) = true := by simp
      rw [lines, List.any_cons, Resource.isMemory, offered]
      by_cases unfit : length < windowSize
      · have windows : (Resource.memory start length :: rest).findSome? Resource.window? =
            rest.findSome? Resource.window? :=
          List.findSome?_cons_of_isNone (by simp [Resource.window?, Nat.not_le_of_lt unfit])
        rw [windows, scan, if_neg Bool.false_ne_true, if_pos unfit, ih, Bool.true_or]
      · have windows : (Resource.memory start length :: rest).findSome? Resource.window? =
            some start := by
          simp [Resource.window?, Nat.le_of_not_lt unfit]
        rw [windows, scan, if_neg Bool.false_ne_true, if_neg unfit, scan_of_mapped]
        rfl
    | interrupt vector =>
      rw [scan, ih, Option.or_assoc]
      rfl
    | other code => exact ih small line

end Survey

def GrantedBy (grants : Nat → Nat → Bool) (deeds : List Deed) : Prop :=
  ∀ start length answer, (⟨.map start length, answer⟩ : Deed) ∈ deeds → answer = grants start length

namespace Survey

variable {small : Bool} {line : Option Nat} {deeds : List Deed} {result : Except ConfigError Nat}

theorem settle_none_course :
    (settle none small line).Course deeds result ↔
      deeds = [] ∧
        result = .error (if small then .registerWindowTooSmall else .noRegisterWindow) := by
  cases small <;> exact .rfl

def sequel (line : Option Nat) : (answer : Bool) → List Deed × Except ConfigError Nat
  | false => ([], .error .mapFailed)
  | true =>
    match line with
    | some vector => ([], .ok vector)
    | none => ([⟨.unmap, ()⟩], .error .noInterrupt)

theorem settle_some_course {start : Nat} :
    (settle (some start) small line).Course deeds result ↔
      ∃ answer, deeds = ⟨.map start windowSize, answer⟩ :: (sequel line answer).1 ∧
        result = (sequel line answer).2 := by
  unfold settle
  rw [course_act_bind]
  refine exists_congr fun answer => ?_
  cases answer with
  | false =>
    constructor
    · rintro ⟨_, rfl, rfl, rfl⟩
      exact ⟨rfl, rfl⟩
    · rintro ⟨rfl, rfl⟩
      exact ⟨[], rfl, rfl, rfl⟩
  | true =>
    cases line with
    | some vector =>
      constructor
      · rintro ⟨_, rfl, rfl, rfl⟩
        exact ⟨rfl, rfl⟩
      · rintro ⟨rfl, rfl⟩
        exact ⟨[], rfl, rfl, rfl⟩
    | none =>
      constructor
      · rintro ⟨_, rfl, _, _, rfl, rfl, rfl⟩
        exact ⟨rfl, rfl⟩
      · rintro ⟨rfl, rfl⟩
        exact ⟨_, rfl, (), [], rfl, rfl, rfl⟩

theorem grantedBy_sequel {grants : Nat → Nat → Bool} {start : Nat} {answer : Bool} :
    GrantedBy grants (⟨.map start windowSize, answer⟩ :: (sequel line answer).1) ↔
      answer = grants start windowSize := by
  constructor
  · exact fun granted => granted start windowSize answer (.head _)
  · intro granted first length other member
    rcases List.mem_cons.mp member with same | later
    · cases same
      exact granted
    · cases answer with
      | false => cases later
      | true =>
        cases line with
        | some vector => cases later
        | none => cases List.mem_singleton.mp later

theorem settle_determined (grants : Nat → Nat → Bool) (window : Option Nat) (small : Bool)
    (line : Option Nat) :
    ∃ deeds result, ((settle window small line).Course deeds result ∧ GrantedBy grants deeds) ∧
      ∀ other outcome, (settle window small line).Course other outcome ∧ GrantedBy grants other →
        other = deeds ∧ outcome = result := by
  cases window with
  | none =>
    refine ⟨[], _, ⟨settle_none_course.mpr ⟨rfl, rfl⟩, nofun⟩, ?_⟩
    exact fun _ _ known => settle_none_course.mp known.1
  | some start =>
    simp only [settle_some_course]
    refine ⟨_, _, ⟨⟨grants start windowSize, rfl, rfl⟩, grantedBy_sequel.mpr rfl⟩, ?_⟩
    rintro _ _ ⟨⟨answer, rfl, rfl⟩, granted⟩
    obtain rfl := grantedBy_sequel.mp granted
    exact ⟨rfl, rfl⟩

end Survey

theorem scanResources_eq (resources : List Resource) :
    scanResources resources = Survey.settle (resources.findSome? Resource.window?)
      (resources.any Resource.isMemory) (resources.findSome? Resource.line?) :=
  Survey.scan_eq false none resources

/-- The ways in which the list allows a scan to go are the courses of the scan. -/
theorem scanned_iff {resources : List Resource} {deeds : List Deed} {result : Except ConfigError Nat} :
    Scanned resources deeds result ↔ (scanResources resources).Course deeds result := by
  rw [scanResources_eq]
  constructor
  · intro scanned
    cases scanned with
    | refused window =>
      rw [firstWindow_iff.mp window]
      exact Survey.settle_some_course.mpr ⟨false, rfl, rfl⟩
    | tooSmall windowless offered =>
      rw [no_window_iff.mp windowless, offered_iff.mpr ⟨_, _, offered⟩]
      exact Survey.settle_none_course.mpr ⟨rfl, rfl⟩
    | missing unoffered =>
      have windowless : ¬ HasWindow resources := fun ⟨_, _, member, _⟩ => unoffered _ _ member
      have none : resources.any Resource.isMemory = false := by
        refine Bool.eq_false_iff.mpr fun offered => ?_
        obtain ⟨start, length, member⟩ := offered_iff.mp offered
        exact unoffered start length member
      rw [no_window_iff.mp windowless, none]
      exact Survey.settle_none_course.mpr ⟨rfl, rfl⟩
    | lineless window lineless =>
      rw [firstWindow_iff.mp window, no_line_iff.mp lineless]
      exact Survey.settle_some_course.mpr ⟨true, rfl, rfl⟩
    | found window line =>
      rw [firstWindow_iff.mp window, firstLine_iff.mp line]
      exact Survey.settle_some_course.mpr ⟨true, rfl, rfl⟩
  · intro course
    cases window : resources.findSome? Resource.window? with
    | none =>
      rw [window] at course
      obtain ⟨rfl, rfl⟩ := Survey.settle_none_course.mp course
      cases memories : resources.any Resource.isMemory with
      | true =>
        obtain ⟨start, length, member⟩ := offered_iff.mp memories
        exact .tooSmall (no_window_iff.mpr window) member
      | false =>
        refine .missing fun start length member => ?_
        cases memories.symm.trans (offered_iff.mpr ⟨start, length, member⟩)
    | some start =>
      rw [window] at course
      have first := firstWindow_iff.mpr window
      obtain ⟨answer, rfl, rfl⟩ := Survey.settle_some_course.mp course
      cases answer with
      | false => exact .refused first
      | true =>
        cases line : resources.findSome? Resource.line? with
        | none => exact .lineless first (no_line_iff.mpr line)
        | some vector => exact .found first (firstLine_iff.mpr line)

/-- What a scan asks and answers is settled by the mapper, and the order in which windows and lines are
mixed makes no difference. -/
structure ScanMeets (resources : List Resource) : Prop where
  /-- A scan goes in one of the ways that the list allows, and in each of them if the mapper agrees. -/
  courses : ∀ deeds result,
    (scanResources resources).Course deeds result ↔ Scanned resources deeds result
  determined : ∀ grants, ∃ deeds result,
    (Scanned resources deeds result ∧ GrantedBy grants deeds) ∧
      ∀ other outcome, Scanned resources other outcome ∧ GrantedBy grants other →
        other = deeds ∧ outcome = result
  mixed : ∀ other, resources.filter Resource.isMemory = other.filter Resource.isMemory →
    resources.filter Resource.isInterrupt = other.filter Resource.isInterrupt →
    scanResources resources = scanResources other

theorem scanResources_meets (resources : List Resource) : ScanMeets resources where
  courses deeds result := scanned_iff.symm
  determined grants := by
    simp only [scanned_iff, scanResources_eq]
    exact Survey.settle_determined grants _ _ _
  mixed other memories lines := by
    have windows (list : List Resource) :
        (list.filter Resource.isMemory).findSome? Resource.window? = list.findSome? Resource.window? :=
      findSome?_filter fun resource other => by cases resource <;> first | rfl | cases other
    have line (list : List Resource) :
        (list.filter Resource.isInterrupt).findSome? Resource.line? = list.findSome? Resource.line? :=
      findSome?_filter fun resource other => by cases resource <;> first | rfl | cases other
    have offered (list : List Resource) :
        (list.filter Resource.isMemory).any Resource.isMemory = list.any Resource.isMemory := by
      rw [List.any_filter]
      simp
    calc scanResources resources
      _ = Survey.settle ((resources.filter Resource.isMemory).findSome? Resource.window?)
          ((resources.filter Resource.isMemory).any Resource.isMemory)
          ((resources.filter Resource.isInterrupt).findSome? Resource.line?) := by
        rw [scanResources_eq, windows, offered, line]
      _ = scanResources other := by
        rw [memories, lines, windows, offered, line, scanResources_eq]

end EthernetMac
