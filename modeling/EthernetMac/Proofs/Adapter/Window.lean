import EthernetMac.Proofs.Adapter.Courses

/-! The register window as something that is lent: a preparation maps it, and it is given back by the
preparation itself if that fails, or else by the release of the device. It is never given back twice,
and never kept by nobody. -/

namespace EthernetMac

open Program

def openWindows : History → List (Nat × Nat)
  | [] => []
  | .acted _ _ (.map first length) true :: earlier => (first, length) :: openWindows earlier
  | .acted _ _ .unmap _ :: earlier => (openWindows earlier).tail
  | _ :: earlier => openWindows earlier

inductive PrepareEnds : List Deed → Except Error Adapter → Prop where
  | unmapped (cause : Error) : PrepareEnds [] (.error cause)
  | refused (first : Nat) (cause : Error) :
      PrepareEnds [⟨.map first windowSize, false⟩] (.error cause)
  | returned {main : List Deed} (first : Nat) (cause : Error)
      (brings : ∀ deed ∈ main, bringUpActions deed.effect) :
      PrepareEnds (⟨.map first windowSize, true⟩ :: main ++ [⟨.unmap, ()⟩]) (.error cause)
  | kept {main : List Deed} (first : Nat) (adapter : Adapter)
      (brings : ∀ deed ∈ main, bringUpActions deed.effect) :
      PrepareEnds (⟨.map first windowSize, true⟩ :: main) (.ok adapter)

theorem Survey.scan_ends {survey : Survey} {resources : List Resource} {deeds : List Deed}
    {result : Except ConfigError Nat} (course : (survey.scan resources).Course deeds result) :
    (survey.mapped = true ∧ (deeds = [] ∧ (∃ line, result = .ok line) ∨
      deeds = [⟨.unmap, ()⟩] ∧ ∃ cause, result = .error cause)) ∨
    survey.mapped = false ∧ ((deeds = [] ∧ ∃ cause, result = .error cause) ∨
      ∃ first, (deeds = [⟨.map first windowSize, false⟩] ∧ ∃ cause, result = .error cause) ∨
        (deeds = [⟨.map first windowSize, true⟩] ∧ ∃ line, result = .ok line) ∨
          deeds = [⟨.map first windowSize, true⟩, ⟨.unmap, ()⟩] ∧ ∃ cause, result = .error cause) := by
  induction resources generalizing survey deeds with
  | nil =>
    simp only [scan, conclude] at course
    split at course
    · rename_i mapped
      split at course
      · obtain ⟨rfl, rfl⟩ := course
        exact .inl ⟨mapped, .inl ⟨rfl, _, rfl⟩⟩
      · obtain ⟨_, _, rfl, rfl, rfl⟩ := course
        exact .inl ⟨mapped, .inr ⟨rfl, _, rfl⟩⟩
    · rename_i unmapped
      refine .inr ⟨by simpa using unmapped, .inl ?_⟩
      split at course <;> obtain ⟨rfl, rfl⟩ := course <;> exact ⟨rfl, _, rfl⟩
  | cons resource rest ih =>
    cases resource with
    | memory first length =>
      simp only [scan] at course
      split at course
      · exact ih course
      · rename_i unmapped
        split at course
        · have ends := ih course
          exact ends
        · obtain ⟨accepted, tail, rfl, course⟩ := course
          refine .inr ⟨by simpa using unmapped, .inr ⟨first, ?_⟩⟩
          cases accepted with
          | false =>
            obtain ⟨rfl, rfl⟩ := course
            exact .inl ⟨rfl, _, rfl⟩
          | true =>
            rcases ih course with ⟨_, ⟨rfl, ok⟩ | ⟨rfl, failed⟩⟩ | ⟨never, _⟩
            · exact .inr (.inl ⟨rfl, ok⟩)
            · exact .inr (.inr ⟨rfl, failed⟩)
            · cases never
    | interrupt | other =>
      simp only [scan] at course
      have ends := ih course
      exact ends

/-- A preparation maps at most one window, and keeps it only if it succeeds. -/
theorem Adapter.prepare_ends {config : HostConfig} {resources : List Resource} {deeds : List Deed}
    {result : Except Error Adapter} (course : (Adapter.prepare config resources).Course deeds result) :
    PrepareEnds deeds result := by
  unfold prepare at course
  rw [course_bind] at course
  obtain ⟨scan, scanned, rest, rfl, found, course⟩ := course
  have ends := Survey.scan_ends found
  simp only [Bool.false_eq_true, false_and, false_or, true_and] at ends
  cases scanned with
  | error cause =>
    obtain ⟨rfl, rfl⟩ := course
    rw [List.append_nil]
    rcases ends with ⟨rfl, _⟩ | ⟨first, ⟨rfl, _⟩ | ⟨_, _, ⟨⟩⟩ | ⟨rfl, _⟩⟩
    · exact .unmapped _
    · exact .refused first _
    · exact @PrepareEnds.returned [] first _ nofun
  | ok line =>
    obtain ⟨main, brought, last, rfl, up, course⟩ := (course_bind (bringUp config line) _ _).mp course
    have brings := (bringUp_only config line).course up
    rcases ends with ⟨_, _, ⟨⟩⟩ | ⟨first, ⟨_, _, ⟨⟩⟩ | ⟨rfl, _⟩ | ⟨_, _, ⟨⟩⟩⟩
    cases brought with
    | error cause =>
      obtain ⟨_, _, rfl, rfl, rfl⟩ := course
      exact .returned first cause brings
    | ok adapter =>
      obtain ⟨rfl, rfl⟩ := course
      rw [List.append_nil]
      exact .kept first adapter brings

/-- What a call has to do with the window. -/
inductive WindowStage where
  | idle
  | access
  | service
  | searching
  | holding
  | without
  | lent
  | leaving
  | returning
  | returned
  deriving DecidableEq

namespace WindowStage

def Deviceless (q : WindowStage) : Prop :=
  q = searching ∨ q = holding ∨ q = without ∨ q = returning ∨ q = returned

instance (q : WindowStage) : Decidable q.Deviceless := inferInstanceAs (Decidable (_ ∨ _))

def Permits (q : WindowStage) : Effect → Prop
  | .map _ _ => q = searching
  | .unmap => q = holding ∨ q = returning
  | .attach _ => q = holding
  | .detach => q = leaving
  | .load offset | .store offset _ => q = service ∨ q ≠ idle ∧ RegisterFile.InWindow offset
  | .acquire | .wanted | .armed _ | .fault _ => q = service
  | _ => q ≠ idle

def after (q : WindowStage) : (e : Effect) → e.Answer → WindowStage
  | .map _ _, granted => if q = searching then if granted then holding else without else q
  | .unmap, _ => if q = holding then without else if q = returning then returned else q
  | .attach _, _ => if q = holding then lent else q
  | .detach, _ => if q = leaving then returning else q
  | _, _ => q

def ofOperation : Operation → WindowStage
  | .prepare _ _ => searching
  | .release => leaving
  | .read _ | .write _ _ => access
  | _ => service

def Ends (q : WindowStage) : Prop := q ≠ holding ∧ q ≠ leaving ∧ q ≠ returning

instance (q : WindowStage) : Decidable q.Ends := inferInstanceAs (Decidable (_ ∧ _))

theorem searching_ends : Ends searching := by decide

theorem without_ends : Ends without := by decide

theorem lent_ends : Ends lent := by decide

theorem returned_ends : Ends returned := by decide

end WindowStage

def windowLaw : Law WindowStage where
  idle := .idle
  start := .ofOperation
  permits := WindowStage.Permits
  after := WindowStage.after
  ends := WindowStage.Ends

/-- Windows are mapped and given back at top level, devices are used where there are some, and the
registers are accessed inside the window. -/
def windowLaw.Admits (m : Machine) : Step → Prop
  | .operation (.prepare _ _) => m.stack = [] ∧ m.station.target = .noDevice
  | .operation .release => m.stack = [] ∧ ∃ a, m.station.target = .device a
  | .operation (.read offset) | .operation (.write offset _) => RegisterFile.InWindow offset
  | .operation _ => ∃ a, m.station.target = .device a
  | _ => True

namespace windowLaw

@[simp] theorem idle_eq : windowLaw.idle = .idle := rfl

@[simp] theorem start_eq (op : Operation) : windowLaw.start op = .ofOperation op := rfl

@[simp] theorem permits_eq : windowLaw.permits = WindowStage.Permits := rfl

@[simp] theorem after_eq : windowLaw.after = WindowStage.after := rfl

@[simp] theorem yields_eq (q : WindowStage) : windowLaw.yields q ↔ True := .rfl

@[simp] theorem ends_eq : windowLaw.ends = WindowStage.Ends := rfl

theorem ignores_bringUp {q : WindowStage} (busy : q ≠ .idle) (e : Effect) (inside : bringUpActions e) :
    windowLaw.Ignores q e := by
  cases e with
  | load | store => exact ⟨.inr ⟨busy, inside⟩, fun _ => rfl⟩
  | delay | publishLink | publishCapabilities | startDatapath | random => exact ⟨busy, fun _ => rfl⟩
  | _ => exact inside.elim

theorem of_bringUp {q : WindowStage} {α : Type} {p : Program α} (busy : q ≠ .idle)
    (only : p.Only bringUpActions) : p.Obeys windowLaw (fun _ after => after = q) q :=
  .of_only only (ignores_bringUp busy) trivial

theorem scan (survey : Survey) (resources : List Resource) :
    (survey.scan resources).Obeys windowLaw
      (fun result after => match result with
        | .ok _ => after = .holding
        | .error _ => after = .searching ∨ after = .without)
      (if survey.mapped then .holding else .searching) := by
  induction resources generalizing survey with
  | nil =>
    simp only [Survey.scan, Survey.conclude]
    split
    · split
      · rfl
      · exact ⟨.inl rfl, fun _ => ⟨fun _ => trivial, .inr rfl⟩⟩
    · split <;> exact .inl rfl
  | cons resource rest ih =>
    cases resource with
    | memory first length =>
      simp only [Survey.scan]
      split
      · rename_i mapped
        simpa only [mapped, if_true] using ih survey
      · split
        · rename_i unmapped _
          simpa only [unmapped, Bool.false_eq_true, if_false] using ih { survey with sawSmallWindow := true }
        · refine ⟨rfl, fun granted => ⟨fun _ => trivial, ?_⟩⟩
          cases granted with
          | false => exact .inr rfl
          | true => exact ih { survey with mapped := true }
    | interrupt vector => exact ih { survey with line := survey.line.or (some vector) }
    | other code => exact ih survey

theorem prepare (config : HostConfig) (resources : List Resource) :
    (Task.prepare config resources).Obeys windowLaw (fun _ => WindowStage.Ends) .searching := by
  unfold Task.prepare Adapter.prepare
  simp only [obeys_bind]
  refine (scan {} resources).mono fun scanned q stage => ?_
  cases scanned with
  | error cause =>
    rcases stage with rfl | rfl
    · exact WindowStage.searching_ends
    · exact WindowStage.without_ends
  | ok line =>
    cases stage
    have kept : (Adapter.bringUp config line).Obeys windowLaw (fun _ after => after = .holding)
        .holding := of_bringUp (by decide) (bringUp_only config line)
    rw [obeys_bind]
    refine kept.reach fun brought => ?_
    cases brought with
    | error cause => exact ⟨.inl rfl, fun _ => ⟨fun _ => trivial, WindowStage.without_ends⟩⟩
    | ok adapter => exact ⟨rfl, fun _ => ⟨fun _ => trivial, WindowStage.lent_ends⟩⟩

theorem release (a : Adapter) :
    (Task.release a).Obeys windowLaw (fun _ => WindowStage.Ends) .leaving := by
  refine ⟨rfl, fun _ => ⟨fun _ => trivial, ?_⟩⟩
  have reset : (softReset a.permanent).Obeys windowLaw (fun _ after => after = .returning)
      .returning :=
    of_bringUp (by decide) ((softReset_only a.permanent).mono bringUpActions_of_reset)
  refine (obeys_bind a.giveBack _).mpr ((obeys_bind _ _).mpr (reset.reach fun result => ?_))
  refine ⟨.inr rfl, fun _ => ⟨fun _ => trivial, ?_⟩⟩
  cases result <;> exact WindowStage.returned_ends

theorem task {m : Machine} {op : Operation} (admitted : Admits m (.operation op)) :
    (op.task m.station.target).Obeys windowLaw (fun _ => windowLaw.ends) (windowLaw.start op) := by
  have service {op : Operation} (inService : op.InService)
      (stage : WindowStage.ofOperation op = .service) :
      (op.task m.station.target).Obeys windowLaw (fun _ => windowLaw.ends) (windowLaw.start op) := by
    rw [start_eq, stage]
    refine (Obeys.of_only (Operation.task_only inService m.station.target) (fun e inside => ?_)
      trivial).reach fun _ => ⟨nofun, nofun, nofun⟩
    cases e with
    | map | unmap | attach | detach => exact inside.elim
    | load | store => exact ⟨.inl rfl, fun _ => rfl⟩
    | acquire | wanted | armed | fault => exact ⟨rfl, fun _ => rfl⟩
    | _ => exact ⟨nofun, fun _ => rfl⟩
  cases op with
  | prepare config resources =>
    rw [admitted.2]
    exact prepare config resources
  | release =>
    obtain ⟨_, a, present⟩ := admitted
    rw [present]
    exact release a
  | read offset =>
    have kept : (load offset).Obeys windowLaw (fun _ after => after = .access) .access :=
      of_bringUp nofun (Only.act admitted)
    cases m.station.target <;>
      exact (obeys_once _ _ _).mpr (kept.reach fun _ => ⟨nofun, nofun, nofun⟩)
  | write offset value =>
    have kept : (store offset value).Obeys windowLaw (fun _ after => after = .access) .access :=
      of_bringUp nofun (Only.act admitted)
    cases m.station.target <;>
      exact (obeys_once _ _ _).mpr (kept.reach fun _ => ⟨nofun, nofun, nofun⟩)
  | _ => exact service trivial rfl

end windowLaw

def Lent (target : Target) (windows : List (Nat × Nat)) : Prop :=
  (target = .noDevice ∧ windows = []) ∨ (∃ a, target = .device a) ∧ ∃ window, windows = [window]

def WindowStage.Fits (target : Target) (windows : List (Nat × Nat)) : WindowStage → Prop
  | .searching | .without | .returned => target = .noDevice ∧ windows = []
  | .holding | .returning => target = .noDevice ∧ ∃ window, windows = [window]
  | .lent | .leaving => (∃ a, target = .device a) ∧ ∃ window, windows = [window]
  | .idle | .access | .service => Lent target windows

namespace WindowStage

variable {q : WindowStage} {target : Target} {windows : List (Nat × Nat)}

theorem Fits.lent (fits : q.Fits target windows) (settled : q ≠ .holding ∧ q ≠ .returning) :
    Lent target windows := by
  cases q with
  | holding | returning => simp at settled
  | searching | without | returned => exact .inl fits
  | lent | leaving => exact .inr fits
  | _ => exact fits

theorem Fits.length_le (fits : q.Fits target windows) : windows.length ≤ 1 := by
  have few (lent : Lent target windows) : windows.length ≤ 1 := by
    rcases lent with ⟨_, rfl⟩ | ⟨_, window, rfl⟩ <;> simp
  cases q with
  | holding | returning =>
    obtain ⟨_, window, rfl⟩ := fits
    exact Nat.le_refl _
  | searching | without | returned => exact few (.inl fits)
  | lent | leaving => exact few (.inr fits)
  | _ => exact few fits

theorem Fits.noDevice (fits : q.Fits target windows) (deviceless : q.Deviceless) :
    target = .noDevice := by
  rcases deviceless with rfl | rfl | rfl | rfl | rfl <;> exact fits.1

theorem Fits.act {history : History} {s after : Station} {op : Operation} {e : Effect}
    {answer : e.Answer} {depth : Nat} (fits : q.Fits s.target (openWindows history))
    (permitted : q.Permits e) (applied : s.apply e = .ok (answer, after)) :
    (q.after e answer).Fits after.target
      (openWindows (.acted depth op e answer :: history)) := by
  rw [(Station.apply_target applied).1]
  cases e with
  | map first length =>
    cases (permitted : q = .searching)
    obtain ⟨none, closed⟩ := fits
    cases answer with
    | true => exact ⟨none, (first, length), congrArg _ closed⟩
    | false => exact ⟨none, closed⟩
  | unmap =>
    rcases permitted with rfl | rfl <;> obtain ⟨none, window, opened⟩ := fits
    · exact ⟨none, congrArg List.tail opened⟩
    · exact ⟨none, congrArg List.tail opened⟩
  | attach adapter =>
    cases (permitted : q = .holding)
    exact ⟨⟨adapter, rfl⟩, fits.2⟩
  | detach =>
    cases (permitted : q = .leaving)
    exact ⟨rfl, fits.2⟩
  | _ => exact fits

theorem Permits.aside {history : History} {s after : Station} {op : Operation} {e : Effect}
    {answer : e.Answer} {depth : Nat} (permitted : q.Permits e)
    (nested : q = .idle ∨ q = .access ∨ q = .service) (applied : s.apply e = .ok (answer, after)) :
    q.after e answer = q ∧ after.target = s.target ∧
      openWindows (.acted depth op e answer :: history) = openWindows history := by
  rw [(Station.apply_target applied).1]
  cases e with
  | map | unmap | attach | detach =>
    rcases nested with rfl | rfl | rfl <;> simp [Permits] at permitted
  | _ => exact ⟨rfl, rfl, rfl⟩

theorem Permits.fault {s : Station} {e : Effect} {cause : Fault} (permitted : q.Permits e)
    (applied : s.apply e = .error cause) : q = .service := by
  rcases Station.apply_error applied with rfl | ⟨_, rfl | rfl | ⟨_, rfl⟩⟩ |
    ⟨_, offset, outside, rfl | ⟨value, rfl⟩⟩
  · exact permitted
  · exact permitted
  · exact permitted
  · exact permitted
  · exact permitted.resolve_right fun inside => outside inside.2
  · exact permitted.resolve_right fun inside => outside inside.2

end WindowStage

/-- The window fits what goes on at top level, and what goes on above that leaves it alone. -/
structure WindowKept (history : History) (s : Station) : Prop where
  fits : (windowLaw.state 0 history).Fits s.target (openWindows history)
  nested : ∀ depth, 0 < depth → windowLaw.state depth history = .idle ∨
    windowLaw.state depth history = .access ∨ windowLaw.state depth history = .service
  alone : (windowLaw.state 0 history).Deviceless →
    ∀ depth, 0 < depth → windowLaw.state depth history ≠ .service

namespace WindowKept

variable {history : History} {s after : Station} {entry : Entry} {q : WindowStage}

theorem surround {step : Step} (n : Nat) (kept : WindowKept history s)
    (surrounds : ∀ op, step ≠ .operation op) :
    WindowKept (.begun n step :: history) (s.meet step) := by
  have same (depth : Nat) : windowLaw.state depth (.begun n step :: history) =
      windowLaw.state depth history := Law.state_surround surrounds
  constructor
  · rw [same, (Station.meet_target step).1]
    exact kept.fits
  · intro depth above
    rw [same]
    exact kept.nested depth above
  · intro deviceless depth above
    rw [same] at deviceless ⊢
    exact kept.alone deviceless depth above

theorem top (kept : WindowKept history s)
    (stage : ∀ depth, windowLaw.state depth (entry :: history) =
      if 0 = depth then q else windowLaw.state depth history)
    (fits : q.Fits after.target (openWindows (entry :: history)))
    (alone : q.Deviceless → ∀ depth, 0 < depth → windowLaw.state depth history ≠ .service) :
    WindowKept (entry :: history) after where
  fits := by
    rw [stage, if_pos rfl]
    exact fits
  nested := by
    intro depth above
    rw [stage, if_neg (by omega)]
    exact kept.nested depth above
  alone := by
    intro deviceless depth above
    rw [stage, if_pos rfl] at deviceless
    rw [stage, if_neg (by omega)]
    exact alone deviceless depth above

theorem bottom (kept : WindowKept history s) {depth : Nat}
    (here : windowLaw.state depth history = q)
    (busy : q ≠ .idle ∧ q ≠ .access ∧ q ≠ .service) : depth = 0 := by
  subst here
  rcases Nat.eq_zero_or_pos depth with bottom | higher
  · exact bottom
  · rcases kept.nested depth higher with same | same | same
    · exact absurd same busy.1
    · exact absurd same busy.2.1
    · exact absurd same busy.2.2

theorem above {n : Nat} (kept : WindowKept history s) (higher : 0 < n)
    (stage : ∀ depth, windowLaw.state depth (entry :: history) =
      if n = depth then q else windowLaw.state depth history)
    (target : after.target = s.target)
    (windows : openWindows (entry :: history) = openWindows history)
    (nested : q = .idle ∨ q = .access ∨ q = .service)
    (alone : q = .service → ¬ (windowLaw.state 0 history).Deviceless) :
    WindowKept (entry :: history) after := by
  have bottom : windowLaw.state 0 (entry :: history) = windowLaw.state 0 history := by
    rw [stage, if_neg (by omega)]
  constructor
  · rw [bottom, target, windows]
    exact kept.fits
  · intro depth higherUp
    rw [stage]
    split
    · exact nested
    · exact kept.nested depth higherUp
  · intro deviceless depth higherUp
    rw [bottom] at deviceless
    rw [stage]
    split
    · exact fun service => alone service deviceless
    · exact kept.alone deviceless depth higherUp

end WindowKept

theorem windowLaw.service_of_calls {depth : Nat} {history : History} {op : Operation}
    (called : calls.state depth history = some op) (service : WindowStage.ofOperation op = .service) :
    windowLaw.state depth history = .service := by
  refine @Law.state_related _ windowLaw _ calls
    (fun q r => ∀ op, r = some op → WindowStage.ofOperation op = .service → q = .service)
    nofun ?_ ?_ depth history op called service
  · rintro _ _ ⟨⟩ service
    exact service
  · intro q r e answer known op called service
    cases known op called service
    cases e <;> rfl

namespace windowLaw

variable {m : Machine} {op : Operation} {windows : List (Nat × Nat)}

theorem Admits.fits (admitted : Admits m (.operation op)) (lent : Lent m.station.target windows) :
    (WindowStage.ofOperation op).Fits m.station.target windows := by
  cases op with
  | prepare config resources =>
    obtain ⟨_, none⟩ := admitted
    rcases lent with closed | ⟨⟨a, present⟩, _⟩
    · exact closed
    · rw [none] at present
      cases present
  | release =>
    obtain ⟨_, a, present⟩ := admitted
    rcases lent with ⟨none, _⟩ | opened
    · rw [none] at present
      cases present
    · exact opened
  | _ => exact lent

/-- An operation above the top level leaves the window alone, and needs a device unless it is an
access to the registers. -/
theorem Admits.nested (admitted : Admits m (.operation op)) (nested : m.stack ≠ []) :
    WindowStage.ofOperation op = .access ∨
      WindowStage.ofOperation op = .service ∧ ∃ a, m.station.target = .device a := by
  cases op with
  | prepare | release => exact absurd admitted.1 nested
  | read | write => exact .inl rfl
  | _ => exact .inr ⟨rfl, admitted⟩

end windowLaw

namespace Run

theorem window_obeyed (m : Machine) (op : Operation)
    (admitted : windowLaw.Admits m (.operation op)) :
    (op.task m.station.target).Obeys windowLaw (fun _ => windowLaw.ends) (windowLaw.start op) :=
  windowLaw.task admitted

variable {start m : Machine} {history : History} (resting : start.stack = [])
  (none : start.station.target = .noDevice)
  (run : Run windowLaw.Admits start history m)

include resting run

theorem window_operate {op : Operation} {below : List Frame}
    (admitted : windowLaw.Admits m (.operation op)) (awaits : Awaits (.operation op) m.stack below)
    (kept : WindowKept history m.station) :
    WindowKept (.begun m.stack.length (.operation op) :: history) m.station := by
  have opening := run.opening resting window_obeyed awaits
  rcases Nat.eq_zero_or_pos m.stack.length with bottom | higher
  · rw [bottom] at opening ⊢
    have lent := kept.fits
    rw [opening.idle] at lent
    refine kept.top (fun _ => Law.state_begun _) (admitted.fits lent) fun _ depth above => ?_
    rw [opening.above depth (Nat.zero_le _)]
    exact nofun
  · have stage := admitted.nested (List.length_pos_iff.mp higher)
    refine kept.above higher (fun _ => Law.state_begun _) rfl rfl
      (.inr (stage.imp_right And.left)) fun service deviceless => ?_
    rcases stage with access | ⟨_, a, present⟩
    · rw [windowLaw.start_eq, access] at service
      cases service
    · rw [kept.fits.noDevice deviceless] at present
      cases present

theorem window_act {op : Operation} {target : Target} {e : Effect} {next : e.Answer → Task}
    {below : List Frame} {answer : e.Answer} {after : Station}
    (top : m.stack = .running op target (.perform e next) :: below)
    (applied : m.station.apply e = .ok (answer, after)) (kept : WindowKept history m.station) :
    WindowKept (.acted below.length op e answer :: history) after := by
  have acting := run.acting resting window_obeyed top
  rcases Nat.eq_zero_or_pos below.length with bottom | higher
  · rw [bottom] at acting ⊢
    refine kept.top (fun depth => ?_) (kept.fits.act acting.permitted applied)
      fun _ depth above => ?_
    · by_cases here : 0 = depth
      · simp [here]
      · simp [here]
    · rw [acting.above depth above]
      exact nofun
  · have nested := kept.nested _ higher
    obtain ⟨stays, same, windows⟩ := WindowStage.Permits.aside acting.permitted nested applied
    refine kept.above higher (fun depth => ?_) same windows nested fun service deviceless =>
      kept.alone deviceless _ higher service
    rw [Law.state_acted]
    split
    · rename_i here
      rw [← here]
      exact stays
    · rfl

theorem window_renew {op : Operation} {target : Target} {below : List Frame}
    (top : m.stack = .running op target (.done .again) :: below)
    (kept : WindowKept history m.station) :
    WindowKept (.renewed below.length op :: history) m.station := by
  cases run.renews resting top
  obtain ⟨called, ends⟩ := run.ending resting window_obeyed top
  rcases Nat.eq_zero_or_pos below.length with bottom | higher
  · rw [bottom] at ends ⊢
    refine kept.top (fun _ => Law.state_renewed _) ?_ nofun
    exact kept.fits.lent ⟨ends.1, ends.2.2⟩
  · refine kept.above higher (fun _ => Law.state_renewed _) rfl rfl (.inr (.inr rfl))
      fun _ deviceless => kept.alone deviceless _ higher ?_
    exact windowLaw.service_of_calls called rfl

theorem window_finish {op : Operation} {target : Target} {answer : Answer} {below : List Frame}
    (top : m.stack = .running op target (.done (.finished answer)) :: below)
    (kept : WindowKept history m.station) :
    WindowKept (.ended below.length op answer :: history) m.station := by
  obtain ⟨_, ends⟩ := run.ending resting window_obeyed top
  rcases Nat.eq_zero_or_pos below.length with bottom | higher
  · rw [bottom] at ends ⊢
    refine kept.top (fun _ => Law.state_ended _ _) ?_ nofun
    exact kept.fits.lent ⟨ends.1, ends.2.2⟩
  · exact kept.above higher (fun _ => Law.state_ended _ _) rfl rfl (.inl rfl) nofun

/-- Preparations and releases cannot fail to get an answer, so it is a service that unwinds. -/
theorem window_abort {op : Operation} {target : Target} {e : Effect} {next : e.Answer → Task}
    {below : List Frame} {cause : Fault}
    (top : m.stack = .running op target (.perform e next) :: below)
    (applied : m.station.apply e = .error cause) (kept : WindowKept history m.station) :
    WindowKept (.faulted cause :: history) m.station.unlocked := by
  have acting := run.acting resting window_obeyed top
  have failed := WindowStage.Permits.fault acting.permitted applied
  have present : ¬ (windowLaw.state 0 history).Deviceless := by
    intro deviceless
    rcases Nat.eq_zero_or_pos below.length with bottom | higher
    · rw [bottom] at failed
      rw [failed] at deviceless
      exact absurd deviceless (by decide)
    · exact kept.alone deviceless _ higher failed
  have lent : Lent m.station.target (openWindows history) :=
    kept.fits.lent ⟨fun same => present (same ▸ by decide), fun same => present (same ▸ by decide)⟩
  exact ⟨lent, fun _ _ => .inl rfl, fun _ _ _ => nofun⟩

include none

theorem window_kept : WindowKept history m.station := by
  refine Run.account (P := WindowKept) ?initial ?blind ?surround ?operate ?act ?renew ?finish ?abort
    run
  case initial => exact ⟨.inl ⟨none, rfl⟩, fun _ _ => .inl rfl, fun _ _ _ => nofun⟩
  case blind => exact fun _ kept => ⟨kept.fits, kept.nested, kept.alone⟩
  case surround => exact fun _ _ _ surrounds kept => kept.surround _ surrounds
  case operate => exact fun run admitted awaits kept => run.window_operate resting admitted awaits kept
  case act => exact fun run top applied kept => run.window_act resting top applied kept
  case renew => exact fun run top kept => run.window_renew resting top kept
  case finish => exact fun run top kept => run.window_finish resting top kept
  case abort => exact fun run top applied kept => run.window_abort resting top applied kept

end Run

theorem windowLaw.state_calls (depth : Nat) (history : History) :
    ((windowLaw.state depth history = .searching ∨ windowLaw.state depth history = .holding) →
      ∃ config resources, calls.state depth history = some (.prepare config resources)) ∧
    ((windowLaw.state depth history = .leaving ∨ windowLaw.state depth history = .returning) →
      calls.state depth history = some .release) := by
  refine @Law.state_related _ windowLaw _ calls
    (fun q r => ((q = .searching ∨ q = .holding) →
      ∃ config resources, r = some (.prepare config resources)) ∧
      ((q = .leaving ∨ q = .returning) → r = some .release)) ⟨nofun, nofun⟩ ?_ ?_ depth history
  · intro op
    cases op <;> simp [WindowStage.ofOperation]
  · intro q r e answer known
    cases e with
    | map => cases q <;> cases answer <;> simp_all [WindowStage.after]
    | unmap | attach | detach => cases q <;> simp_all [WindowStage.after]
    | _ => exact known

def windowLaw.Begun : Operation → Target → Prop
  | .prepare _ _, target => target = .noDevice
  | .release, target => ∃ a, target = .device a
  | _, _ => True

theorem windowLaw.begun (m : Machine) (op : Operation) (admitted : Admits m (.operation op)) :
    Begun op m.station.target := by
  cases op <;> first | exact admitted.2 | trivial

/-- A release resets the device and gives the window back, in time or not. -/
theorem release_course {a : Adapter} {deeds : List Deed} {answer : Answer}
    (course : (Task.release a).Course deeds (.finished answer)) :
    ∃ main, deeds = ⟨.detach, ()⟩ :: main ++ [⟨.unmap, ()⟩] ∧
      (∀ deed ∈ main, resetActions deed.effect) ∧
      (answer = .ok ∨ answer = .failed (.io .timeout)) := by
  obtain ⟨_, rest, rfl, course⟩ := course
  obtain ⟨_, result, _, rfl, gave, rfl, same⟩ := (course_bind a.giveBack _ _).mp course
  cases same
  obtain ⟨main, reset, _, rfl, resets, gave⟩ := (course_bind (softReset a.permanent) _ _).mp gave
  obtain ⟨_, _, rfl, gave⟩ := gave
  have resetting := (softReset_only a.permanent).course resets
  cases reset with
  | ok polls =>
    obtain ⟨rfl, rfl⟩ := gave
    exact ⟨main, by simp, resetting, .inl rfl⟩
  | error cause =>
    obtain ⟨rfl, rfl⟩ := gave
    obtain ⟨_, _, rfl, awaited⟩ := resets
    obtain ⟨_, ⟨⟨⟩, _⟩ | ⟨⟨_, ⟨⟩⟩, _⟩⟩ := await_course awaited
    exact ⟨_, by simp, resetting, .inr rfl⟩

/-- What a run does with the register window. -/
structure WindowsBalanced (history : History) (m : Machine) : Prop where
  /-- Between calls, and in the middle of a device operation, one window is mapped if there is a
  device, and none otherwise. -/
  rest : m.stack = [] → Lent m.station.target (openWindows history)
  service : (∀ op, calls.state 0 history = some op → op.InService) →
    Lent m.station.target (openWindows history)
  atMostOne : (openWindows history).length ≤ 1
  mapped : ∀ later depth op first length granted earlier,
    history = later ++ .acted depth op (.map first length) granted :: earlier →
      (∃ config resources, op = .prepare config resources) ∧ openWindows earlier = []
  unmapped : ∀ later depth op earlier, history = later ++ .acted depth op .unmap () :: earlier →
    ¬ op.InService ∧ ∃ window, openWindows earlier = [window]
  /-- A preparation maps once at most, and gives its window back, last of all, if it fails. -/
  prepared : ∀ later depth config resources answer earlier,
    history = later ++ .ended depth (.prepare config resources) answer :: earlier →
      ∃ deeds, trail.state depth earlier = some (.prepare config resources, deeds) ∧
        ((∃ cause, answer = .failed cause ∧ PrepareEnds deeds (.error cause)) ∨
          ∃ main adapter, answer = .ok ∧ deeds = main ++ [⟨.attach adapter, ()⟩] ∧
            PrepareEnds main (.ok adapter))
  released : ∀ later depth answer earlier,
    history = later ++ .ended depth .release answer :: earlier →
      ∃ main, trail.state depth earlier =
          some (.release, ⟨.detach, ()⟩ :: main ++ [⟨.unmap, ()⟩]) ∧
        (∀ deed ∈ main, resetActions deed.effect) ∧
        (answer = .ok ∨ answer = .failed (.io .timeout))

namespace Run

variable {start m : Machine} {history : History}

/-- The window belongs to the device as long as there is one, and to nobody otherwise. -/
theorem window_balanced (resting : start.stack = []) (none : start.station.target = .noDevice)
    (run : Run windowLaw.Admits start history m) : WindowsBalanced history m := by
  have kept := run.window_kept resting none
  constructor
  case rest =>
    intro idle
    obtain ⟨_, empty⟩ := run.governs resting window_obeyed
    have fits := kept.fits
    rw [(empty 0 (by simp [idle])).1] at fits
    exact fits
  case service =>
    intro service
    refine kept.fits.lent ⟨fun holding => ?_, fun returning => ?_⟩
    · obtain ⟨config, resources, called⟩ := (windowLaw.state_calls 0 history).1 (.inr holding)
      exact service _ called
    · exact service _ ((windowLaw.state_calls 0 history).2 (.inr returning))
  case atMostOne => exact kept.fits.length_le
  case mapped =>
    rintro later depth op first length granted earlier rfl
    obtain ⟨before, target, next, below, after, reached, top, rfl, _⟩ := run.acted
    have acting := reached.acting resting window_obeyed top
    have searching : windowLaw.state below.length earlier = .searching := acting.permitted
    obtain ⟨config, resources, called⟩ := (windowLaw.state_calls _ _).1 (.inl searching)
    rw [acting.called] at called
    have kept := reached.window_kept resting none
    have bottom := kept.bottom searching ⟨nofun, nofun, nofun⟩
    have fits := kept.fits
    rw [← bottom, searching] at fits
    exact ⟨⟨config, resources, Option.some.inj called⟩, fits.2⟩
  case unmapped =>
    rintro later depth op earlier rfl
    obtain ⟨before, target, next, below, after, reached, top, rfl, _⟩ := run.acted
    have acting := reached.acting resting window_obeyed top
    have stood := reached.window_kept resting none
    have fits := stood.fits
    rcases acting.permitted with holding | returning
    · obtain ⟨config, resources, called⟩ := (windowLaw.state_calls _ _).1 (.inr holding)
      rw [acting.called] at called
      cases called
      rw [← stood.bottom holding ⟨nofun, nofun, nofun⟩, holding] at fits
      exact ⟨id, fits.2⟩
    · have called := (windowLaw.state_calls _ _).2 (.inr returning)
      rw [acting.called] at called
      cases called
      rw [← stood.bottom returning ⟨nofun, nofun, nofun⟩, returning] at fits
      exact ⟨id, fits.2⟩
  case prepared =>
    rintro later depth config resources answer earlier rfl
    obtain ⟨target, deeds, begun, followed, course⟩ :=
      run.ended windowLaw.Begun resting windowLaw.begun
    cases begun
    obtain ⟨main, result, rest, rfl, prepares, course⟩ := (course_bind _ _ _).mp course
    have ends := Adapter.prepare_ends prepares
    refine ⟨_, followed, ?_⟩
    cases result with
    | error cause =>
      obtain ⟨rfl, same⟩ := course
      cases same
      exact .inl ⟨cause, rfl, by rwa [List.append_nil]⟩
    | ok adapter =>
      obtain ⟨_, _, rfl, rfl, same⟩ := course
      cases same
      exact .inr ⟨main, adapter, rfl, rfl, ends⟩
  case released =>
    rintro later depth answer earlier rfl
    obtain ⟨target, deeds, begun, followed, course⟩ :=
      run.ended windowLaw.Begun resting windowLaw.begun
    obtain ⟨a, rfl⟩ := begun
    obtain ⟨main, rfl, resets, answered⟩ := release_course course
    exact ⟨main, followed, resets, answered⟩

def servedHardware : Machine where
  station :=
    { registers := { cell := fun offset => if offset = Register.macVersion then 0x5251 else 0 }
      target := .noDevice }

theorem window_balanced_servedHardware :
    ∃ (prepared released : History) (m n : Machine),
      m.stack = [] ∧ openWindows prepared = [(0xA0000000, windowSize)] ∧
        WindowsBalanced prepared m ∧
      n.stack = [] ∧ openWindows released = [] ∧ WindowsBalanced released n := by
  have begun : Run windowLaw.Admits servedHardware _ (servedHardware.begin
      (.operation (.prepare {} [.memory 0xA0000000 windowSize, .interrupt 40]))) :=
    Run.refl.begin rfl ⟨rfl, rfl⟩
  have prepared := begun.advances 60 ⟨rfl, by rintro _ (_ | ⟨_, ⟨⟩⟩) _ ⟨⟩⟩
  have called := @Run.begin _ _ _ _ (.operation .release) prepared rfl ⟨rfl, _, rfl⟩
  have released := called.advances 20 ⟨rfl, by rintro _ (_ | ⟨_, ⟨⟩⟩) _ ⟨⟩⟩
  exact ⟨_, _, _, _, rfl, by rfl, prepared.window_balanced rfl rfl, rfl, by rfl,
    released.window_balanced rfl rfl⟩

end Run

end EthernetMac
