import EthernetMac.Proofs.Adapter.Window
import EthernetMac.Proofs.Address.Table

namespace EthernetMac

open Program

theorem writes_outwards (deeds : List Deed) : writes (outwards deeds) = writes deeds := by
  induction deeds with
  | nil => rfl
  | cons deed deeds ih =>
    obtain ⟨e, answer⟩ := deed
    rw [writes_cons _ deeds, ← ih, ← writes_append]
    cases e <;> rfl

theorem Program.Only.outwards {α : Type} {p : Program α} {deeds : List Deed} {result : α}
    (only : p.Only fun e => e.outward = false) (course : p.Course deeds result) :
    outwards deeds = [] :=
  outwards_eq_nil (only.course course)

theorem surveyActions.inward (e : Effect) (survey : surveyActions e) : e.outward = false := by
  cases e <;> first | rfl | exact survey.elim

/-- A reset that is in time has written its station address, and nothing else; another one, nothing
at all. -/
theorem await_outwards {station : MacAddress} {used left : Nat} {deeds : List Deed}
    {result : Except IoError Nat} (course : (Reset.await station used left).Course deeds result) :
    (result = .error .timeout ∧ outwards deeds = []) ∨
      (∃ polls, result = .ok polls) ∧ outwards deeds = slotDeeds 0 station true := by
  induction left generalizing used deeds with
  | zero =>
    obtain ⟨rfl, rfl⟩ := course
    exact .inl ⟨rfl, rfl⟩
  | succ left ih =>
    obtain ⟨_, _, rfl, mode, rest, rfl, course⟩ := course
    change (if DmaMode.softwareReset.test mode then Reset.await station (used + 1) left
      else do writeSlot 0 station true; return .ok (used + 1)).Course rest result at course
    have quiet : outwards (⟨.delay Reset.pollInterval, ()⟩ :: ⟨.load Register.dmaMode, mode⟩ :: rest) =
        outwards rest := rfl
    rw [quiet]
    split at course
    · exact ih course
    · obtain ⟨wrote, _, _, rfl, write, rfl, rfl⟩ := (course_bind _ _ _).mp course
      rw [writeSlot_course (by decide) write]
      exact .inr ⟨⟨_, rfl⟩, rfl⟩

def Bus.settings (mode channel : Word) : List Deed :=
  [⟨.store Register.dmaSystemBus (Bus.mode mode), ()⟩,
    ⟨.store Register.macMicrosecondTick Bus.tick, ()⟩,
    ⟨.store Register.channelControl (Bus.channel channel), ()⟩,
    ⟨.store Register.mmcControl Bus.resetCounters, ()⟩]

theorem configure_outwards {deeds : List Deed} {result : Unit}
    (course : Bus.configure.Course deeds result) :
    ∃ mode channel, outwards deeds = Bus.settings mode channel := by
  obtain ⟨mode, _, rfl, _, _, rfl, _, _, rfl, channel, _, rfl, _, _, rfl, _, _, rfl, rfl, _⟩ := course
  exact ⟨mode, channel, rfl⟩

/-- A list of resources is not to blame for the datapath. -/
theorem Survey.scan_refusal {survey : Survey} {resources : List Resource} {deeds : List Deed}
    {cause : ConfigError} (course : (survey.scan resources).Course deeds (.error cause)) :
    cause ≠ .datapathStartFailed := by
  induction resources generalizing survey deeds with
  | nil =>
    simp only [scan, conclude] at course
    split at course
    · split at course
      · cases course.2
      · obtain ⟨_, _, _, _, ⟨⟩⟩ := course
        rintro ⟨⟩
    · split at course <;> cases course.2 <;> rintro ⟨⟩
  | cons resource rest ih =>
    cases resource with
    | memory first length =>
      simp only [scan] at course
      split at course
      · exact ih course
      · split at course
        · exact ih course
        · obtain ⟨accepted, _, _, course⟩ := course
          cases accepted with
          | true => exact ih course
          | false =>
            cases course.2
            rintro ⟨⟩
    | interrupt | other => exact ih course

namespace Adapter

def Chosen (requested : Option LinkLayerAddress) (permanent current : MacAddress) : Prop :=
  ∃ deeds, (selectCurrent requested permanent).Course deeds current

/-- What a preparation shows outside, and what it has read from the first slot by then. -/
inductive Shows (config : HostConfig) : List Deed → Except Error Adapter → Prop where
  | early {deeds : List Deed} {cause : Error} (other : cause ≠ .config .datapathStartFailed)
      (shown : outwards deeds = [] ∨
        ∃ capabilities, outwards deeds = announcement capabilities) :
      Shows config deeds (.error cause)
  | addressed {before later : List Deed} {high low : Word} {line : Nat} {features : Features}
      {dma : DmaCapability} {current : MacAddress} {mode channel : Word} {started : Bool}
      {result : Except Error Adapter} (silent : outwards before = [])
      (chosen : Chosen config.address (.ofWords high low) current)
      (shown : outwards later =
        announcement (.ofFeatures features dma (.ofWords high low) current) ++
          slotDeeds 0 current true ++ Bus.settings mode channel ++ [⟨.startDatapath, started⟩])
      (ends : result = if started then .ok ⟨line, features, dma, .ofWords high low, current⟩
        else .error (.config .datapathStartFailed)) :
      Shows config (before ++ ⟨.load (Register.addressHigh 0), high⟩ ::
        ⟨.load (Register.addressLow 0), low⟩ :: later) result

theorem Features.supported_ne {f : Features} {cause : ConfigError}
    (checked : f.supported = .error cause) : cause ≠ .datapathStartFailed := by
  rcases f.supported_cases with ⟨_, same⟩ | ⟨_, _, same⟩ | ⟨_, _, _, same⟩ <;>
    rw [checked] at same <;> cases same <;> exact nofun

theorem bringUp_shows {config : HostConfig} {line : Nat} {deeds : List Deed}
    {result : Except Error Adapter} (course : (bringUp config line).Course deeds result) :
    Shows config deeds result := by
  unfold bringUp at course
  rw [course_bind] at course
  obtain ⟨_, permanent, _, rfl, ⟨high, _, rfl, low, _, rfl, rfl, rfl⟩, course⟩ := course
  rw [course_bind] at course
  obtain ⟨choice, current, _, rfl, chosen, course⟩ := course
  rw [course_bind] at course
  obtain ⟨survey, features, rest, rfl, read, course⟩ := course
  have asked : outwards choice = [] :=
    ((selectCurrent_only _ _).mono surveyActions.inward).outwards chosen
  have surveyed : outwards survey = [] := (readFeatures_only.mono surveyActions.inward).outwards read
  have quiet (rest : List Deed) : outwards (choice ++ (survey ++ rest)) = outwards rest := by
    rw [outwards_append, outwards_append, asked, surveyed]
    rfl
  cases checked : features.supported with
  | error cause =>
    rw [checked] at course
    obtain ⟨rfl, rfl⟩ := course
    refine .early ?_ (.inl (quiet []))
    rintro ⟨rfl⟩
    exact Features.supported_ne checked rfl
  | ok dma =>
    rw [checked] at course
    obtain ⟨_, _, rfl, _, _, rfl, course⟩ := course
    replace course := (course_bind (softReset current) _ _).mp course
    obtain ⟨_, reset, rest, rfl, ⟨_, polling, rfl, awaited⟩, course⟩ := course
    have announced (rest : List Deed) : outwards
        (⟨.publishCapabilities (.ofFeatures features dma (.ofWords high low) current), ()⟩ ::
          ⟨.publishLink .disconnected, ()⟩ ::
          ⟨.store Register.dmaMode (DmaMode.softwareReset.assign true 0), ()⟩ :: rest) =
        announcement (.ofFeatures features dma (.ofWords high low) current) ++ outwards rest := rfl
    rcases await_outwards awaited with ⟨rfl, silent⟩ | ⟨⟨polls, rfl⟩, addressed⟩
    · obtain ⟨rfl, rfl⟩ := course
      refine .early nofun (.inr ⟨.ofFeatures features dma (.ofWords high low) current, ?_⟩)
      refine (quiet _).trans ?_
      rw [List.append_nil, announced, silent, List.append_nil]
    · replace course := (course_bind Bus.configure _ _).mp course
      obtain ⟨settings, _, _, rfl, set, started, last, rfl, course⟩ := course
      obtain ⟨mode, channel, configured⟩ := configure_outwards set
      obtain ⟨rfl, ends⟩ : last = [] ∧ result =
          if started then .ok ⟨line, features, dma, .ofWords high low, current⟩
          else .error (.config .datapathStartFailed) := by
        cases started <;> exact course
      refine @Shows.addressed config [] _ high low line features dma current mode channel started _
        rfl ⟨choice, chosen⟩ ?_ ends
      refine (quiet _).trans ?_
      rw [List.cons_append, announced, outwards_append, outwards_append, addressed, configured]
      simp only [List.append_assoc]
      rfl

theorem mem_outwards {deed : Deed} {deeds : List Deed} (outward : deed.effect.outward = true) :
    deed ∈ outwards deeds ↔ deed ∈ deeds :=
  List.mem_filter.trans (and_iff_left outward)

theorem Shows.published {config : HostConfig} {deeds : List Deed} {a : Adapter}
    {capabilities : Capabilities} (shows' : Shows config deeds (.ok a))
    (member : (⟨.publishCapabilities capabilities, ()⟩ : Deed) ∈ deeds) :
    capabilities = .ofFeatures a.features a.dma a.permanent a.current := by
  cases shows' with
  | @addressed before later high low _ features dma current _ _ started _ silent _ shown ends =>
    rw [← mem_outwards rfl, outwards_append, silent, List.nil_append] at member
    change _ ∈ outwards later at member
    rw [shown] at member
    cases started with
    | false => cases ends
    | true =>
      cases ends
      simpa [announcement, slotDeeds, Bus.settings] using member

theorem Shows.framed {config : HostConfig} {before deeds after : List Deed}
    {result : Except Error Adapter} (shows' : Shows config deeds result)
    (first : outwards before = []) (last : outwards after = []) :
    Shows config (before ++ deeds ++ after) result := by
  have whole (deeds : List Deed) : outwards (before ++ deeds ++ after) = outwards deeds := by
    rw [outwards_append, outwards_append, first, last, List.append_nil, List.nil_append]
  cases shows' with
  | early other shown => exact .early other (by rwa [whole])
  | @addressed earlier later _ _ _ _ _ _ _ _ _ _ silent chosen shown ends =>
    have parts : Shows config ((before ++ earlier) ++ _ :: _ :: (later ++ after)) result :=
      .addressed (by rw [outwards_append, first, silent, List.append_nil]) chosen
        (by rw [outwards_append, last, List.append_nil, shown]) ends
    simpa only [List.append_assoc, List.cons_append] using parts

theorem prepare_shows {config : HostConfig} {resources : List Resource} {deeds : List Deed}
    {result : Except Error Adapter} (course : (prepare config resources).Course deeds result) :
    Shows config deeds result := by
  unfold prepare at course
  rw [course_bind] at course
  obtain ⟨scan, scanned, rest, rfl, found, course⟩ := course
  have silent : outwards scan = [] := by
    rcases Survey.scan_ends found with ⟨⟨⟩, _⟩ | ⟨_, ⟨rfl, _⟩ | ⟨first, ⟨rfl, _⟩ | ⟨rfl, _⟩ | ⟨rfl, _⟩⟩⟩ <;>
      rfl
  cases scanned with
  | error cause =>
    obtain ⟨rfl, rfl⟩ := course
    refine .early ?_ (.inl (by rw [List.append_nil, silent]))
    rintro ⟨rfl⟩
    exact Survey.scan_refusal found rfl
  | ok line =>
    replace course := (course_bind (bringUp config line) _ _).mp course
    obtain ⟨main, brought, last, rfl, up, course⟩ := course
    cases brought with
    | error cause =>
      obtain ⟨_, _, rfl, rfl, rfl⟩ := course
      have framed : Shows config (scan ++ main ++ [⟨.unmap, ()⟩]) (.error cause) :=
        (bringUp_shows up).framed silent rfl
      simpa using framed
    | ok adapter =>
      obtain ⟨rfl, rfl⟩ := course
      have framed : Shows config (scan ++ main ++ []) (.ok adapter) :=
        (bringUp_shows up).framed silent rfl
      simpa using framed

end Adapter

/-- A preparation attaches what it brought up, last of all. -/
theorem prepare_attaches {config : HostConfig} {resources : List Resource} {deeds : List Deed}
    {answer : Answer} (course : (Task.prepare config resources).Course deeds (.finished answer)) :
    (∃ cause, answer = .failed cause ∧ Adapter.Shows config deeds (.error cause)) ∨
      ∃ main adapter, answer = .ok ∧ deeds = main ++ [⟨.attach adapter, ()⟩] ∧
        Adapter.Shows config main (.ok adapter) := by
  obtain ⟨main, result, rest, rfl, prepares, course⟩ := (course_bind _ _ _).mp course
  have shown := Adapter.prepare_shows prepares
  cases result with
  | error cause =>
    obtain ⟨rfl, same⟩ := course
    cases same
    exact .inl ⟨cause, rfl, by rwa [List.append_nil]⟩
  | ok adapter =>
    obtain ⟨_, _, rfl, rfl, same⟩ := course
    cases same
    exact .inr ⟨main, adapter, rfl, rfl, shown⟩

theorem release_outwards {a : Adapter} {deeds : List Deed}
    (course : (Task.release a).Course deeds (.finished .ok)) :
    outwards deeds = ⟨.store Register.dmaMode (DmaMode.softwareReset.assign true 0), ()⟩ ::
      slotDeeds 0 a.permanent true := by
  obtain ⟨_, rest, rfl, course⟩ := course
  obtain ⟨_, result, _, rfl, gave, rfl, same⟩ := (course_bind a.giveBack _ _).mp course
  obtain ⟨main, reset, _, rfl, resets, last⟩ := (course_bind (softReset a.permanent) _ _).mp gave
  obtain ⟨_, polling, rfl, awaited⟩ := resets
  obtain ⟨_, _, rfl, last⟩ := last
  rcases await_outwards awaited with ⟨rfl, _⟩ | ⟨⟨polls, rfl⟩, addressed⟩
  · obtain ⟨_, rfl⟩ := last
    cases same
  · obtain ⟨rfl, _⟩ := last
    have quiet : outwards (polling ++ [⟨.unmap, ()⟩]) = slotDeeds 0 a.permanent true := by
      rw [outwards_append, addressed]
      rfl
    rw [← quiet, List.append_nil]
    rfl

end EthernetMac
