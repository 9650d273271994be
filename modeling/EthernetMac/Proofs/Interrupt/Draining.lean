import EthernetMac.Proofs.Interrupt.Handled
import EthernetMac.Proofs.Rest

/-! How often a worker is handed the pending word. It stops at the first empty one, and what it finds
besides was there when it began or was merged by a handler that answers, before the worker looks
again, that it had been meant. -/

namespace EthernetMac

open Program

def Entry.handed? (depth : Nat) : Entry → Option Word
  | .acted d _ .drain word => if d = depth then some word else none
  | _ => none

def handed (depth : Nat) (history : History) : List Word :=
  history.filterMap (Entry.handed? depth)

def answered (history : History) : Nat := (handlerAnswers history).count true

structure Drainer where
  call : Option Operation := none
  word : Option Word := none
  merged : Bool := false

namespace Drainer

def Permits (q : Drainer) : Effect → Prop
  | .drain => q.call = some .deferred ∧ q.word = none
  | .merge _ => q.call = some .interrupt
  | _ => True

def after (q : Drainer) : (e : Effect) → e.Answer → Drainer
  | .drain, word => { q with word := some word }
  | .merge _, _ => { q with merged := true }
  | _, _ => q

structure Settles (op : Operation) (round : Round Answer) (q : Drainer) : Prop where
  again : op = .deferred → round = .again → ∃ word, word ≠ 0 ∧ q.word = some word
  returned : op = .deferred → round = .finished .ok → q.word = some 0
  merged : q.merged = true → op = .interrupt ∧ round = .finished (.truth true)

end Drainer

def drainLaw : Law Drainer where
  idle := {}
  start op := { call := some op }
  permits := Drainer.Permits
  after := Drainer.after

namespace drainLaw

@[simp] theorem idle_eq : drainLaw.idle = {} := rfl

@[simp] theorem start_eq (op : Operation) : drainLaw.start op = { call := some op } := rfl

@[simp] theorem after_eq : drainLaw.after = Drainer.after := rfl

theorem call_eq (depth : Nat) (history : History) :
    (drainLaw.state depth history).call = calls.state depth history := by
  refine Law.state_map Drainer.call rfl (fun _ => rfl) ?_ depth history
  intro q e answer
  cases e <;> rfl

def Aside : Effect → Prop
  | .drain | .merge _ => False
  | _ => True

theorem of_aside {q : Drainer} {α : Type} {p : Program α} (only : p.Only Aside) :
    p.Obeys drainLaw (fun _ after => after = q) q := by
  refine .of_only only (fun e aside => ?_) trivial
  cases e <;> first | exact aside.elim | exact ⟨trivial, fun _ => rfl⟩

theorem handle : Interrupt.handle.Obeys drainLaw (fun found q => q.merged = true → found = true)
    { call := some .interrupt } := by
  have quiet {α : Type} {p : Program α} (only : p.Only Aside) :
      p.Obeys drainLaw (fun _ after => after = { call := some .interrupt })
        { call := some .interrupt } :=
    of_aside only
  have read (offset : Nat) : (load offset).Obeys drainLaw
      (fun _ after => after = { call := some .interrupt }) { call := some .interrupt } :=
    quiet (Only.act (e := .load offset) trivial)
  unfold Interrupt.handle
  refine (read _).seq fun mac => (read _).seq fun channel => ?_
  rw [obeys_ite]
  constructor
  · intro _
    exact (quiet (Only.act (e := .count .ignored) trivial)).seq fun _ => nofun
  · intro _
    refine (quiet (.onlyIf ((Only.act trivial).bind fun _ => .pure ()))).seq fun _ => ?_
    refine (quiet (.onlyIf (.store trivial))).seq fun _ => ?_
    refine ⟨rfl, fun _ => ⟨nofun, ?_⟩⟩
    exact (of_aside (p := act .schedule) (.act trivial)).seq fun _ =>
      (of_aside (p := act (.count .handled)) (.act trivial)).seq fun _ _ => rfl

theorem deferred {linkChange : Program Unit}
    (either : linkChange = act .linkChanged ∨ linkChange = discard refreshLink) :
    (Task.deferred linkChange).Obeys drainLaw (Drainer.Settles .deferred)
      { call := some .deferred } := by
  have serve (causes : Causes) : (Interrupt.serve linkChange causes).Only Aside := by
    refine Interrupt.serve_obeys either (fun e inside => ⟨?_, fun _ => rfl⟩) trivial
      (Only.onlyIf ((Interrupt.serveQueues_only causes).mono fun e inside => ?_))
    · cases e <;> first | exact inside.elim | trivial
    · cases e <;> first | exact inside.elim | trivial
  unfold Task.deferred Interrupt.work
  rw [obeys_bind]
  refine ⟨⟨rfl, rfl⟩, fun word => ⟨nofun, ?_⟩⟩
  change Obeys drainLaw _ (if word = 0 then _ else _) ⟨some .deferred, some word, false⟩
  rw [obeys_ite]
  constructor
  · rintro rfl
    exact ⟨fun _ => nofun, fun _ _ => rfl, nofun⟩
  · intro nonzero
    exact (of_aside (serve _)).seq fun _ =>
      ⟨fun _ _ => ⟨word, nonzero, rfl⟩, fun _ => nofun, nofun⟩

theorem task (op : Operation) (target : Target) :
    (op.task target).Obeys drainLaw (Drainer.Settles op) (drainLaw.start op) := by
  have aside (other : op ≠ .deferred) (only : (op.task target).Only Aside) :
      (op.task target).Obeys drainLaw (Drainer.Settles op) (drainLaw.start op) :=
    (of_aside only).reach fun _ => ⟨fun worker => absurd worker other,
      fun worker => absurd worker other, nofun⟩
  have adapter (e : Effect) (inside : adapterActions e) : Aside e := by
    cases e <;> first | exact inside.elim | trivial
  cases op with
  | interrupt =>
    cases target with
    | noDevice => exact ⟨nofun, nofun, nofun⟩
    | interrupts | device =>
      exact (obeys_once ..).mpr (handle.mono fun found q known =>
        ⟨nofun, nofun, fun merged => ⟨rfl, by rw [known merged]⟩⟩)
  | deferred =>
    cases target with
    | noDevice => exact ⟨fun _ => nofun, fun _ => nofun, nofun⟩
    | interrupts => exact deferred (.inl rfl)
    | device => exact deferred (.inr rfl)
  | prepare config resources =>
    refine aside nofun ?_
    cases target with
    | noDevice => exact (prepare_only config resources).mono adapter
    | interrupts | device => exact .pure _
  | release =>
    refine aside nofun ?_
    cases target with
    | device a => exact (release_only a).mono adapter
    | noDevice | interrupts => exact .pure _
  | _ =>
    refine aside nofun ((Operation.task_only (by trivial) target).mono fun e inside => ?_)
    cases e with
    | drain | merge => cases inside
    | _ => trivial

end drainLaw

/-- Between two drains the pending word is filled by merges only. -/
theorem Station.apply_pending {s after : Station} {e : Effect} {answer : e.Answer}
    (applied : s.apply e = .ok (answer, after)) (other : ∀ causes, e ≠ .merge causes)
    (empty : s.interrupt.pending.word = 0) : after.interrupt.pending.word = 0 := by
  rw [apply_interrupt applied]
  cases e with
  | merge causes => exact absurd rfl (other causes)
  | drain | attach => rfl
  | _ => exact empty

theorem handed_cons (depth : Nat) (entry : Entry) (inner : History) :
    handed depth (entry :: inner) = (entry.handed? depth).toList ++ handed depth inner := by
  unfold handed
  rw [List.filterMap_cons]
  cases entry.handed? depth <;> rfl

theorem answered_cons (entry : Entry) (inner : History) :
    answered (entry :: inner) =
      answered inner + if entry.handlerAnswer? = some true then 1 else 0 := by
  unfold answered handlerAnswers
  rw [List.filterMap_cons]
  cases entry.handlerAnswer? with
  | none => rfl
  | some answer => cases answer <;> simp

/-- Nothing is pending that no answer will account for: what was merged, its handler has still to
answer for. -/
def Covered (depth : Nat) (history : History) (s : Station) : Prop :=
  s.interrupt.pending.word = 0 ∨ ∃ d, depth < d ∧ (drainLaw.state d history).merged = true

structure Working (depth : Nat) (inner history : History) (s : Station) : Prop where
  called : calls.state depth history = some .deferred
  nested : ∀ d op, depth < d → calls.state d history = some op →
    .operation op ∈ inner.filterMap Entry.begun?
  rounds : ∃ words, handed depth inner = (drainLaw.state depth history).word.toList ++ words ∧
    ∀ word ∈ words, word ≠ 0
  /-- At most one word more than handlers have answered for, and then nothing is left to be found. -/
  few : (handed depth inner).countP (· ≠ 0) ≤ answered inner ∨
    (handed depth inner).countP (· ≠ 0) = answered inner + 1 ∧ Covered depth history s
  heard : answered inner ≠ 0 → .operation .interrupt ∈ inner.filterMap Entry.begun?

namespace Working

variable {depth n : Nat} {inner history : History} {s after : Station} {op : Operation}

theorem le (working : Working depth inner history s) :
    (handed depth inner).countP (· ≠ 0) ≤ answered inner + 1 := by
  have few := working.few
  omega

/-- The empty word is handed once at most, as the worker stops there. -/
theorem length_le (working : Working depth inner history s) :
    (handed depth inner).length ≤ answered inner + 2 := by
  obtain ⟨words, rounds, nonzero⟩ := working.rounds
  generalize (drainLaw.state depth history).word = last at rounds
  have once : last.toList.length ≤ 1 := by cases last <;> simp
  have counted : words.countP (· ≠ 0) = words.length :=
    List.countP_eq_length.mpr fun word member => decide_eq_true (nonzero word member)
  calc (handed depth inner).length
    _ = last.toList.length + words.length := by rw [rounds, List.length_append]
    _ ≤ 1 + words.countP (· ≠ 0) := by omega
    _ ≤ 1 + (handed depth inner).countP (· ≠ 0) := by
      rw [rounds, List.countP_append]
      omega
    _ ≤ answered inner + 2 := by
      have served := working.le
      omega

theorem depth_le (working : Working depth inner history s)
    (vacant : ∀ d, n < d → calls.state d history = none) : depth ≤ n := by
  refine Nat.le_of_not_lt fun lower => ?_
  cases working.called.symm.trans (vacant depth lower)

theorem begins (depth : Nat) (history : History) (s : Station) (vacant : ∀ d, depth < d →
      calls.state d history = none) :
    Working depth [] (.begun depth (.operation .deferred) :: history) s where
  called := by simp
  nested := by
    intro d op above called
    rw [Law.state_begun, if_neg (Nat.ne_of_lt above), vacant d above] at called
    cases called
  rounds := ⟨[], by simp [handed], List.forall_mem_nil _⟩
  few := .inl (Nat.zero_le _)
  heard := absurd rfl

theorem above {entry : Entry} (working : Working depth inner history s)
    (silent : Law.SilentAt depth entry) (unhanded : entry.handed? depth = none)
    (nested : ∀ d op, depth < d → calls.state d (entry :: history) = some op →
      entry.begun? = some (.operation op) ∨ calls.state d history = some op)
    (few : entry.handlerAnswer? = some true ∨
      (Covered depth history s → Covered depth (entry :: history) after))
    (heard : entry.handlerAnswer? = some true →
      ∃ d, depth < d ∧ calls.state d history = some .interrupt) :
    Working depth (entry :: inner) (entry :: history) after := by
  have older {step : Step} (member : step ∈ inner.filterMap Entry.begun?) :
      step ∈ (entry :: inner).filterMap Entry.begun? :=
    List.filterMap_subset _ (List.subset_cons_self entry inner) member
  have same : handed depth (entry :: inner) = handed depth inner := by
    rw [handed_cons, unhanded]
    rfl
  constructor
  case called => rw [Law.state_of_silent silent, working.called]
  case nested =>
    intro d op above called
    rcases nested d op above called with begun | called
    · exact List.mem_filterMap.mpr ⟨entry, .head _, begun⟩
    · exact older (working.nested d op above called)
  case rounds =>
    rw [same, Law.state_of_silent silent]
    exact working.rounds
  case few =>
    rw [same, answered_cons]
    rcases few with answers | covered
    · rw [if_pos answers]
      exact .inl working.le
    · rcases working.few with less | ⟨count, all⟩
      · exact .inl (Nat.le_add_right_of_le less)
      · split
        · exact .inl (Nat.le_of_eq count)
        · exact .inr ⟨count, covered all⟩
  case heard =>
    intro any
    rw [answered_cons] at any
    by_cases answers : entry.handlerAnswer? = some true
    · obtain ⟨d, above, called⟩ := heard answers
      exact older (working.nested d _ above called)
    · rw [if_neg answers] at any
      exact older (working.heard any)

theorem surround {step : Step} (working : Working depth inner history s)
    (surrounds : ∀ op, step ≠ .operation op) :
    Working depth (.begun n step :: inner) (.begun n step :: history) (s.meet step) := by
  refine working.above ?_ rfl ?_ (.inr ?_) nofun
  · cases step with
    | operation op => exact absurd rfl (surrounds op)
    | _ => trivial
  · intro d op _ called
    rw [Law.state_surround surrounds] at called
    exact .inr called
  · rintro (empty | ⟨d, above, merged⟩)
    · exact .inl (by rw [Station.meet_interrupt, empty])
    · exact .inr ⟨d, above, by rw [Law.state_surround surrounds, merged]⟩

theorem operate (working : Working depth inner history s) (opening : drainLaw.Opening history n) :
    Working depth (.begun n (.operation op) :: inner) (.begun n (.operation op) :: history) s := by
  have lower : depth < n := by
    refine Nat.lt_of_not_le fun le => ?_
    cases working.called.symm.trans (opening.vacant depth le)
  refine working.above (Nat.ne_of_gt lower) rfl ?_ (.inr ?_) nofun
  · intro d other _ called
    rw [Law.state_begun] at called
    split at called
    · cases called
      exact .inl rfl
    · exact .inr called
  · refine Or.imp_right ?_
    rintro ⟨d, above, merged⟩
    refine ⟨d, above, ?_⟩
    rw [Law.state_begun, if_neg ?_, merged]
    rintro rfl
    rw [opening.idle] at merged
    cases merged

theorem finish {answer : Answer} (working : Working depth inner history s) (lower : depth < n)
    (called : calls.state n history = some op)
    (settles : (drainLaw.state n history).Settles op (.finished answer)) :
    Working depth (.ended n op answer :: inner) (.ended n op answer :: history) s := by
  refine working.above (Nat.ne_of_gt lower) rfl ?_ ?_ ?_
  · intro d other _ called
    rw [Law.state_ended] at called
    split at called
    · cases called
    · exact .inr called
  · by_cases merged : (drainLaw.state n history).merged = true
    · obtain ⟨rfl, same⟩ := settles.merged merged
      cases same
      exact .inl rfl
    · refine .inr (Or.imp_right ?_)
      rintro ⟨d, above, other⟩
      refine ⟨d, above, ?_⟩
      rw [Law.state_ended, if_neg ?_, other]
      rintro rfl
      exact merged other
  · intro answers
    refine ⟨n, lower, ?_⟩
    cases op <;> first | exact called | cases answers

theorem renew_above (working : Working depth inner history s) (lower : depth < n)
    (called : calls.state n history = some op)
    (settles : (drainLaw.state n history).Settles op .again) :
    Working depth (.renewed n op :: inner) (.renewed n op :: history) s := by
  refine working.above (Nat.ne_of_gt lower) rfl ?_ (.inr (Or.imp_right ?_)) nofun
  · intro d other _ now
    rw [Law.state_renewed] at now
    split at now
    · rename_i here
      subst here
      cases now
      exact .inr called
    · exact .inr now
  · rintro ⟨d, above, merged⟩
    refine ⟨d, above, ?_⟩
    rw [Law.state_renewed, if_neg ?_, merged]
    rintro rfl
    cases (settles.merged merged).2

theorem act_above {e : Effect} {answer : e.Answer} (working : Working depth inner history s)
    (lower : depth < n) (applied : s.apply e = .ok (answer, after)) :
    Working depth (.acted n op e answer :: inner) (.acted n op e answer :: history) after := by
  refine working.above (Nat.ne_of_gt lower) ?_ ?_ (.inr ?_) nofun
  · cases e <;> first | rfl | exact if_neg (Nat.ne_of_gt lower)
  · intro d other _ now
    rw [Law.state_acted] at now
    split at now <;> exact .inr now
  · by_cases merges : ∃ causes, e = .merge causes
    · obtain ⟨causes, rfl⟩ := merges
      refine fun _ => .inr ⟨n, lower, ?_⟩
      rw [Law.state_acted, if_pos rfl]
      rfl
    · refine Or.imp (Station.apply_pending applied fun causes same => merges ⟨causes, same⟩) ?_
      rintro ⟨d, above, merged⟩
      refine ⟨d, above, ?_⟩
      rw [Law.state_acted]
      split
      · cases e <;> first | exact merged | rfl
      · exact merged

theorem own {entry : Entry} (working : Working depth inner history s)
    (silent : ∀ d, depth < d → Law.SilentAt d entry)
    (called : calls.state depth (entry :: history) = some .deferred)
    (unanswered : entry.handlerAnswer? = none) (unbegun : entry.begun? = none)
    (rounds : ∃ words, handed depth (entry :: inner) =
      (drainLaw.state depth (entry :: history)).word.toList ++ words ∧ ∀ word ∈ words, word ≠ 0)
    (few : (handed depth (entry :: inner)).countP (· ≠ 0) ≤ answered inner ∨
      (handed depth (entry :: inner)).countP (· ≠ 0) = answered inner + 1 ∧
        (after.interrupt.pending.word = 0 ∨ ∃ d, depth < d ∧ (drainLaw.state d history).merged = true)) :
    Working depth (entry :: inner) (entry :: history) after := by
  have same : answered (entry :: inner) = answered inner := by
    rw [answered_cons, unanswered]
    rfl
  have begun : (entry :: inner).filterMap Entry.begun? = inner.filterMap Entry.begun? :=
    List.filterMap_cons_none unbegun
  constructor
  case called => exact called
  case nested =>
    intro d op above now
    rw [Law.state_of_silent (silent d above)] at now
    rw [begun]
    exact working.nested d op above now
  case rounds => exact rounds
  case few =>
    rw [same]
    refine few.imp_right (And.imp_right (Or.imp_right ?_))
    rintro ⟨d, above, merged⟩
    exact ⟨d, above, by rw [Law.state_of_silent (silent d above), merged]⟩
  case heard =>
    rw [same, begun]
    exact working.heard

theorem renew_own (working : Working depth inner history s)
    (settles : (drainLaw.state depth history).Settles .deferred .again) :
    Working depth (.renewed depth .deferred :: inner) (.renewed depth .deferred :: history) s := by
  refine working.own (fun d above => Nat.ne_of_lt above) ?_ rfl rfl ?_ working.few
  · rw [Law.state_renewed, if_pos rfl]
    rfl
  · obtain ⟨words, same, nonzero⟩ := working.rounds
    obtain ⟨word, found, looked⟩ := settles.again rfl rfl
    refine ⟨word :: words, ?_, List.forall_mem_cons.mpr ⟨found, nonzero⟩⟩
    rw [Law.state_renewed, if_pos rfl, handed_cons]
    rw [looked] at same
    exact same

theorem drain {word : Word} (working : Working depth inner history s)
    (acting : drainLaw.Acting history depth .deferred .drain)
    (applied : s.apply .drain = .ok (word, after)) :
    Working depth (.acted depth .deferred .drain word :: inner)
      (.acted depth .deferred .drain word :: history) after := by
  have looked : handed depth (.acted depth .deferred .drain word :: inner) =
      word :: handed depth inner := by
    rw [handed_cons]
    simp [Entry.handed?]
  have found : word = s.interrupt.pending.word := Station.apply_reads applied
  have emptied : after.interrupt.pending.word = 0 := by
    rw [Station.apply_interrupt applied]
    rfl
  refine working.own (fun d above => Nat.ne_of_lt above) ?_ rfl rfl ?_ ?_
  · rw [Law.state_acted, if_pos rfl]
    exact working.called
  · obtain ⟨words, same, nonzero⟩ := working.rounds
    refine ⟨words, ?_, nonzero⟩
    rw [acting.permitted.2] at same
    rw [looked, same, Law.state_acted, if_pos rfl]
    rfl
  · rw [looked, List.countP_cons]
    by_cases none : word = 0
    · rw [if_neg (by simp [none])]
      exact working.few.imp_right (And.imp_right fun _ => .inl emptied)
    · rw [if_pos (decide_eq_true none)]
      rcases working.few with less | ⟨_, empty | ⟨d, above, merged⟩⟩
      · rcases Nat.lt_or_eq_of_le less with less | same
        · exact .inl less
        · exact .inr ⟨by rw [same], .inl emptied⟩
      · exact absurd (found.trans empty) none
      · rw [acting.above d above] at merged
        cases merged

theorem act_own {e : Effect} {answer : e.Answer} (working : Working depth inner history s)
    (acting : drainLaw.Acting history depth .deferred e)
    (applied : s.apply e = .ok (answer, after)) :
    Working depth (.acted depth .deferred e answer :: inner)
      (.acted depth .deferred e answer :: history) after := by
  have permitted := acting.permitted
  have call := (drainLaw.call_eq depth history).trans acting.called
  cases e with
  | drain => exact working.drain acting applied
  | merge causes => cases call.symm.trans permitted
  | _ =>
    refine working.own (fun d above => Nat.ne_of_lt above) ?_ rfl rfl ?_ ?_
    · rw [Law.state_acted, if_pos rfl]
      exact acting.called
    · rw [Law.state_acted, if_pos rfl]
      exact working.rounds
    · exact working.few.imp_right (And.imp_right (Or.imp_left (Station.apply_pending applied nofun)))

end Working

def AtWork (history : History) (s : Station) : Prop :=
  ∀ depth inner earlier, history = inner ++ .begun depth (.operation .deferred) :: earlier →
    (∀ entry ∈ inner, ¬ entry.Closes depth) → Working depth inner history s

theorem AtWork.cons {history : History} {s after : Station} {entry : Entry}
    (atWork : AtWork history s)
    (begins : ∀ depth, entry = .begun depth (.operation .deferred) →
      Working depth [] (entry :: history) after)
    (onward : ∀ depth inner, ¬ entry.Closes depth → Working depth inner history s →
      Working depth (entry :: inner) (entry :: history) after) : AtWork (entry :: history) after := by
  intro depth inner earlier shape goesOn
  cases inner with
  | nil => exact begins depth (List.cons.inj shape).1
  | cons latest inner =>
    obtain ⟨rfl, older⟩ := List.cons.inj shape
    obtain ⟨last, rest⟩ := List.forall_mem_cons.mp goesOn
    exact onward depth inner last (atWork depth inner earlier older rest)

namespace Run

variable {admits : Machine → Step → Prop} {start m : Machine} {history : History}

theorem innermost (resting : start.stack = []) (run : Run admits start history m) {op : Operation}
    {target : Target} {rest : Task} {below : List Frame}
    (top : m.stack = .running op target rest :: below) :
    calls.state below.length history = some op ∧
      ∀ d, below.length < d → calls.state d history = none := by
  obtain ⟨governs, empty⟩ := @Run.governs _ drainLaw _ _ _ _ resting
    (fun m op _ => (drainLaw.task op m.station.target).mono fun _ _ _ => trivial) run
  rw [top] at governs empty
  exact ⟨governs.1.1, fun d above => (empty d above).2⟩

theorem atWork (resting : start.stack = []) (run : Run admits start history m) :
    AtWork history m.station := by
  have obeyed (m : Machine) (op : Operation) (_ : admits m (.operation op)) :
      (op.task m.station.target).Obeys drainLaw (fun _ => drainLaw.ends) (drainLaw.start op) :=
    (drainLaw.task op _).mono fun _ _ _ => trivial
  refine Run.account (P := AtWork) ?initial ?blind ?surround ?operate ?act ?renew ?finish ?abort run
  case initial =>
    intro depth inner earlier shape
    cases (List.append_eq_nil_iff.mp shape.symm).2
  case blind =>
    intro history s trace kept depth inner earlier shape goesOn
    obtain ⟨called, nested, rounds, few, heard⟩ := kept depth inner earlier shape goesOn
    exact ⟨called, nested, rounds, few, heard⟩
  case surround =>
    intro history m step below run _ _ surrounds kept
    refine kept.cons (fun depth same => ?_) fun depth inner _ working => working.surround surrounds
    exact absurd (Entry.begun.inj same).2 (surrounds _)
  case operate =>
    intro history m op below run _ awaits kept
    have opening := run.opening resting obeyed awaits
    refine kept.cons (fun depth same => ?_) fun depth inner _ working => working.operate opening
    cases same
    exact .begins _ _ _ fun d above => opening.vacant d (Nat.le_of_lt above)
  case act =>
    intro history m op target e next below answer after run top applied kept
    have acting := run.acting resting obeyed top
    refine kept.cons nofun fun depth inner _ working => ?_
    rcases Nat.lt_or_eq_of_le (working.depth_le acting.vacant) with lower | rfl
    · exact working.act_above lower applied
    · cases working.called.symm.trans acting.called
      exact working.act_own acting applied
  case renew =>
    intro history m op target below run top kept
    have settles := run.concludes resting (fun m op _ => drainLaw.task op m.station.target) top
    obtain ⟨called, vacant⟩ := run.innermost resting top
    refine kept.cons nofun fun depth inner _ working => ?_
    rcases Nat.lt_or_eq_of_le (working.depth_le vacant) with lower | rfl
    · exact working.renew_above lower called settles
    · cases working.called.symm.trans called
      exact working.renew_own settles
  case finish =>
    intro history m op target answer below run top kept
    have settles := run.concludes resting (fun m op _ => drainLaw.task op m.station.target) top
    obtain ⟨called, vacant⟩ := run.innermost resting top
    refine kept.cons nofun fun depth inner still working => ?_
    have lower := Nat.lt_of_le_of_ne (working.depth_le vacant) (Ne.symm still)
    exact working.finish lower called settles
  case abort =>
    intro history m op target e next below cause _ _ _ kept
    exact kept.cons nofun fun depth inner still _ => absurd trivial still

end Run

/-- A step that neither ends the working state nor asks for a register outside the window. -/
def Step.Tame : Step → Prop
  | .operation op =>
    op ≠ .leaveWorking ∧ ∀ offset, op.Asks offset → RegisterFile.InWindow offset
  | _ => True

structure WorkedOff (depth : Nat) (inner : History) (closing : Entry) : Prop where
  own : ∀ entry ∈ inner, ¬ entry.Closes depth
  /-- It returns or a fault ends it: the lock, unless a nested step brings in another one. -/
  ends : closing = .ended depth .deferred .ok ∨ ∃ cause, closing = .faulted cause ∧
    ((∀ step ∈ inner.filterMap Entry.begun?, step.Tame) → cause = .lockHeld)
  served : (handed depth inner).countP (· ≠ 0) ≤ answered inner + 1
  last : closing = .ended depth .deferred .ok →
    ∃ words, handed depth inner = 0 :: words ∧ ∀ word ∈ words, word ≠ 0
  takes : (handed depth inner).length ≤ answered inner + 2
  quiet : .operation .interrupt ∉ inner.filterMap Entry.begun? → (handed depth inner).length ≤ 2

theorem Task.answers_deferred {target : Target} (present : target ≠ .noDevice) :
    (Operation.deferred.task target).Answers (· = .ok) := by
  have returns (linkChange : Program Unit) : (Task.deferred linkChange).Answers (· = .ok) := by
    intro deeds answer course
    obtain ⟨_, round, _, _, _, course⟩ := (course_bind _ _ _).mp course
    cases round <;> cases course.2
    rfl
  cases target with
  | noDevice => exact absurd rfl present
  | interrupts => exact returns _
  | device a => exact returns _

namespace Run

variable {admits : Machine → Step → Prop} {start m : Machine} {history : History}

theorem faults_locked (resting : start.stack = []) (run : Run admits start history m) {op : Operation}
    {target : Target} {e : Effect} {next : e.Answer → Task} {below : List Frame}
    (top : m.stack = .running op target (.perform e next) :: below) {cause : Fault}
    (applied : m.station.apply e = .error cause) (tame : Step.Tame (.operation op)) :
    cause = .lockHeld := by
  have reaches := run.allowed Operation.reaches resting Operation.reaches_only top
  rcases Station.apply_error applied with rfl | ⟨_, takes⟩ | ⟨_, offset, outside, access⟩
  · exact absurd reaches.1 tame.1
  · exact Station.apply_error_of_takes applied takes
  · have within : op.Asks offset ∨ Register.Listed offset ∨
        Register.SlotWord target.tableSize offset := by
      rcases access with rfl | ⟨value, rfl⟩ <;> exact reaches
    refine absurd ?_ outside
    rcases within with asked | listed | word
    · exact tame.2 offset asked
    · exact listed.inWindow
    · exact word.inWindow target.tableSize_le

theorem handed_last (resting : start.stack = []) (run : Run admits start history m) {depth : Nat}
    {inner : History} (working : Working depth inner history m.station)
    (shown : m.entry? = some (.ended depth .deferred .ok)) :
    ∃ words, handed depth inner = 0 :: words ∧ ∀ word ∈ words, word ≠ 0 := by
  obtain ⟨target, below, top, rfl⟩ := Machine.entry?_ended shown
  have settles := run.concludes resting (fun m op _ => drainLaw.task op m.station.target) top
  obtain ⟨words, rounds, nonzero⟩ := working.rounds
  rw [settles.returned rfl rfl] at rounds
  exact ⟨words, rounds, nonzero⟩

/-- A fault during a worker is that of a step which began meanwhile, or its own. -/
theorem fault_locked (resting : start.stack = []) (run : Run admits start history m) {depth : Nat}
    {inner : History} (working : Working depth inner history m.station) {cause : Fault}
    (shown : m.entry? = some (.faulted cause))
    (tame : ∀ step ∈ inner.filterMap Entry.begun?, step.Tame) : cause = .lockHeld := by
  obtain ⟨op, target, e, next, below, top, applied⟩ := Machine.entry?_faulted shown
  obtain ⟨called, vacant⟩ := run.innermost resting top
  refine run.faults_locked resting top applied ?_
  rcases Nat.lt_or_eq_of_le (working.depth_le vacant) with lower | same
  · exact tame _ (working.nested _ op lower called)
  · rw [← same] at called
    cases working.called.symm.trans called
    exact ⟨nofun, nofun⟩

/-- The worker comes to an end, whatever is pending, whatever waits to be nested in it and wherever it
is nested itself: it is handed one word more than handlers answer meanwhile, at most, and then, if no
fault ends it, the empty word. -/
theorem works_off (resting : start.stack = []) {depth : Nat}
    (run : Run admits start (.begun depth (.operation .deferred) :: history) m)
    (present : m.station.target ≠ .noDevice) :
    ∃ limit inner closing, m.entries limit = closing :: inner ∧ WorkedOff depth inner closing := by
  obtain ⟨below, top, rfl⟩ := run.begun_top _ _ _ rfl
  have answers := Task.answers_deferred present
  obtain ⟨limit, inner, closing, entries, own, concludes⟩ :=
    (run.rests resting).closes answers ⟨[], _, top, answers⟩
  refine ⟨limit, inner, closing, entries, ?_⟩
  -- From here on nothing is asked of the steps: those that wait may be any.
  have freely : Run (fun _ _ => True) start _ m :=
    run.narrow (fun _ _ _ _ => trivial) fun _ _ => trivial
  have onward := freely.goesOn limit fun _ _ => trivial
  rw [entries] at onward
  obtain ⟨before, reached, ⟨step, same, _⟩ | ⟨_, shown, _⟩⟩ :=
    @Run.before _ _ _ [] _ closing onward
  · rcases concludes with ⟨answer, ended, _⟩ | ⟨cause, faulted⟩
    · cases same.symm.trans ended
    · cases same.symm.trans faulted
  · have working := reached.atWork resting _ inner history rfl own
    have takes := working.length_le
    constructor
    case own => exact own
    case served => exact working.le
    case takes => exact takes
    case quiet =>
      intro unheard
      have none : answered inner = 0 := Decidable.byContradiction fun any => unheard (working.heard any)
      rwa [none] at takes
    case last =>
      rintro rfl
      exact reached.handed_last resting working shown
    case ends =>
      rcases concludes with ⟨answer, rfl, rfl⟩ | ⟨cause, rfl⟩
      · exact .inl rfl
      · exact .inr ⟨cause, rfl, reached.fault_locked resting working shown⟩

end Run

def refilledWorker : Machine where
  station :=
    { registers := { cell := fun _ => 0 }
      target := .interrupts
      interrupt :=
        { wanted := .all
          pending := ⟨0x40⟩
          queue := fun
            | .receive => some ⟨"rx"⟩
            | .transmit => some ⟨"tx"⟩ } }
  hooks := [(.notify, [.raiseChannel 0x1, .operation .interrupt])]

/-- The bound is attained: one handler answers, and two words are found before the empty one. -/
theorem Run.works_off_refilledWorker :
    (∃ limit inner closing,
      (refilledWorker.begin (.operation .deferred)).entries limit = closing :: inner ∧
        WorkedOff 0 inner closing) ∧
    handed 0 ((refilledWorker.begin (.operation .deferred)).entries 60) = [0, 0x1, 0x40] ∧
    answered ((refilledWorker.begin (.operation .deferred)).entries 60) = 1 := by
  have begun : Run (fun _ _ => True) refilledWorker _
      (refilledWorker.begin (.operation .deferred)) :=
    Run.refl.begin rfl trivial
  exact ⟨begun.works_off rfl nofun, by decide, by decide⟩

end EthernetMac
