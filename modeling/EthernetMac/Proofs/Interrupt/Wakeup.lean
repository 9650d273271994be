import EthernetMac.Proofs.Action
import EthernetMac.Proofs.Footprint
import EthernetMac.Proofs.Trail

/-! When the worker is woken. Nothing waits in the pending word without the worker being asked for,
or about to look at the word, or about to be scheduled: a handler schedules in the very next action
after its merge, and a worker drains in the very first one of each round. -/

namespace EthernetMac

open Program

/-- The worker was scheduled by a handler and has not started since. -/
def Requested : History → Prop
  | [] => False
  | .begun _ (.operation .deferred) :: _ => False
  | .acted _ .interrupt .schedule _ :: _ => True
  | _ :: earlier => Requested earlier

namespace Requested

variable {history : History}

theorem begun {depth : Nat} {step : Step} (requested : Requested history)
    (other : step ≠ .operation .deferred) : Requested (.begun depth step :: history) := by
  cases step with
  | operation op => cases op <;> first | exact requested | exact absurd rfl other
  | _ => exact requested

theorem acted {depth : Nat} {op : Operation} {e : Effect} {answer : e.Answer}
    (requested : Requested history) : Requested (.acted depth op e answer :: history) := by
  cases op with
  | interrupt => cases e <;> first | exact requested | trivial
  | _ => exact requested

end Requested

namespace Entry

/-- What can happen inside a callback of the call at `depth`, short of a worker being started or the
device being replaced there. -/
def Inside (depth : Nat) : Entry → Prop
  | .begun d step => depth < d ∧ step ≠ .operation .deferred
  | .acted d _ e _ => depth < d ∧ ∀ adapter, e ≠ .attach adapter
  | .renewed d _ | .ended d _ _ => depth < d
  | .faulted _ => False

end Entry

/-- The handler at `depth` has merged `causes`, and nothing has happened since but its scheduling and
what goes on inside of that, with no worker among it. -/
inductive Carries (depth : Nat) (causes : Word) : History → Prop where
  | merged {earlier : History} :
      Carries depth causes (.acted depth .interrupt (.merge causes) () :: earlier)
  | scheduled {earlier : History} (carries : Carries depth causes earlier) :
      Carries depth causes (.acted depth .interrupt .schedule () :: earlier)
  | within {entry : Entry} {earlier : History} (inside : entry.Inside depth)
      (carries : Carries depth causes earlier) : Carries depth causes (entry :: earlier)

inductive WakeStage where
  | apart
  | handling
  | merged
  | looking
  deriving DecidableEq

namespace WakeStage

def Bound (q : WakeStage) : Prop := q = merged ∨ q = looking

instance (q : WakeStage) : Decidable q.Bound := inferInstanceAs (Decidable (_ ∨ _))

def Permits (q : WakeStage) : Effect → Prop
  | .drain => q = looking
  | .merge _ => q = handling
  | .schedule => q = merged
  | _ => ¬ q.Bound

def after (q : WakeStage) : Effect → WakeStage
  | .drain => apart
  | .merge _ => if q = handling then merged else q
  | .schedule => if q = merged then handling else q
  | _ => q

def ofOperation : Operation → WakeStage
  | .interrupt => handling
  | .deferred => looking
  | _ => apart

theorem ofOperation_bound {op : Operation} : (ofOperation op).Bound ↔ op = .deferred := by
  cases op <;> simp [ofOperation, Bound]

end WakeStage

def wakeLaw : Law WakeStage where
  idle := .apart
  start := .ofOperation
  permits := WakeStage.Permits
  after q e _ := q.after e
  yields q := ¬ q.Bound
  ends q := ¬ q.Bound
  idle_yields := by decide

namespace wakeLaw

variable {depth : Nat} {history : History}

@[simp] theorem idle_eq : wakeLaw.idle = .apart := rfl

@[simp] theorem start_eq (op : Operation) : wakeLaw.start op = .ofOperation op := rfl

@[simp] theorem permits_eq : wakeLaw.permits = WakeStage.Permits := rfl

@[simp] theorem after_eq (q : WakeStage) (e : Effect) (answer : e.Answer) :
    wakeLaw.after q e answer = q.after e := rfl

@[simp] theorem yields_eq (q : WakeStage) : wakeLaw.yields q ↔ ¬ q.Bound := .rfl

@[simp] theorem ends_eq (q : WakeStage) : wakeLaw.ends q ↔ ¬ q.Bound := .rfl

theorem state_calls (depth : Nat) (history : History) :
    ((wakeLaw.state depth history = .handling ∨ wakeLaw.state depth history = .merged) →
      calls.state depth history = some .interrupt) ∧
    (wakeLaw.state depth history = .looking → calls.state depth history = some .deferred) := by
  refine @Law.state_related _ wakeLaw _ calls
    (fun q r => ((q = .handling ∨ q = .merged) → r = some .interrupt) ∧
      (q = .looking → r = some .deferred)) ⟨nofun, nofun⟩ ?_ ?_ depth history
  · intro op
    cases op <;> simp [WakeStage.ofOperation]
  · intro q r e answer known
    cases e with
    | merge | schedule | drain => cases q <;> simp_all [WakeStage.after]
    | _ => exact known

theorem drains_of_looking (looking : wakeLaw.state depth history = .looking) :
    drains.state depth history = none := by
  refine @Law.state_related _ wakeLaw _ drains (fun q r => q = .looking → r = none) nofun
    (fun _ _ => rfl) ?_ depth history looking
  intro q r e answer known
  cases e with
  | merge | schedule | drain => cases q <;> simp_all [WakeStage.after, drains]
  | _ => exact known

theorem apart_free : ¬ WakeStage.apart.Bound := by decide

theorem handling_free : ¬ WakeStage.handling.Bound := by decide

def Aside : Effect → Prop
  | .drain | .merge _ | .schedule => False
  | _ => True

theorem ignores_aside {q : WakeStage} (free : ¬ q.Bound) (e : Effect) (aside : Aside e) :
    wakeLaw.Ignores q e := by
  cases e <;> first | exact aside.elim | exact ⟨free, fun _ => rfl⟩

theorem of_aside {q : WakeStage} {α : Type} {p : Program α} (free : ¬ q.Bound)
    (only : p.Only Aside) : p.Obeys wakeLaw (fun _ after => after = q) q :=
  .of_only only (ignores_aside free) free

theorem handle : Interrupt.handle.Obeys wakeLaw (fun _ => wakeLaw.ends) .handling := by
  have quiet {α : Type} {p : Program α} (only : p.Only Aside) :
      p.Obeys wakeLaw (fun _ after => after = .handling) .handling :=
    of_aside handling_free only
  have read (offset : Nat) : (load offset).Obeys wakeLaw (fun _ after => after = .handling) .handling :=
    quiet (Only.act trivial)
  unfold Interrupt.handle
  refine (read _).seq fun mac => (read _).seq fun channel => ?_
  rw [obeys_ite]
  constructor
  · intro _
    exact ⟨handling_free, fun _ => ⟨nofun, handling_free⟩⟩
  · intro _
    refine (quiet (.onlyIf ((Only.act trivial).bind fun _ => .pure ()))).seq fun _ => ?_
    refine (quiet (.onlyIf (.store trivial))).seq fun _ => ?_
    refine ⟨rfl, fun _ => ⟨nofun, rfl, fun _ => ?_⟩⟩
    exact ⟨fun _ => handling_free, handling_free, fun _ => ⟨nofun, handling_free⟩⟩

theorem work {linkChange : Program Unit}
    (either : linkChange = act .linkChanged ∨ linkChange = discard refreshLink) :
    (Interrupt.work linkChange).Obeys wakeLaw (fun _ after => after = .apart) .looking := by
  refine Obeys.andThen (r := .apart) ⟨rfl, fun _ => ⟨nofun, rfl⟩⟩ fun pending => ?_
  rw [obeys_ite]
  refine ⟨fun _ => rfl, fun _ => Obeys.seq ?_ fun _ => rfl⟩
  refine Interrupt.serve_obeys either (fun e inside => ignores_aside apart_free e ?_) apart_free
    (.onlyIf fun _ => of_aside apart_free ((Interrupt.serveQueues_only _).mono fun e inside => ?_))
  · cases e <;> first | exact inside.elim | trivial
  · cases e <;> first | exact inside.elim | trivial

def Admits (m : Machine) (step : Step) : Prop :=
  step = .operation .deferred → m.station.target ≠ .noDevice

theorem task {op : Operation} {target : Target} (present : op = .deferred → target ≠ .noDevice) :
    (op.task target).Obeys wakeLaw (fun _ => wakeLaw.ends) (wakeLaw.start op) := by
  have aside (other : WakeStage.ofOperation op = .apart) (only : (op.task target).Only Aside) :
      (op.task target).Obeys wakeLaw (fun _ => wakeLaw.ends) (wakeLaw.start op) := by
    rw [start_eq, other]
    exact (of_aside apart_free only).reach fun _ => apart_free
  have adapter (e : Effect) (inside : adapterActions e) : Aside e := by
    cases e <;> first | exact inside.elim | trivial
  have service (inService : op.InService) (e : Effect) (inside : op.actions e)
      (other : WakeStage.ofOperation op = .apart) : Aside e := by
    cases e with
    | drain | merge | schedule =>
      cases (inside : op = _)
      cases other
    | _ => trivial
  cases op with
  | interrupt =>
    cases target with
    | noDevice => exact handling_free
    | interrupts | device => exact (obeys_once ..).mpr handle
  | deferred =>
    have finished {linkChange : Program Unit}
        (either : linkChange = act .linkChanged ∨ linkChange = discard refreshLink) :
        (Task.deferred linkChange).Obeys wakeLaw (fun _ => wakeLaw.ends) .looking := by
      refine (work either).andThen fun round => ?_
      cases round <;> exact apart_free
    cases target with
    | noDevice => exact absurd rfl (present rfl)
    | interrupts => exact finished (.inl rfl)
    | device => exact finished (.inr rfl)
  | prepare config resources =>
    refine aside rfl ?_
    cases target with
    | noDevice => exact (prepare_only config resources).mono adapter
    | interrupts | device => exact .pure _
  | release =>
    refine aside rfl ?_
    cases target with
    | device a => exact (release_only a).mono adapter
    | noDevice | interrupts => exact .pure _
  | _ => exact aside rfl ((Operation.task_only (by trivial) target).mono fun e inside =>
      service trivial e inside rfl)

end wakeLaw

def Effect.Access : Effect → Prop
  | .load _ | .store _ _ => True
  | _ => False

theorem Interrupt.handle_course {deeds : List Deed} {found : Bool}
    (course : Interrupt.handle.Course deeds found) :
    ∃ accesses, (∀ deed ∈ accesses, deed.effect.Access) ∧
      if found then
        ∃ causes, deeds = accesses ++ [⟨.merge causes, ()⟩, ⟨.schedule, ()⟩, ⟨.count .handled, ()⟩]
      else deeds = accesses ++ [⟨.count .ignored, ()⟩] := by
  unfold Interrupt.handle at course
  simp only [course_load_bind] at course
  obtain ⟨mac, _, rfl, channel, rest, rfl, course⟩ := course
  have reads : ∀ deed ∈ [(⟨.load Register.macInterruptStatus, mac⟩ : Deed),
      ⟨.load Register.channelStatus, channel⟩], deed.effect.Access := by
    simp [Effect.Access]
  split at course
  · obtain ⟨_, _, rfl, rfl, rfl⟩ := course
    exact ⟨_, reads, rfl⟩
  · rw [course_bind] at course
    obtain ⟨phy, _, _, rfl, linked, course⟩ := course
    rw [course_bind] at course
    obtain ⟨status, _, _, rfl, acknowledged, course⟩ := course
    obtain ⟨_, _, rfl, _, _, rfl, _, _, rfl, rfl, rfl⟩ := course
    have linkOnly : (onlyIf (MacInterruptStatus.linkStatus.test mac)
        (do discard (load Register.macPhyStatus))).Only Effect.Access :=
      .onlyIf ((Only.act trivial).bind fun _ => .pure ())
    have statusOnly :
        (onlyIf (channel != 0) (store Register.channelStatus channel)).Only Effect.Access :=
      .onlyIf (.store trivial)
    refine ⟨⟨.load Register.macInterruptStatus, mac⟩ :: ⟨.load Register.channelStatus, channel⟩ ::
      (phy ++ status), ?_,
      channel ||| if MacInterruptStatus.linkStatus.test mac then linkCause else 0, ?_⟩
    · simpa [Effect.Access, or_imp, forall_and] using
        ⟨linkOnly.course linked, statusOnly.course acknowledged⟩
    · simp

theorem and_not_or {causes word : Word} (part : causes &&& ~~~word = 0) (more : Word) :
    causes &&& ~~~(word ||| more) = 0 := by
  rw [BitVec.not_or, ← BitVec.and_assoc, part]
  exact BitVec.zero_and

theorem and_not_or_self (word causes : Word) : causes &&& ~~~(word ||| causes) = 0 := by
  rw [BitVec.or_comm]
  exact and_not_or (BitVec.and_not_self causes) word

/-- What is waiting, what is owed, and what has been merged. -/
structure Woken (history : History) (s : Station) : Prop where
  waiting : s.interrupt.pending.word ≠ 0 →
    Requested history ∨ ∃ depth, (wakeLaw.state depth history).Bound
  owed : ∀ depth, wakeLaw.state depth history = .merged →
    ∃ causes earlier, history = .acted depth .interrupt (.merge causes) () :: earlier
  carried : ∀ depth causes, Carries depth causes history →
    causes &&& ~~~s.interrupt.pending.word = 0 ∧
      ∀ d, depth < d → calls.state d history ≠ some .deferred
  opened : ∀ worker depth causes earlier,
    history = .begun worker (.operation .deferred) :: earlier → Carries depth causes earlier →
      causes &&& ~~~s.interrupt.pending.word = 0

namespace Woken

variable {history : History} {s after : Station}

theorem requested (woken : Woken history s)
    (free : ∀ depth, ¬ (wakeLaw.state depth history).Bound)
    (waiting : s.interrupt.pending.word ≠ 0) : Requested history :=
  (woken.waiting waiting).resolve_right fun ⟨depth, bound⟩ => free depth bound

theorem begun {n : Nat} {op : Operation} (woken : Woken history s)
    (free : ∀ depth, ¬ (wakeLaw.state depth history).Bound) :
    Woken (.begun n (.operation op) :: history) s where
  waiting := by
    intro waiting
    by_cases worker : op = .deferred
    · refine .inr ⟨n, ?_⟩
      simpa using WakeStage.ofOperation_bound.mpr worker
    · exact .inl ((woken.requested free waiting).begun fun same => worker (by cases same; rfl))
  owed := by
    intro depth merged
    rw [Law.state_begun] at merged
    split at merged
    · cases op <;> cases merged
    · exact absurd (.inl merged) (free depth)
  carried := by
    rintro depth causes (_ | _ | ⟨⟨_, other⟩, carries⟩)
    refine ⟨(woken.carried depth causes carries).1, fun d above => ?_⟩
    rw [Law.state_begun]
    split
    · rintro ⟨⟩
      exact other rfl
    · exact (woken.carried depth causes carries).2 d above
  opened := by
    rintro worker depth causes earlier ⟨⟩ carries
    exact (woken.carried depth causes carries).1

theorem renewed {n : Nat} {op : Operation} (woken : Woken history s)
    (free : ∀ depth, ¬ (wakeLaw.state depth history).Bound)
    (called : calls.state n history = some op) : Woken (.renewed n op :: history) s where
  waiting waiting := .inl (woken.requested free waiting)
  owed := by
    intro depth merged
    rw [Law.state_renewed] at merged
    split at merged
    · cases op <;> cases merged
    · exact absurd (.inl merged) (free depth)
  carried := by
    rintro depth causes (_ | _ | ⟨inside, carries⟩)
    obtain ⟨kept, none⟩ := woken.carried depth causes carries
    refine ⟨kept, fun d above => ?_⟩
    rw [Law.state_renewed]
    split
    · rw [calls.start_eq, ← called]
      exact none n inside
    · exact none d above
  opened := fun _ _ _ _ same => nomatch (List.cons.inj same).1

theorem onward {entry : Entry} (woken : Woken history s)
    (free : ∀ depth, ¬ (wakeLaw.state depth history).Bound)
    (pending : after.interrupt.pending = s.interrupt.pending)
    (keeps : Requested history → Requested (entry :: history))
    (unmerged : ∀ depth, wakeLaw.state depth (entry :: history) ≠ .merged)
    (acts : ∀ depth op e answer, entry ≠ .acted depth op e answer)
    (begins : ∀ worker, entry ≠ .begun worker (.operation .deferred))
    (workers : ∀ depth d, entry.Inside depth → depth < d →
      calls.state d (entry :: history) = some .deferred → calls.state d history = some .deferred) :
    Woken (entry :: history) after where
  waiting := by
    rw [pending]
    exact fun waiting => .inl (keeps (woken.requested free waiting))
  owed depth merged := absurd merged (unmerged depth)
  carried := by
    intro depth causes carries
    rw [pending]
    cases carries with
    | merged | scheduled => exact absurd rfl (acts _ _ _ _)
    | within inside carries =>
      obtain ⟨kept, none⟩ := woken.carried depth causes carries
      exact ⟨kept, fun d above called => none d above (workers depth d inside above called)⟩
  opened := by
    rintro worker depth causes earlier same
    exact absurd (List.cons.inj same).1 (begins worker)

theorem act {n : Nat} {op : Operation} {e : Effect} {answer : e.Answer} (woken : Woken history s)
    (acting : wakeLaw.Acting history n op e)
    (free : ∀ depth, n ≠ depth → ¬ (wakeLaw.state depth history).Bound)
    (applied : s.apply e = .ok (answer, after)) : Woken (.acted n op e answer :: history) after := by
  have permitted := acting.permitted
  have interrupt := Station.apply_interrupt applied
  have handler (own : wakeLaw.state n history = .handling ∨ wakeLaw.state n history = .merged) :
      op = .interrupt := by
    have called := (wakeLaw.state_calls n history).1 own
    rw [acting.called] at called
    exact Option.some.inj called
  constructor
  case waiting =>
    intro waiting
    rw [interrupt] at waiting
    cases e with
    | drain | attach => exact absurd rfl waiting
    | merge causes =>
      refine .inr ⟨n, ?_⟩
      have own : wakeLaw.state n history = .handling := permitted
      simp [own, WakeStage.after, WakeStage.Bound]
    | schedule =>
      cases handler (.inr permitted)
      exact .inl trivial
    | _ =>
      -- Nobody is between his merge and his schedule here, so the request was there before.
      refine .inl (woken.requested (fun depth => ?_) waiting).acted
      by_cases here : n = depth
      · exact here ▸ permitted
      · exact free depth here
  case owed =>
    intro depth merged
    rw [Law.state_acted] at merged
    by_cases here : n = depth
    · subst here
      rw [if_pos rfl] at merged
      cases e with
      | merge causes =>
        cases handler (.inl permitted)
        exact ⟨causes, history, rfl⟩
      | drain => cases merged
      | schedule =>
        have own : wakeLaw.state n history = .merged := permitted
        rw [own] at merged
        cases merged
      | _ => exact absurd (.inl merged) permitted
    · rw [if_neg here] at merged
      exact absurd (.inl merged) (free depth here)
  case carried =>
    intro depth causes carries
    rw [interrupt]
    cases carries with
    | merged =>
      refine ⟨and_not_or_self _ _, fun d above => ?_⟩
      simp [acting.vacant d above]
    | scheduled carries =>
      obtain ⟨kept, none⟩ := woken.carried _ causes carries
      exact ⟨kept, by simpa using none⟩
    | within inside carries =>
      obtain ⟨above, same⟩ := inside
      obtain ⟨kept, none⟩ := woken.carried depth causes carries
      refine ⟨?_, by simpa using none⟩
      cases e with
      | drain => exact absurd ((wakeLaw.state_calls n history).2 permitted) (none n above)
      | attach adapter => exact absurd rfl (same adapter)
      | merge more => exact and_not_or kept more
      | _ => exact kept
  case opened => exact fun _ _ _ _ same => nomatch (List.cons.inj same).1

end Woken

namespace Run

variable {start m : Machine} {history : History}

theorem wake_obeyed (m : Machine) (op : Operation) (admitted : wakeLaw.Admits m (.operation op)) :
    (op.task m.station.target).Obeys wakeLaw (fun _ => wakeLaw.ends) (wakeLaw.start op) :=
  wakeLaw.task fun same => admitted (congrArg Step.operation same)

variable (resting : start.stack = [])

include resting

theorem unbound (run : Run wakeLaw.Admits start history m)
    (idle : ∀ op target e next below, m.stack ≠ .running op target (.perform e next) :: below)
    (depth : Nat) : ¬ (wakeLaw.state depth history).Bound := by
  intro bound
  obtain ⟨op, target, e, next, below, top, _⟩ :=
    run.next resting wake_obeyed depth (not_not_intro bound) (not_not_intro bound)
  exact idle op target e next below top

theorem unbound_of_ne (run : Run wakeLaw.Admits start history m) {op : Operation} {target : Target}
    {e : Effect} {next : e.Answer → Task} {below : List Frame}
    (top : m.stack = .running op target (.perform e next) :: below) {depth : Nat}
    (other : below.length ≠ depth) : ¬ (wakeLaw.state depth history).Bound := by
  intro bound
  obtain ⟨_, _, _, _, lower, same, level, _⟩ :=
    run.next resting wake_obeyed depth (not_not_intro bound) (not_not_intro bound)
  rw [top] at same
  cases same
  exact other level

variable (empty : start.station.interrupt.pending = .empty)
  (run : Run wakeLaw.Admits start history m)

include empty run

theorem woken : Woken history m.station := by
  refine Run.account (P := Woken) ?initial ?blind ?surround ?operate ?act ?renew ?finish ?abort run
  case initial =>
    exact ⟨fun waiting => absurd (by rw [empty]; rfl) waiting, fun _ => nofun, fun _ _ => nofun,
      fun _ _ _ _ => nofun⟩
  case blind =>
    exact fun _ woken => ⟨woken.waiting, woken.owed, woken.carried, woken.opened⟩
  case surround =>
    intro history m step below run _ awaits surrounds woken
    have free := run.unbound resting fun _ _ _ _ _ => awaits.not_running
    have pending := congrArg InterruptState.pending (m.station.meet_interrupt step)
    refine woken.onward free pending (fun requested => ?_)
      (fun depth merged => ?_) (fun _ _ _ _ same => nomatch same) (fun worker same => ?_)
      (fun depth d _ _ called => ?_)
    · exact requested.begun (surrounds _)
    · rw [Law.state_surround surrounds] at merged
      exact free depth (.inl merged)
    · cases same
      exact surrounds _ rfl
    · rwa [Law.state_surround surrounds] at called
  case operate =>
    intro history m op below run _ awaits woken
    exact woken.begun (run.unbound resting fun _ _ _ _ _ => awaits.not_running)
  case act =>
    intro history m op target e next below answer after run top applied woken
    -- Only the call on top can have something to do at once, so the others are unbound.
    exact woken.act (run.acting resting wake_obeyed top)
      (fun _ other => run.unbound_of_ne resting top other) applied
  case renew =>
    intro history m op target below run top woken
    have free := run.unbound resting fun _ _ _ _ _ => by rw [top]; exact nofun
    exact woken.renewed free (run.ending resting wake_obeyed top).1
  case finish =>
    intro history m op target answer below run top woken
    have free := run.unbound resting fun _ _ _ _ _ => by rw [top]; exact nofun
    refine woken.onward free rfl id (fun depth merged => ?_) (fun _ _ _ _ same => nomatch same)
      (fun _ same => nomatch same) (fun depth d _ _ called => ?_)
    · rw [Law.state_ended] at merged
      split at merged
      · cases merged
      · exact free depth (.inl merged)
    · rw [Law.state_ended] at called
      split at called
      · cases called
      · exact called
  case abort =>
    intro history m op target e next below cause run top applied woken
    have permitted := (run.acting resting wake_obeyed top).permitted
    have free (depth : Nat) : ¬ (wakeLaw.state depth history).Bound := by
      by_cases here : below.length = depth
      · subst here
        rcases Station.apply_error applied with rfl | ⟨_, rfl | rfl | ⟨direction, rfl⟩⟩ |
          ⟨_, offset, _, rfl | ⟨value, rfl⟩⟩ <;> exact permitted
      · exact run.unbound_of_ne resting top here
    exact woken.onward free rfl id (fun _ => nofun) (fun _ _ _ _ same => nomatch same)
      (fun _ same => nomatch same) fun _ _ inside => inside.elim

end Run

structure WakesWorker (history : History) (m : Machine) : Prop where
  /-- Nothing waits unnoticed: the worker is asked for, or about to look at the pending word, or
  about to be scheduled by the handler that has just merged. -/
  awake : m.station.interrupt.pending.word ≠ 0 → Requested history ∨
    (∃ depth, calls.state depth history = some .deferred ∧ drains.state depth history = none) ∨
    ∃ depth causes earlier, history = .acted depth .interrupt (.merge causes) () :: earlier
  scheduled : ∀ later depth op earlier, history = later ++ .acted depth op .schedule () :: earlier →
    op = .interrupt ∧
      ∃ causes older, earlier = .acted depth .interrupt (.merge causes) () :: older
  /-- The first worker that starts inside of a handler's callback is handed, before anything else
  happens, all that this handler merged. -/
  handed : ∀ later worker depth causes earlier,
    history = later ++ .begun worker (.operation .deferred) :: earlier →
      Carries depth causes earlier →
        later = [] ∨ ∃ newer word, later = newer ++ [.acted worker .deferred .drain word] ∧
          causes &&& ~~~word = 0
  /-- A handler schedules once, right after its merge, if it answers that the interrupt was the
  device's, and otherwise not at all. -/
  handled : ∀ later depth found earlier,
    history = later ++ .ended depth .interrupt (.truth found) :: earlier →
      ∃ deeds, trail.state depth earlier = some (.interrupt, deeds) ∧
        ∃ accesses, (∀ deed ∈ accesses, deed.effect.Access) ∧
          if found then
            ∃ causes,
              deeds = accesses ++ [⟨.merge causes, ()⟩, ⟨.schedule, ()⟩, ⟨.count .handled, ()⟩]
          else deeds = accesses ++ [⟨.count .ignored, ()⟩]

namespace Run

variable {start m : Machine} {history : History}

/-- A worker that has started looks at the pending word next. -/
theorem looks (resting : start.stack = []) {later earlier : History} {entry : Entry} {worker : Nat}
    (run : Run wakeLaw.Admits start
      (later ++ entry :: .begun worker (.operation .deferred) :: earlier) m) :
    ∃ before, Run wakeLaw.Admits start (.begun worker (.operation .deferred) :: earlier) before ∧
      entry = .acted worker .deferred .drain before.station.interrupt.pending.word := by
  obtain ⟨before, reached, moved⟩ := run.before
  have looking : wakeLaw.state worker (.begun worker (.operation .deferred) :: earlier) = .looking :=
    by simp [WakeStage.ofOperation]
  obtain ⟨op, target, e, next, below, top, level, called, permitted⟩ :=
    reached.next resting wake_obeyed worker (by simp [looking, WakeStage.Bound])
      (by simp [looking, WakeStage.Bound])
  rw [looking] at permitted
  have own : op = .deferred := by simpa using called.symm
  have drains : e = .drain := by
    cases e <;> first | rfl | exact absurd (.inr rfl) permitted | cases permitted
  subst own drains level
  refine ⟨before, reached, ?_⟩
  rcases moved with ⟨_, _, idle, _⟩ | ⟨_, shown, _⟩
  · rw [top] at idle
    cases idle
  · rw [Machine.entry?, top] at shown
    exact (Option.some.inj shown).symm

/-- The worker is woken for whatever is pending, and by nobody but a handler that has just merged. -/
theorem worker_awake (resting : start.stack = [])
    (empty : start.station.interrupt.pending = .empty)
    (run : Run wakeLaw.Admits start history m) : WakesWorker history m where
  awake := by
    intro waiting
    have woken := run.woken resting empty
    rcases woken.waiting waiting with requested | ⟨depth, merged | looking⟩
    · exact .inl requested
    · exact .inr (.inr ⟨depth, woken.owed depth merged⟩)
    · exact .inr (.inl ⟨depth, (wakeLaw.state_calls depth history).2 looking,
        wakeLaw.drains_of_looking looking⟩)
  scheduled := by
    rintro later depth op earlier rfl
    obtain ⟨before, target, next, below, after, reached, top, rfl, _⟩ := run.acted
    have acting := reached.acting resting wake_obeyed top
    have merged : wakeLaw.state below.length earlier = .merged := acting.permitted
    have called := (wakeLaw.state_calls _ _).1 (.inr merged)
    rw [acting.called] at called
    exact ⟨Option.some.inj called, (reached.woken resting empty).owed _ merged⟩
  handed := by
    rintro later worker depth causes earlier rfl carries
    rcases List.eq_nil_or_concat later with rfl | ⟨newer, entry, rfl⟩
    · exact .inl rfl
    · rw [List.concat_eq_append, List.append_assoc] at run
      rw [List.concat_eq_append]
      obtain ⟨before, reached, rfl⟩ := run.looks resting
      have opened := (reached.woken resting empty).opened worker depth causes earlier rfl carries
      exact .inr ⟨newer, _, rfl, opened⟩
  handled := by
    rintro later depth found earlier rfl
    obtain ⟨target, deeds, _, followed, course⟩ :=
      run.ended (fun _ _ => True) resting fun _ _ _ => trivial
    refine ⟨deeds, followed, ?_⟩
    have handles : Interrupt.handle.Course deeds found := by
      cases target with
      | noDevice => cases course.2
      | interrupts | device =>
        obtain ⟨_, _, _, rfl, handles, rfl, same⟩ := (course_bind ..).mp course
        cases same
        rwa [List.append_nil]
    exact Interrupt.handle_course handles

def promptHost : Machine where
  station :=
    { registers := { cell := fun offset => if offset = Register.channelStatus then 0x40 else 0 }
      target := .interrupts }
  hooks := [(.schedule, [.operation .deferred])]

theorem worker_awake_promptHost :
    ∃ (m : Machine) (earlier : History), Carries 0 0x40 earlier ∧
      WakesWorker (.acted 2 .deferred .drain (0x40 : Word) ::
        .begun 2 (.operation .deferred) :: earlier) m := by
  have begun : Run wakeLaw.Admits promptHost _ (promptHost.begin (.operation .interrupt)) :=
    Run.refl.begin rfl nofun
  have read := (begun.advance nofun nofun).advance nofun nofun
  have merged := (read.advance nofun nofun).advance nofun nofun
  have scheduled := merged.advance nofun nofun
  have called := scheduled.advance nofun fun _ _ _ _ => nofun
  have drained := called.advance nofun nofun
  exact ⟨_, _, .scheduled .merged, drained.worker_awake rfl rfl⟩

end Run

end EthernetMac
