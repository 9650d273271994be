import EthernetMac.Proofs.Law

/-! What each call has done so far: its actions with their answers. A call follows its program up to
where it stands, and when it ends it has followed it to the end. So what is proved of one program, on
all answers, holds of every call of every run. -/

namespace EthernetMac

structure Deed where
  effect : Effect
  answer : effect.Answer

namespace Deed

def event? (deed : Deed) : Option Event := deed.effect.event? deed.answer

end Deed

namespace Program

variable {α β : Type}

/-- `p` can do `deeds`, in this order, and come to `result`. -/
def Course : Program α → List Deed → α → Prop
  | done value, deeds, result => deeds = [] ∧ result = value
  | perform e next, deeds, result =>
    ∃ answer rest, deeds = ⟨e, answer⟩ :: rest ∧ (next answer).Course rest result

variable {deeds : List Deed}

@[simp] theorem course_done (value result : α) :
    (done value).Course deeds result ↔ deeds = [] ∧ result = value := .rfl

@[simp] theorem course_pure (value result : α) :
    (pure value : Program α).Course deeds result ↔ deeds = [] ∧ result = value := .rfl

@[simp] theorem course_perform (e : Effect) (next : e.Answer → Program α) (result : α) :
    (perform e next).Course deeds result ↔
      ∃ answer rest, deeds = ⟨e, answer⟩ :: rest ∧ (next answer).Course rest result := .rfl

theorem course_bind (p : Program α) (f : α → Program β) (result : β) :
    (p >>= f).Course deeds result ↔
      ∃ first value rest, deeds = first ++ rest ∧ p.Course first value ∧
        (f value).Course rest result := by
  change (p.bind f).Course deeds result ↔ _
  induction p generalizing deeds with
  | done value =>
    constructor
    · exact fun onward => ⟨[], value, deeds, rfl, ⟨rfl, rfl⟩, onward⟩
    · rintro ⟨_, _, rest, rfl, ⟨rfl, rfl⟩, onward⟩
      exact onward
  | perform e next ih =>
    simp only [Program.bind, course_perform, ih]
    constructor
    · rintro ⟨answer, _, rfl, first, value, rest, rfl, begun, onward⟩
      exact ⟨⟨e, answer⟩ :: first, value, rest, rfl, ⟨answer, first, rfl, begun⟩, onward⟩
    · rintro ⟨_, value, rest, rfl, ⟨answer, first, rfl, begun⟩, onward⟩
      exact ⟨answer, first ++ rest, rfl, first, value, rest, rfl, begun, onward⟩

@[simp] theorem course_act_bind (e : Effect) (f : e.Answer → Program β) (result : β) :
    (act e >>= f).Course deeds result ↔
      ∃ answer rest, deeds = ⟨e, answer⟩ :: rest ∧ (f answer).Course rest result := .rfl

@[simp] theorem course_load_bind (offset : Nat) (f : Word → Program β) (result : β) :
    (load offset >>= f).Course deeds result ↔
      ∃ (word : Word) (rest : List Deed),
        deeds = ⟨.load offset, word⟩ :: rest ∧ (f word).Course rest result := .rfl

@[simp] theorem course_store_bind (offset : Nat) (value : Word) (f : Unit → Program β)
    (result : β) :
    (store offset value >>= f).Course deeds result ↔
      ∃ rest, deeds = ⟨.store offset value, ()⟩ :: rest ∧ (f ()).Course rest result :=
  ⟨fun ⟨_, rest, same, onward⟩ => ⟨rest, same, onward⟩,
    fun ⟨rest, same, onward⟩ => ⟨(), rest, same, onward⟩⟩

theorem course_discard (p : Program α) (result : Unit) :
    (discard p).Course deeds result ↔ ∃ value, p.Course deeds value := by
  change (p >>= fun _ => done ()).Course deeds result ↔ _
  rw [course_bind]
  constructor
  · rintro ⟨_, value, _, rfl, course, rfl, _⟩
    exact ⟨value, by rwa [List.append_nil]⟩
  · rintro ⟨value, course⟩
    exact ⟨deeds, value, [], by simp, course, rfl, rfl⟩

theorem course_onlyIf (condition : Bool) (p : Program Unit) (result : Unit) :
    (onlyIf condition p).Course deeds result ↔
      if condition then p.Course deeds result else deeds = [] := by
  cases condition with
  | false => exact and_iff_left rfl
  | true => exact .rfl

theorem course_locked (p : Program α) (result : α) :
    (locked p).Course deeds result ↔
      ∃ inner, deeds = ⟨.acquire, ()⟩ :: inner ++ [⟨.release, ()⟩] ∧ p.Course inner result := by
  unfold locked
  rw [course_act_bind]
  constructor
  · rintro ⟨_, _, rfl, course⟩
    obtain ⟨inner, value, _, rfl, course, freed⟩ := (course_bind ..).mp course
    obtain ⟨_, _, rfl, rfl, rfl⟩ := (course_act_bind ..).mp freed
    exact ⟨inner, rfl, course⟩
  · rintro ⟨inner, rfl, course⟩
    have freed : (do act .release; return result).Course [⟨.release, ()⟩] result :=
      ⟨(), [], rfl, rfl, rfl⟩
    exact ⟨(), _, rfl, (course_bind ..).mpr ⟨inner, result, _, rfl, course, freed⟩⟩

theorem course_once (p : Program α) (answer : α → Answer) (round : Round Answer) :
    (Task.once p answer).Course deeds round ↔
      ∃ value, p.Course deeds value ∧ round = .finished (answer value) := by
  unfold Task.once
  rw [course_bind]
  constructor
  · rintro ⟨_, value, _, rfl, course, rfl, rfl⟩
    exact ⟨value, by rwa [List.append_nil], rfl⟩
  · rintro ⟨value, course, rfl⟩
    exact ⟨deeds, value, [], by simp, course, rfl, rfl⟩

end Program

namespace Law

variable {σ : Type} (law : Law σ)

def replay (q : σ) (deeds : List Deed) : σ :=
  deeds.foldl (fun q deed => law.after q deed.effect deed.answer) q

@[simp] theorem replay_nil (q : σ) : law.replay q [] = q := rfl

@[simp] theorem replay_cons (q : σ) (deed : Deed) (deeds : List Deed) :
    law.replay q (deed :: deeds) =
      law.replay (law.after q deed.effect deed.answer) deeds := rfl

@[simp] theorem replay_append (q : σ) (first rest : List Deed) :
    law.replay q (first ++ rest) = law.replay (law.replay q first) rest :=
  List.foldl_append

end Law

/-- A program that obeys a law on all answers ends in a local state that it may end in. -/
theorem Program.Obeys.course {σ α : Type} {law : Law σ} {post : α → σ → Prop} {p : Program α}
    {q : σ} {deeds : List Deed} {result : α} (obeys : p.Obeys law post q)
    (course : p.Course deeds result) : post result (law.replay q deeds) := by
  induction p generalizing q deeds with
  | done value =>
    obtain ⟨rfl, rfl⟩ := course
    exact obeys
  | perform e next ih =>
    obtain ⟨answer, rest, rfl, onward⟩ := course
    have later := ih answer (obeys.2 answer).2 onward
    exact later

theorem Program.Only.course {α : Type} {allowed : Effect → Prop} {p : Program α}
    {deeds : List Deed} {result : α} (only : p.Only allowed) (course : p.Course deeds result) :
    ∀ deed ∈ deeds, allowed deed.effect := by
  induction p generalizing deeds with
  | done value =>
    obtain ⟨rfl, rfl⟩ := course
    exact nofun
  | perform e next ih =>
    obtain ⟨answer, rest, rfl, onward⟩ := course
    exact List.forall_mem_cons.mpr ⟨only.1, ih answer (only.2 answer).2 onward⟩

def trail : Law (Option (Operation × List Deed)) where
  idle := none
  start op := some (op, [])
  permits _ _ := True
  after q e answer := q.map fun (op, deeds) => (op, deeds ++ [⟨e, answer⟩])

namespace trail

variable {depth : Nat} {history : History} {op : Operation} {deeds : List Deed}

@[simp] theorem idle_eq : trail.idle = none := rfl

@[simp] theorem start_eq (op : Operation) : trail.start op = some (op, []) := rfl

@[simp] theorem after_some (e : Effect) (answer : e.Answer) :
    trail.after (some (op, deeds)) e answer = some (op, deeds ++ [⟨e, answer⟩]) := rfl

/-- Every law's local state is determined by what the call has done. -/
theorem state_eq_replay {σ : Type} (law : Law σ)
    (follows : trail.state depth history = some (op, deeds)) :
    law.state depth history = law.replay (law.start op) deeds := by
  refine @Law.state_related _ law _ trail
    (fun q r => ∀ op deeds, r = some (op, deeds) → q = law.replay (law.start op) deeds)
    nofun ?_ ?_ depth history op deeds follows
  · rintro op _ _ ⟨⟩
    rfl
  · rintro q r e answer ih op deeds same
    obtain ⟨⟨_, before⟩, rfl, same⟩ := Option.map_eq_some_iff.mp same
    cases same
    rw [ih _ _ rfl, Law.replay_append]
    rfl

end trail

def Traced (Begun : Operation → Target → Prop) (history : History) : List Frame → Prop
  | [] => True
  | .steps _ :: below => Traced Begun history below
  | .running op target rest :: below =>
    (Begun op target ∧ ∃ deeds, trail.state below.length history = some (op, deeds) ∧
      ∀ more round, rest.Course more round → (op.task target).Course (deeds ++ more) round) ∧
    Traced Begun history below

namespace Traced

variable {Begun : Operation → Target → Prop} {history : History}

theorem of_silent {entry : Entry} {stack : List Frame} (traced : Traced Begun history stack)
    (silent : ∀ depth < stack.length, Law.SilentAt depth entry) :
    Traced Begun (entry :: history) stack := by
  induction stack with
  | nil => trivial
  | cons frame below ih =>
    have lower : ∀ depth < below.length, Law.SilentAt depth entry := fun depth less =>
      silent depth (Nat.lt_succ_of_lt less)
    cases frame with
    | steps later => exact ih traced lower
    | running op target rest =>
      refine ⟨?_, ih traced.2 lower⟩
      rw [Law.state_of_silent (silent _ (Nat.lt_succ_self _))]
      exact traced.1

theorem of_awaits {step : Step} {stack below : List Frame} (traced : Traced Begun history stack)
    (awaits : Awaits step stack below) : Traced Begun history below := by
  cases awaits with
  | resting => trivial
  | nested => exact traced

end Traced

namespace Run

variable {admits : Machine → Step → Prop} {start m : Machine} {history : History}
  (Begun : Operation → Target → Prop) (resting : start.stack = [])
  (begins : ∀ m op, admits m (.operation op) → Begun op m.station.target)

include resting begins

theorem traced (run : Run admits start history m) : Traced Begun history m.stack := by
  refine Run.keeps (P := fun history _ stack => Traced Begun history stack)
    (by rw [resting]; trivial) (fun _ kept => kept) ?_ run
  intro history m entry after stack _ move admitted kept
  generalize m.stack = levels at move kept
  cases move with
  | @surround step _ below awaits surrounds =>
    refine (kept.of_awaits awaits).of_silent fun d _ => ?_
    cases step with
    | operation op => exact absurd rfl (surrounds op)
    | _ => trivial
  | @operate op _ below awaits =>
    have level := awaits.length_eq
    have lower := kept.of_awaits awaits
    refine ⟨⟨begins m op (admitted _ _ rfl), [], ?_, fun more round course => course⟩, ?_⟩
    · simp [level]
    · exact lower.of_silent fun d less => by
        change levels.length ≠ d
        omega
  | leave => exact kept
  | @act op target e next below pushed answer _ _ lets =>
    obtain ⟨⟨begun, deeds, follows, leads⟩, lower⟩ := kept
    have onward : Traced Begun (.acted below.length op e answer :: history)
        (.running op target (next answer) :: below) := by
      refine ⟨⟨begun, deeds ++ [⟨e, answer⟩], by simp [follows], fun more round course => ?_⟩, ?_⟩
      · rw [List.append_assoc]
        exact leads _ round ⟨answer, more, rfl, course⟩
      · exact lower.of_silent fun d less => by
          change below.length ≠ d
          omega
    -- Whom it lets in has no trail of his own yet.
    rcases lets with rfl | ⟨_, steps, rfl⟩
    · exact onward
    · exact onward
  | @renew op target below =>
    obtain ⟨⟨begun, _⟩, lower⟩ := kept
    refine ⟨⟨begun, [], by simp, fun more round course => course⟩, ?_⟩
    exact lower.of_silent fun d less => by
      change below.length ≠ d
      omega
  | finish =>
    exact kept.2.of_silent fun d less => by
      change stack.length ≠ d
      omega
  | abort => trivial

/-- A round that is over went the whole way of its program. -/
theorem round_course (run : Run admits start history m) {op : Operation} {target : Target}
    {round : Round Answer} {below : List Frame}
    (top : m.stack = .running op target (.done round) :: below) :
    ∃ deeds, Begun op target ∧ trail.state below.length history = some (op, deeds) ∧
      (op.task target).Course deeds round := by
  have traced := run.traced Begun resting begins
  rw [top] at traced
  obtain ⟨⟨begun, deeds, follows, leads⟩, _⟩ := traced
  refine ⟨deeds, begun, follows, ?_⟩
  simpa using leads [] round ⟨rfl, rfl⟩

theorem ended {later earlier : History} {depth : Nat} {op : Operation} {answer : Answer}
    (run : Run admits start (later ++ .ended depth op answer :: earlier) m) :
    ∃ target deeds, Begun op target ∧ trail.state depth earlier = some (op, deeds) ∧
      (op.task target).Course deeds (.finished answer) := by
  obtain ⟨before, reached, ⟨_, ⟨⟩, _⟩ | ⟨_, shown, _⟩⟩ := run.before
  obtain ⟨target, below, top, rfl⟩ := Machine.entry?_ended shown
  obtain ⟨deeds, known⟩ := round_course Begun resting begins reached top
  exact ⟨target, deeds, known⟩

end Run

theorem Run.trail_acted {admits : Machine → Step → Prop} {start m : Machine} {history : History}
    (resting : start.stack = []) (run : Run admits start history m) {depth : Nat} {op : Operation}
    {deeds : List Deed} (follows : trail.state depth history = some (op, deeds)) {deed : Deed}
    (member : deed ∈ deeds) : .acted depth op deed.effect deed.answer ∈ history := by
  refine Run.account (P := fun history _ => ∀ depth op deeds,
    trail.state depth history = some (op, deeds) → ∀ deed ∈ deeds,
      .acted depth op deed.effect deed.answer ∈ history) ?initial (fun _ kept => kept) ?surround
    ?operate ?act ?renew ?finish ?abort run depth op deeds follows deed member
  case initial => exact fun _ _ _ follows => nomatch follows
  case surround =>
    intro history m step below _ _ _ surrounds kept depth op deeds follows deed member
    rw [Law.state_surround surrounds] at follows
    exact .tail _ (kept depth op deeds follows deed member)
  case operate =>
    intro history m begun below _ _ _ kept depth op deeds follows deed member
    rw [Law.state_begun] at follows
    split at follows
    · cases follows
      cases member
    · exact .tail _ (kept depth op deeds follows deed member)
  case act =>
    intro history m acting target e next below answer after run top _ kept depth op deeds follows
      deed member
    have traced := run.traced (fun _ _ => True) resting fun _ _ _ => trivial
    rw [top] at traced
    obtain ⟨⟨_, before, known, _⟩, _⟩ := traced
    rw [Law.state_acted] at follows
    split at follows
    · rename_i here
      subst here
      rw [known, trail.after_some] at follows
      cases follows
      rcases List.mem_append.mp member with old | new
      · exact .tail _ (kept _ _ before known deed old)
      · rw [List.mem_singleton.mp new]
        exact .head _
    · exact .tail _ (kept depth op deeds follows deed member)
  case renew =>
    intro history m begun target below _ _ kept depth op deeds follows deed member
    rw [Law.state_renewed] at follows
    split at follows
    · cases follows
      cases member
    · exact .tail _ (kept depth op deeds follows deed member)
  case finish =>
    intro history m begun target answer below _ _ kept depth op deeds follows deed member
    rw [Law.state_ended] at follows
    split at follows
    · cases follows
    · exact .tail _ (kept depth op deeds follows deed member)
  case abort => exact fun _ _ _ _ _ _ _ follows => nomatch follows

/-- What an operation that obeys a law comes to, when a round of it is over in a run. -/
theorem Run.concludes {σ : Type} {law : Law σ} {post : Operation → Round Answer → σ → Prop}
    {admits : Machine → Step → Prop} {start m : Machine} {history : History}
    (resting : start.stack = [])
    (obeyed : ∀ m op, admits m (.operation op) →
      (op.task m.station.target).Obeys law (post op) (law.start op))
    (run : Run admits start history m) {op : Operation} {target : Target} {round : Round Answer}
    {below : List Frame} (top : m.stack = .running op target (.done round) :: below) :
    post op round (law.state below.length history) := by
  obtain ⟨deeds, obeys, follows, course⟩ := run.round_course
    (fun op target => (op.task target).Obeys law (post op) (law.start op)) resting obeyed top
  rw [trail.state_eq_replay law follows]
  exact obeys.course course

end EthernetMac
