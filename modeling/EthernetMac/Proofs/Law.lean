import EthernetMac.Proofs.History

/-! Laws on calls. A call builds up a local state from its own actions and their answers, and a law
says in which local states it may act, let other steps in, or end a round. An operation that obeys a
law on all answers obeys it in every run, however calls are nested. -/

namespace EthernetMac

structure Law (σ : Type) where
  idle : σ
  start : Operation → σ
  permits : σ → Effect → Prop
  after : σ → (e : Effect) → e.Answer → σ
  /-- Whether other steps may run before the call goes on. -/
  yields : σ → Prop := fun _ => True
  ends : σ → Prop := fun _ => True
  idle_yields : yields idle := by trivial

namespace Program

variable {σ α β : Type}

/-- Every action is permitted when its turn comes, whatever was answered before. -/
def Obeys (law : Law σ) (post : α → σ → Prop) : Program α → σ → Prop
  | done value, q => post value q
  | perform e next, q =>
    law.permits q e ∧ ∀ answer, (e.point?.isSome → law.yields (law.after q e answer)) ∧
      (next answer).Obeys law post (law.after q e answer)

variable {law : Law σ} {post : β → σ → Prop} {q : σ}

@[simp] theorem obeys_done (post : α → σ → Prop) (value : α) :
    (done value).Obeys law post q ↔ post value q := .rfl

@[simp] theorem obeys_pure (post : α → σ → Prop) (value : α) :
    (pure value : Program α).Obeys law post q ↔ post value q := .rfl

@[simp] theorem obeys_perform (e : Effect) (next : e.Answer → Program β) :
    (perform e next).Obeys law post q ↔
      law.permits q e ∧ ∀ answer, (e.point?.isSome → law.yields (law.after q e answer)) ∧
        (next answer).Obeys law post (law.after q e answer) := .rfl

@[simp] theorem obeys_bind (p : Program α) (f : α → Program β) :
    (p >>= f).Obeys law post q ↔
      p.Obeys law (fun value after => (f value).Obeys law post after) q := by
  change (p.bind f).Obeys law post q ↔ _
  induction p generalizing q with
  | done value => rfl
  | perform e next ih =>
    simp only [Program.bind, obeys_perform, ih]

@[simp] theorem obeys_map (f : α → β) (p : Program α) :
    (f <$> p).Obeys law post q ↔ p.Obeys law (fun value => post (f value)) q :=
  obeys_bind p fun value => done (f value)

theorem Obeys.mono {p : Program α} {weak strong : α → σ → Prop} (obeys : p.Obeys law strong q)
    (le : ∀ value q, strong value q → weak value q) : p.Obeys law weak q := by
  induction p generalizing q with
  | done value => exact le value q obeys
  | perform e next ih =>
    exact ⟨obeys.1, fun answer => ⟨(obeys.2 answer).1, ih answer (obeys.2 answer).2⟩⟩

theorem Obeys.reach {p : Program β} {r : σ} (obeys : p.Obeys law (fun _ after => after = r) q)
    (ends : ∀ value, post value r) : p.Obeys law post q :=
  obeys.mono fun value _ same => same ▸ ends value

theorem Obeys.andThen {p : Program α} {f : α → Program β} {r : σ}
    (first : p.Obeys law (fun _ after => after = r) q) (rest : ∀ value, (f value).Obeys law post r) :
    (p >>= f).Obeys law post q :=
  (obeys_bind p f).mpr (first.reach rest)

theorem Obeys.seq {p : Program α} {f : α → Program β}
    (first : p.Obeys law (fun _ after => after = q) q) (rest : ∀ value, (f value).Obeys law post q) :
    (p >>= f).Obeys law post q :=
  first.andThen rest

@[simp] theorem obeys_load (offset : Nat) (post : Word → σ → Prop) :
    (load offset).Obeys law post q ↔
      law.permits q (.load offset) ∧
        ∀ word : Word, law.yields (law.after q (.load offset) word) ∧
          post word (law.after q (.load offset) word) :=
  (obeys_perform (.load offset) done).trans (by simp [Effect.point?])

@[simp] theorem obeys_store (offset : Nat) (value : Word) (post : Unit → σ → Prop) :
    (store offset value).Obeys law post q ↔
      law.permits q (.store offset value) ∧ law.yields (law.after q (.store offset value) ()) ∧
        post () (law.after q (.store offset value) ()) :=
  ⟨fun obeys => ⟨obeys.1, (obeys.2 ()).1 rfl, (obeys.2 ()).2⟩,
    fun obeys => ⟨obeys.1, fun _ => ⟨fun _ => obeys.2.1, obeys.2.2⟩⟩⟩

@[simp] theorem obeys_fail (cause : Fault) :
    (fail cause : Program β).Obeys law post q ↔ law.permits q (.fault cause) :=
  ⟨And.left, fun permitted => ⟨permitted, nofun⟩⟩

@[simp] theorem obeys_locked (p : Program β) :
    (locked p).Obeys law post q ↔
      (act .acquire).Obeys law (fun _ after => p.Obeys law (fun value after =>
        (act .release).Obeys law (fun _ after => post value after) after) after) q := by
  simp only [locked, obeys_bind, obeys_pure]

@[simp] theorem obeys_discard (p : Program α) (post : Unit → σ → Prop) :
    (discard p).Obeys law post q ↔ p.Obeys law (fun _ => post ()) q :=
  obeys_bind p fun _ => done ()

@[simp] theorem obeys_once (p : Program α) (answer : α → Answer)
    (post : Round Answer → σ → Prop) :
    (Task.once p answer).Obeys law post q ↔
      p.Obeys law (fun value after => post (.finished (answer value)) after) q :=
  obeys_bind p fun value => done (Round.finished (answer value))

@[simp] theorem obeys_onlyIf (condition : Bool) (p : Program Unit) (post : Unit → σ → Prop) :
    (onlyIf condition p).Obeys law post q ↔
      (condition = true → p.Obeys law post q) ∧ (condition = false → post () q) := by
  cases condition <;> simp [onlyIf]

theorem Obeys.onlyIf {condition : Bool} {p : Program Unit}
    (first : condition = true → p.Obeys law (fun _ after => after = q) q) :
    (onlyIf condition p).Obeys law (fun _ after => after = q) q :=
  (obeys_onlyIf ..).mpr ⟨first, fun _ => rfl⟩

theorem obeys_ite (condition : Prop) [Decidable condition] (p r : Program β) :
    (if condition then p else r).Obeys law post q ↔
      (condition → p.Obeys law post q) ∧ (¬ condition → r.Obeys law post q) := by
  by_cases h : condition <;> simp [h]

theorem obeys_forM (items : List α) (body : α → Program Unit) (keeps : σ → Prop)
    (round : ∀ item ∈ items, ∀ q, keeps q → (body item).Obeys law (fun _ => keeps) q)
    (kept : keeps q) : (items.forM body).Obeys law (fun _ => keeps) q := by
  induction items generalizing q with
  | nil => exact kept
  | cons item rest ih =>
    change (body item >>= fun _ => rest.forM body).Obeys law _ q
    rw [obeys_bind]
    refine (round item (by simp) q kept).mono ?_
    intro _ after kept
    exact ih (fun other member => round other (by simp [member])) kept

end Program

def Law.only (allowed : Effect → Prop) : Law Unit where
  idle := ()
  start _ := ()
  permits _ := allowed
  after _ _ _ := ()

namespace Program

variable {α β : Type} {allowed : Effect → Prop}

def Only (allowed : Effect → Prop) (p : Program α) : Prop :=
  p.Obeys (.only allowed) (fun _ _ => True) ()

namespace Only

theorem pure (value : α) : (Pure.pure value : Program α).Only allowed := trivial

theorem act {e : Effect} (inside : allowed e) : (act e).Only allowed :=
  ⟨inside, fun _ => ⟨fun _ => trivial, trivial⟩⟩

theorem store {offset : Nat} {value : Word} (inside : allowed (.store offset value)) :
    (store offset value).Only allowed :=
  act inside

theorem fail {cause : Fault} (inside : allowed (.fault cause)) :
    (fail cause : Program α).Only allowed :=
  ⟨inside, nofun⟩

theorem bind {p : Program α} {f : α → Program β} (first : p.Only allowed)
    (rest : ∀ value, (f value).Only allowed) : (p >>= f).Only allowed :=
  (obeys_bind p f).mpr (first.mono fun value _ _ => rest value)

theorem onlyIf {condition : Bool} {p : Program Unit} (inside : p.Only allowed) :
    (onlyIf condition p).Only allowed :=
  (obeys_onlyIf ..).mpr ⟨fun _ => inside, fun _ => trivial⟩

theorem ite {condition : Prop} [Decidable condition] {p r : Program α} (yes : p.Only allowed)
    (no : r.Only allowed) : (if condition then p else r).Only allowed :=
  (obeys_ite ..).mpr ⟨fun _ => yes, fun _ => no⟩

end Only

theorem Only.mono {weak : Effect → Prop} {p : Program α} (only : p.Only allowed)
    (le : ∀ e, allowed e → weak e) : p.Only weak := by
  induction p with
  | done value => trivial
  | perform e next ih =>
    exact ⟨le e only.1, fun answer => ⟨fun _ => trivial, ih answer (only.2 answer).2⟩⟩

theorem Only.and {other : Effect → Prop} {p : Program α} (only : p.Only allowed)
    (too : p.Only other) : p.Only fun e => allowed e ∧ other e := by
  induction p with
  | done value => trivial
  | perform e next ih =>
    exact ⟨⟨only.1, too.1⟩, fun answer =>
      ⟨fun _ => trivial, ih answer (only.2 answer).2 (too.2 answer).2⟩⟩

theorem only_true (p : Program α) : p.Only fun _ => True := by
  induction p with
  | done value => trivial
  | perform e next ih => exact ⟨trivial, fun answer => ⟨fun _ => trivial, ih answer⟩⟩

end Program

def Law.Ignores {σ : Type} (law : Law σ) (q : σ) (e : Effect) : Prop :=
  law.permits q e ∧ ∀ answer, law.after q e answer = q

namespace Program

variable {α : Type} {allowed : Effect → Prop}

/-- Actions that a law ignores can all be performed. -/
theorem Obeys.of_only {σ : Type} {law : Law σ} {q : σ} {p : Program α} (only : p.Only allowed)
    (ignores : ∀ e, allowed e → law.Ignores q e) (yields : law.yields q) :
    p.Obeys law (fun _ after => after = q) q := by
  induction p with
  | done value => rfl
  | perform e next ih =>
    obtain ⟨permitted, stays⟩ := ignores e only.1
    refine ⟨permitted, fun answer => ?_⟩
    rw [stays answer]
    exact ⟨fun _ => yields, ih answer (only.2 answer).2⟩

end Program

namespace Law

variable {σ : Type}

def note (law : Law σ) (depth : Nat) : Entry → σ → σ
  | .begun d (.operation op), q => if d = depth then law.start op else q
  | .begun _ _, q => q
  | .acted d _ e answer, q => if d = depth then law.after q e answer else q
  | .renewed d op, q => if d = depth then law.start op else q
  | .ended d _ _, q => if d = depth then law.idle else q
  | .faulted _, _ => law.idle

/-- The local state at `depth`: what the call in progress there has done. -/
def state (law : Law σ) (depth : Nat) : History → σ
  | [] => law.idle
  | entry :: earlier => law.note depth entry (state law depth earlier)

variable {law : Law σ} {depth d : Nat} {history : History}

@[simp] theorem state_begun (op : Operation) :
    law.state depth (.begun d (.operation op) :: history) =
      if d = depth then law.start op else law.state depth history := rfl

@[simp] theorem state_acted (op : Operation) (e : Effect) (answer : e.Answer) :
    law.state depth (.acted d op e answer :: history) =
      if d = depth then law.after (law.state depth history) e answer
      else law.state depth history := rfl

@[simp] theorem state_renewed (op : Operation) :
    law.state depth (.renewed d op :: history) =
      if d = depth then law.start op else law.state depth history := rfl

@[simp] theorem state_ended (op : Operation) (answer : Answer) :
    law.state depth (.ended d op answer :: history) =
      if d = depth then law.idle else law.state depth history := rfl

@[simp] theorem state_faulted (cause : Fault) :
    law.state depth (.faulted cause :: history) = law.idle := rfl

theorem state_surround {step : Step} (surrounds : ∀ op, step ≠ .operation op) :
    law.state depth (.begun d step :: history) = law.state depth history := by
  cases step with
  | operation op => exact absurd rfl (surrounds op)
  | _ => rfl

end Law

def calls : Law (Option Operation) where
  idle := none
  start := some
  permits _ _ := True
  after q _ _ := q

namespace calls

@[simp] theorem idle_eq : calls.idle = none := rfl

@[simp] theorem start_eq (op : Operation) : calls.start op = some op := rfl

@[simp] theorem after_eq (q : Option Operation) (e : Effect) (answer : e.Answer) :
    calls.after q e answer = q := rfl

end calls

def drains : Law (Option Word) where
  idle := none
  start _ := none
  permits _ _ := True
  after q e answer :=
    match e, answer with
    | .drain, word => some word
    | _, _ => q

def Frame.operation? : Frame → Option Operation
  | .steps _ => none
  | .running op _ _ => some op

namespace Law

variable {σ : Type} (law : Law σ)

def Holds (history : History) (depth : Nat) : Frame → Prop
  | .steps _ => law.state depth history = law.idle ∧ calls.state depth history = none
  | .running op target rest =>
    calls.state depth history = some op ∧
      rest.Obeys law (fun _ => law.ends) (law.state depth history) ∧
      (op.task target).Obeys law (fun _ => law.ends) (law.start op)

/-- Every level holds, and those that wait for the ones above let other steps in. -/
def Governs (history : History) : List Frame → Prop
  | [] => True
  | frame :: below =>
    law.Holds history below.length frame ∧ Governs history below ∧
      ∀ depth < below.length, law.yields (law.state depth history)

def Empty (history : History) (depth : Nat) : Prop :=
  ∀ d, depth ≤ d → law.state d history = law.idle ∧ calls.state d history = none

end Law

namespace Law

variable {σ : Type} {law : Law σ} {depth d : Nat} {history : History}

def SilentAt (depth : Nat) : Entry → Prop
  | .begun d (.operation _) => d ≠ depth
  | .begun _ _ => True
  | .acted d _ _ _ => d ≠ depth
  | .renewed d _ => d ≠ depth
  | .ended d _ _ => d ≠ depth
  | .faulted _ => False

theorem state_of_silent {entry : Entry} (silent : SilentAt depth entry) :
    law.state depth (entry :: history) = law.state depth history := by
  match entry, silent with
  | .begun d (.operation op), silent => simp [show d ≠ depth from silent]
  | .begun d (.set _ _), _ => rfl
  | .begun d (.get _), _ => rfl
  | .begun d (.raiseChannel _), _ => rfl
  | .begun d .raiseLink, _ => rfl
  | .begun d (.busy _), _ => rfl
  | .begun d (.host _), _ => rfl
  | .begun d (.hook _ _), _ => rfl
  | .acted d op e answer, silent => simp [show d ≠ depth from silent]
  | .renewed d op, silent => simp [show d ≠ depth from silent]
  | .ended d op answer, silent => simp [show d ≠ depth from silent]

/-- Two laws that look at the same calls keep what relates their local states. -/
theorem state_related {τ : Type} {other : Law τ} (R : σ → τ → Prop) (idle : R law.idle other.idle)
    (start : ∀ op, R (law.start op) (other.start op))
    (after : ∀ q r e answer, R q r → R (law.after q e answer) (other.after r e answer))
    (depth : Nat) (history : History) : R (law.state depth history) (other.state depth history) := by
  induction history with
  | nil => exact idle
  | cons entry earlier ih =>
    by_cases silent : SilentAt depth entry
    · rw [state_of_silent silent, state_of_silent silent]
      exact ih
    · cases entry with
      | begun d step =>
        cases step with
        | operation op =>
          have here : d = depth := by simpa [SilentAt] using silent
          simpa [here] using start op
        | _ => exact absurd trivial silent
      | acted d op e answer =>
        have here : d = depth := by simpa [SilentAt] using silent
        simpa [here] using after _ _ e answer ih
      | renewed d op =>
        have here : d = depth := by simpa [SilentAt] using silent
        simpa [here] using start op
      | ended d op answer =>
        have here : d = depth := by simpa [SilentAt] using silent
        simpa [here] using idle
      | faulted cause => exact idle

theorem state_map {τ : Type} {other : Law τ} (part : σ → τ) (idle : part law.idle = other.idle)
    (start : ∀ op, part (law.start op) = other.start op)
    (after : ∀ q e answer, part (law.after q e answer) = other.after (part q) e answer)
    (depth : Nat) (history : History) :
    part (law.state depth history) = other.state depth history :=
  state_related (fun q r => part q = r) idle start
    (fun q _ e answer same => same ▸ after q e answer) depth history

theorem Holds.of_silent {entry : Entry} {frame : Frame} (holds : law.Holds history depth frame)
    (silent : SilentAt depth entry) : law.Holds (entry :: history) depth frame := by
  cases frame <;> simpa only [Holds, state_of_silent silent] using holds

theorem Governs.of_silent {entry : Entry} {stack : List Frame} (governs : law.Governs history stack)
    (silent : ∀ depth < stack.length, SilentAt depth entry) :
    law.Governs (entry :: history) stack := by
  induction stack with
  | nil => trivial
  | cons frame below ih =>
    obtain ⟨top, rest, yields⟩ := governs
    have lower : ∀ depth < below.length, SilentAt depth entry := fun depth less =>
      silent depth (Nat.lt_succ_of_lt less)
    refine ⟨top.of_silent (silent _ (Nat.lt_succ_self _)), ih rest lower, fun depth less => ?_⟩
    rw [state_of_silent (lower depth less)]
    exact yields depth less

theorem Empty.of_silent {entry : Entry} (empty : law.Empty history depth)
    (silent : ∀ d, depth ≤ d → SilentAt d entry) : law.Empty (entry :: history) depth := by
  intro d le
  rw [state_of_silent (silent d le), state_of_silent (silent d le)]
  exact empty d le

theorem Empty.mono {upper : Nat} (empty : law.Empty history depth) (le : depth ≤ upper) :
    law.Empty history upper :=
  fun d above => empty d (Nat.le_trans le above)

theorem Governs.of_awaits {step : Step} {stack below : List Frame}
    (governs : law.Governs history stack) (awaits : Awaits step stack below) :
    below.length = stack.length ∧ law.Governs history below ∧
      ∀ depth < below.length, law.yields (law.state depth history) := by
  cases awaits with
  | resting => exact ⟨rfl, governs, nofun⟩
  | @nested later lower =>
    obtain ⟨top, rest, yields⟩ := governs
    refine ⟨rfl, ⟨top, rest, yields⟩, fun depth less => ?_⟩
    rw [List.length_cons] at less
    rcases (by omega : depth < lower.length ∨ depth = lower.length) with under | rfl
    · exact yields depth under
    · rw [top.1]
      exact law.idle_yields

section Moves

variable {op : Operation} {target : Target} {below : List Frame}

theorem Governs.operate {n : Nat} (lower : law.Governs history below)
    (yields : ∀ depth < below.length, law.yields (law.state depth history))
    (empty : law.Empty history n) (depth : below.length = n)
    (obeys : (op.task target).Obeys law (fun _ => law.ends) (law.start op)) :
    law.Governs (.begun n (.operation op) :: history)
        (.running op target (op.task target) :: below) ∧
      law.Empty (.begun n (.operation op) :: history) (n + 1) := by
  subst depth
  have silent : ∀ d, d ≠ below.length → SilentAt d (.begun below.length (.operation op)) :=
    fun d other => Ne.symm other
  refine ⟨⟨⟨?_, ?_, obeys⟩, lower.of_silent fun d less => silent d (by omega),
    fun d less => ?_⟩, ?_⟩
  · simp
  · simpa using obeys
  · rw [state_of_silent (silent d (by omega))]
    exact yields d less
  · exact (empty.mono (Nat.le_succ _)).of_silent fun d le => silent d (by omega)

theorem Governs.act {e : Effect} {next : e.Answer → Task} {pushed : List Frame} {answer : e.Answer}
    (governs : law.Governs history (.running op target (.perform e next) :: below))
    (empty : law.Empty history (below.length + 1))
    (lets : pushed = [] ∨ e.point?.isSome ∧ ∃ steps, pushed = [.steps steps]) :
    law.Governs (.acted below.length op e answer :: history)
        (pushed ++ .running op target (next answer) :: below) ∧
      law.Empty (.acted below.length op e answer :: history)
        (pushed ++ .running op target (next answer) :: below).length := by
  obtain ⟨⟨called, obeys, restarts⟩, lower, yields⟩ := governs
  have silent : ∀ d, d ≠ below.length → SilentAt d (.acted below.length op e answer) :=
    fun d other => Ne.symm other
  have goesOn : law.Governs (.acted below.length op e answer :: history)
      (.running op target (next answer) :: below) := by
    refine ⟨⟨?_, ?_, restarts⟩, lower.of_silent fun d less => silent d (by omega),
      fun d less => ?_⟩
    · simpa using called
    · simpa using (obeys.2 answer).2
    · rw [state_of_silent (silent d (by omega))]
      exact yields d less
  have above : law.Empty (.acted below.length op e answer :: history) (below.length + 1) :=
    empty.of_silent fun d le => silent d (by omega)
  rcases lets with rfl | ⟨lets, steps, rfl⟩
  · exact ⟨goesOn, above⟩
  · -- The hooks run above the call, which yields while they do.
    refine ⟨⟨above _ (Nat.le_refl _), goesOn, fun d less => ?_⟩, above.mono (Nat.le_succ _)⟩
    have level : d < below.length + 1 := less
    rcases (by omega : d < below.length ∨ d = below.length) with lower | rfl
    · exact goesOn.2.2 d lower
    · simpa using (obeys.2 answer).1 lets

theorem Governs.renew {task : Task} (governs : law.Governs history (.running op target task :: below))
    (empty : law.Empty history (below.length + 1)) :
    law.Governs (.renewed below.length op :: history)
        (.running op target (op.task target) :: below) ∧
      law.Empty (.renewed below.length op :: history) (below.length + 1) := by
  obtain ⟨⟨called, _, restarts⟩, lower, yields⟩ := governs
  have silent : ∀ d, d ≠ below.length → SilentAt d (.renewed below.length op) :=
    fun d other => Ne.symm other
  refine ⟨⟨⟨?_, ?_, restarts⟩, lower.of_silent fun d less => silent d (by omega),
    fun d less => ?_⟩, empty.of_silent fun d le => silent d (by omega)⟩
  · simp
  · simpa using restarts
  · rw [state_of_silent (silent d (by omega))]
    exact yields d less

theorem Governs.finish {task : Task} (governs : law.Governs history (.running op target task :: below))
    (empty : law.Empty history (below.length + 1)) (answer : Answer) :
    law.Governs (.ended below.length op answer :: history) below ∧
      law.Empty (.ended below.length op answer :: history) below.length := by
  obtain ⟨_, lower, _⟩ := governs
  have silent : ∀ d, d ≠ below.length → SilentAt d (.ended below.length op answer) :=
    fun d other => Ne.symm other
  refine ⟨lower.of_silent fun d less => silent d (by omega), fun d le => ?_⟩
  rcases Nat.eq_or_lt_of_le le with rfl | above
  · simp
  · rw [state_of_silent (silent d (by omega)),
      state_of_silent (silent d (by omega))]
    exact empty d above

end Moves

end Law

/-- An operation that obeys a law obeys it in every run that starts at rest. -/
theorem Run.governs {σ : Type} {law : Law σ} {admits : Machine → Step → Prop} {start m : Machine}
    {history : History} (resting : start.stack = [])
    (obeyed : ∀ m op, admits m (.operation op) →
      (op.task m.station.target).Obeys law (fun _ => law.ends) (law.start op))
    (run : Run admits start history m) :
    law.Governs history m.stack ∧ law.Empty history m.stack.length := by
  refine Run.keeps (P := fun history _ stack =>
    law.Governs history stack ∧ law.Empty history stack.length) ?_ (fun _ kept => kept) ?_ run
  · rw [resting]
    exact ⟨trivial, fun _ _ => ⟨rfl, rfl⟩⟩
  · intro history m entry after stack _ move admitted kept
    obtain ⟨governs, empty⟩ := kept
    generalize m.stack = levels at move governs empty
    cases move with
    | @surround step _ below awaits surrounds =>
      obtain ⟨depth, lower, _⟩ := governs.of_awaits awaits
      have silent : ∀ d, Law.SilentAt d (.begun levels.length step) := by
        intro d
        cases step with
        | operation op => exact absurd rfl (surrounds op)
        | _ => trivial
      rw [depth]
      exact ⟨lower.of_silent fun d _ => silent d, empty.of_silent fun d _ => silent d⟩
    | @operate op _ below awaits =>
      obtain ⟨depth, lower, yields⟩ := governs.of_awaits awaits
      have opened := lower.operate yields empty depth (obeyed m op (admitted _ _ rfl))
      rw [← depth] at opened ⊢
      exact opened
    | leave =>
      obtain ⟨top, lower, _⟩ := governs
      refine ⟨lower, fun d le => ?_⟩
      rcases Nat.eq_or_lt_of_le le with rfl | above
      · exact top
      · exact empty d above
    | act _ lets => exact governs.act empty lets
    | renew => exact governs.renew empty
    | @finish op target answer => exact governs.finish empty answer
    | abort applied => exact ⟨trivial, fun _ _ => ⟨rfl, rfl⟩⟩

namespace Law

variable {σ : Type}

structure Acting (law : Law σ) (history : History) (depth : Nat) (op : Operation) (e : Effect) :
    Prop where
  called : calls.state depth history = some op
  permitted : law.permits (law.state depth history) e
  below : ∀ d < depth, law.yields (law.state d history)
  above : ∀ d, depth < d → law.state d history = law.idle
  vacant : ∀ d, depth < d → calls.state d history = none

structure Opening (law : Law σ) (history : History) (depth : Nat) : Prop where
  below : ∀ d < depth, law.yields (law.state d history)
  above : ∀ d, depth ≤ d → law.state d history = law.idle
  vacant : ∀ d, depth ≤ d → calls.state d history = none

theorem Opening.idle {law : Law σ} {history : History} {depth : Nat}
    (opening : law.Opening history depth) : law.state depth history = law.idle :=
  opening.above depth (Nat.le_refl depth)

end Law

def Rounds (P : Nat → Operation → History → Prop) : History → Prop
  | [] => True
  | .renewed depth op :: earlier | .ended depth op _ :: earlier =>
    P depth op earlier ∧ Rounds P earlier
  | _ :: earlier => Rounds P earlier

namespace Run

variable {σ : Type} {law : Law σ} {admits : Machine → Step → Prop} {start m : Machine}
  {history : History} (resting : start.stack = [])
  (obeyed : ∀ m op, admits m (.operation op) →
    (op.task m.station.target).Obeys law (fun _ => law.ends) (law.start op))
  (run : Run admits start history m)

include resting obeyed run

theorem acting {op : Operation} {target : Target} {e : Effect} {next : e.Answer → Task}
    {below : List Frame} (top : m.stack = .running op target (.perform e next) :: below) :
    law.Acting history below.length op e := by
  obtain ⟨governs, empty⟩ := run.governs resting obeyed
  rw [top] at governs empty
  exact ⟨governs.1.1, governs.1.2.1.1, governs.2.2, fun d above => (empty d above).1,
    fun d above => (empty d above).2⟩

theorem ending {op : Operation} {target : Target} {round : Round Answer} {below : List Frame}
    (top : m.stack = .running op target (.done round) :: below) :
    calls.state below.length history = some op ∧ law.ends (law.state below.length history) := by
  obtain ⟨governs, _⟩ := run.governs resting obeyed
  rw [top] at governs
  exact ⟨governs.1.1, governs.1.2.1⟩

/-- What follows from the end of a round holds of all of them. -/
theorem rounds {P : Nat → Operation → History → Prop}
    (settles : ∀ depth op history, calls.state depth history = some op →
      law.ends (law.state depth history) → P depth op history) : Rounds P history := by
  refine Run.account (P := fun history _ => Rounds P history) trivial (fun _ kept => kept)
    (fun _ _ _ _ kept => kept) (fun _ _ _ kept => kept) (fun _ _ _ kept => kept) ?_ ?_
    (fun _ _ _ kept => kept) run
  · intro history m op target below run top kept
    obtain ⟨called, ends⟩ := run.ending resting obeyed top
    exact ⟨settles _ _ _ called ends, kept⟩
  · intro history m op target answer below run top kept
    obtain ⟨called, ends⟩ := run.ending resting obeyed top
    exact ⟨settles _ _ _ called ends, kept⟩

theorem opening {step : Step} {below : List Frame} (awaits : Awaits step m.stack below) :
    law.Opening history m.stack.length := by
  obtain ⟨governs, empty⟩ := run.governs resting obeyed
  obtain ⟨depth, _, yields⟩ := governs.of_awaits awaits
  rw [depth] at yields
  exact ⟨yields, fun d le => (empty d le).1, fun d le => (empty d le).2⟩

/-- A call that may neither let others in nor be over acts next. -/
theorem next (depth : Nat) (waits : ¬ law.yields (law.state depth history))
    (unfinished : ¬ law.ends (law.state depth history)) :
    ∃ (op : Operation) (target : Target) (e : Effect) (next : e.Answer → Task)
      (below : List Frame), m.stack = .running op target (.perform e next) :: below ∧
      below.length = depth ∧ calls.state depth history = some op ∧
      law.permits (law.state depth history) e := by
  obtain ⟨governs, empty⟩ := run.governs resting obeyed
  have inside : depth < m.stack.length := by
    refine Nat.lt_of_not_le fun le => waits ?_
    rw [(empty depth le).1]
    exact law.idle_yields
  revert governs inside
  cases m.stack with
  | nil => exact fun _ inside => nomatch inside
  | cons frame below =>
    rintro ⟨holds, _, yields⟩ inside
    rw [List.length_cons] at inside
    rcases (by omega : depth < below.length ∨ depth = below.length) with lower | rfl
    · exact absurd (yields depth lower) waits
    · cases frame with
      | steps later =>
        rw [holds.1] at waits
        exact absurd law.idle_yields waits
      | running op target rest =>
        obtain ⟨called, obeys, _⟩ := holds
        cases rest with
        | done round => exact absurd obeys unfinished
        | perform e next => exact ⟨op, target, e, next, below, rfl, rfl, called, obeys.1⟩

/-- What the history calls in progress is somewhere on the stack. -/
theorem in_stack {depth : Nat} {op : Operation} (called : calls.state depth history = some op) :
    ∃ frame ∈ m.stack, frame.operation? = some op := by
  obtain ⟨governs, empty⟩ := run.governs resting obeyed
  have inside : depth < m.stack.length := by
    refine Nat.lt_of_not_le ?_
    intro le
    rw [(empty depth le).2] at called
    cases called
  revert governs inside
  generalize m.stack = levels
  intro governs inside
  induction levels with
  | nil => cases inside
  | cons frame below ih =>
    obtain ⟨holds, rest, _⟩ := governs
    rw [List.length_cons] at inside
    rcases (by omega : depth < below.length ∨ depth = below.length) with lower | rfl
    · obtain ⟨found, member, same⟩ := ih rest lower
      exact ⟨found, .tail _ member, same⟩
    · cases frame with
      | steps later =>
        rw [holds.2] at called
        cases called
      | running other target rest =>
        rw [holds.1] at called
        exact ⟨_, .head _, called⟩

end Run

end EthernetMac
