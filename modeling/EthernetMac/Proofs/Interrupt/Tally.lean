import EthernetMac.Proofs.Interrupt.Bookkeeping

/-! The counters account for what happened to the device: between the calls all that was done balances,
and what is counted is what there was to count. -/

namespace EthernetMac

open Program

def tally : History → List Item
  | [] => []
  | .begun _ (.operation (.prepare _ _)) :: _ => []
  | .acted depth op e answer :: earlier =>
    Item.ofAction (some op) (takes.state depth earlier) e answer ++ tally earlier
  | .ended _ op answer :: earlier => Item.ofAnswer op answer ++ tally earlier
  | _ :: earlier => tally earlier

def inHand (history : History) : Nat → List Item
  | 0 => []
  | depth + 1 => (bookLaw.state depth history).items ++ inHand history depth

theorem inHand_of_silent {entry : Entry} {history : History} {depth : Nat}
    (silent : ∀ d < depth, Law.SilentAt d entry) :
    inHand (entry :: history) depth = inHand history depth := by
  induction depth with
  | zero => rfl
  | succ depth ih =>
    rw [inHand, inHand, Law.state_of_silent (silent depth (Nat.lt_succ_self depth)),
      ih fun d less => silent d (Nat.lt_succ_of_lt less)]

theorem items_acted {depth : Nat} {op : Operation} {e : Effect} {answer : e.Answer} {history : History}
    (called : calls.state depth history = some op) :
    (bookLaw.state depth (.acted depth op e answer :: history)).items =
      Item.ofAction (some op) (takes.state depth history) e answer ++
        (bookLaw.state depth history).items := by
  rw [Law.state_acted, if_pos rfl, ← called, ← bookLaw.call_eq, ← bookLaw.taken_eq]
  rfl

theorem tally_operate {depth : Nat} {op : Operation} {history : History}
    (other : ∀ config resources, op ≠ .prepare config resources) :
    tally (.begun depth (.operation op) :: history) = tally history := by
  cases op with
  | prepare config resources => exact absurd rfl (other config resources)
  | _ => rfl

/-- What was tallied is what the rounds that are over did, which balances, and what the calls in
progress have in hand. -/
def Balances (history : History) (levels : Nat) : Prop :=
  ∃ settled, Balanced settled ∧
    ∀ item, (tally history).count item = settled.count item + (inHand history levels).count item

namespace Balances

variable {history : History} {depth : Nat} {op : Operation}

theorem level (balances : Balances history depth)
    (idle : bookLaw.state depth history = bookLaw.idle) : Balances history (depth + 1) := by
  obtain ⟨settled, balanced, tallied⟩ := balances
  refine ⟨settled, balanced, fun item => ?_⟩
  rw [tallied, inHand, idle]
  rfl

theorem leave (balances : Balances history (depth + 1))
    (idle : bookLaw.state depth history = bookLaw.idle) : Balances history depth := by
  obtain ⟨settled, balanced, tallied⟩ := balances
  refine ⟨settled, balanced, fun item => ?_⟩
  rw [tallied, inHand, idle]
  rfl

theorem surround {step : Step} (balances : Balances history depth)
    (surrounds : ∀ op, step ≠ .operation op) : Balances (.begun depth step :: history) depth := by
  cases step with
  | operation op => exact absurd rfl (surrounds op)
  | _ =>
    obtain ⟨settled, balanced, tallied⟩ := balances
    refine ⟨settled, balanced, fun item => (tallied item).trans ?_⟩
    rw [inHand_of_silent]
    intro _ _
    trivial

theorem operate (balances : Balances history depth)
    (bottom : ∀ config resources, op = .prepare config resources → depth = 0) :
    Balances (.begun depth (.operation op) :: history) (depth + 1) := by
  by_cases prepares : ∃ config resources, op = .prepare config resources
  · obtain ⟨config, resources, rfl⟩ := prepares
    cases bottom _ _ rfl
    exact ⟨[], by decide, fun _ => rfl⟩
  · obtain ⟨settled, balanced, tallied⟩ := balances
    have lower : inHand (.begun depth (.operation op) :: history) depth = inHand history depth :=
      inHand_of_silent fun d less => Nat.ne_of_gt less
    refine ⟨settled, balanced, fun item => ?_⟩
    rw [tally_operate fun config resources same => prepares ⟨config, resources, same⟩, tallied, inHand,
      lower, Law.state_begun, if_pos rfl]
    rfl

theorem act {e : Effect} {answer : e.Answer} (balances : Balances history (depth + 1))
    (called : calls.state depth history = some op) :
    Balances (.acted depth op e answer :: history) (depth + 1) := by
  obtain ⟨settled, balanced, tallied⟩ := balances
  refine ⟨settled, balanced, fun item => ?_⟩
  have lower : inHand (.acted depth op e answer :: history) depth = inHand history depth :=
    inHand_of_silent fun d less => Nat.ne_of_gt less
  rw [tally, inHand, items_acted called, lower, List.count_append, tallied, inHand]
  simp only [List.count_append]
  omega

theorem renew (balances : Balances history (depth + 1))
    (settles : bookLaw.Settled op .again (bookLaw.state depth history)) :
    Balances (.renewed depth op :: history) (depth + 1) := by
  obtain ⟨settled, balanced, tallied⟩ := balances
  have lower : inHand (.renewed depth op :: history) depth = inHand history depth :=
    inHand_of_silent fun d less => Nat.ne_of_gt less
  refine ⟨(bookLaw.state depth history).items ++ settled, settles.append balanced, fun item => ?_⟩
  rw [inHand, lower, Law.state_renewed, if_pos rfl]
  refine (tallied item).trans ?_
  rw [inHand]
  simp only [List.count_append, bookLaw.start_eq, List.count_nil]
  omega

theorem finish {answer : Answer} (balances : Balances history (depth + 1))
    (settles : bookLaw.Settled op (.finished answer) (bookLaw.state depth history)) :
    Balances (.ended depth op answer :: history) depth := by
  obtain ⟨settled, balanced, tallied⟩ := balances
  have lower : inHand (.ended depth op answer :: history) depth = inHand history depth :=
    inHand_of_silent fun d less => Nat.ne_of_gt less
  refine ⟨_, settles.append balanced, fun item => ?_⟩
  rw [tally, lower, List.count_append, tallied, inHand, Item.ofRound]
  simp only [List.count_append]
  omega

end Balances

namespace Run

variable {start m : Machine} {history : History}

theorem book_obeyed (m : Machine) (op : Operation) (admitted : windowLaw.Admits m (.operation op)) :
    (op.task m.station.target).Obeys bookLaw (fun _ => bookLaw.ends) (bookLaw.start op) :=
  (bookLaw.task admitted).mono fun _ _ _ => trivial

theorem balances (resting : start.stack = []) (run : Run windowLaw.Admits start history m)
    (faultless : history.filterMap Entry.fault? = []) : Balances history m.stack.length := by
  refine Run.keeps (P := fun history _ stack =>
    history.filterMap Entry.fault? = [] → Balances history stack.length) ?_ (fun _ kept => kept) ?_
    run faultless
  · intro _
    rw [resting]
    exact ⟨[], by decide, fun _ => rfl⟩
  · intro history m entry after stack run move admitted kept faultless
    obtain ⟨governs, empty⟩ := run.governs resting book_obeyed
    generalize shape : m.stack = levels at move governs empty kept
    cases move with
    | @surround step _ below awaits surrounds =>
      rw [awaits.length_eq]
      exact (kept faultless).surround surrounds
    | @operate op _ below awaits =>
      rw [List.length_cons, awaits.length_eq]
      refine (kept faultless).operate ?_
      rintro config resources rfl
      rw [← shape, (admitted _ _ rfl).1]
      rfl
    | leave => exact (kept faultless).leave governs.1.1
    | @act op target e next below pushed answer _ _ lets =>
      have acted : Balances (.acted below.length op e answer :: history) (below.length + 1) :=
        (kept faultless).act governs.1.1
      -- Whoever is let in has done nothing yet.
      rcases lets with rfl | ⟨_, steps, rfl⟩
      · exact acted
      · refine acted.level ((Law.state_of_silent ?_).trans (empty _ (Nat.le_refl _)).1)
        exact Nat.ne_of_lt (Nat.lt_succ_self below.length)
    | @renew op target below =>
      exact (kept faultless).renew (run.concludes resting (fun _ _ => bookLaw.task) shape)
    | @finish op target answer below =>
      exact (kept faultless).finish (run.concludes resting (fun _ _ => bookLaw.task) shape)
    | @abort op target e next below cause => simp [Entry.fault?] at faultless

end Run

/-- The device knows what happened: it was announced once, its counters are the counts, and every word
that a worker was handed, or will be, was merged before. -/
structure Recorded (items : List Item) (i : InterruptState) : Prop where
  announced : items.count .announced = 1
  counted : ∀ c, i.counters c = .ofNat 32 (items.count (.counted c))
  pending : items.count .drained + (if i.pending.word = 0 then 0 else 1) ≤ items.count .merged

namespace Recorded

variable {items : List Item} {s after : Station} {e : Effect} {answer : e.Answer}

theorem beside {i : InterruptState} {others : List Item} (recorded : Recorded items i)
    (beside : ∀ item ∈ others, item ≠ .announced ∧ item ≠ .drained ∧ item ≠ .merged ∧
      ∀ c, item ≠ .counted c) : Recorded (others ++ items) i := by
  have none (item : Item) (absent : item ∉ others) :
      (others ++ items).count item = items.count item := by
    rw [List.count_append, List.count_eq_zero.mpr absent, Nat.zero_add]
  have announced := none .announced fun member => (beside _ member).1 rfl
  have drained := none .drained fun member => (beside _ member).2.1 rfl
  have merged := none .merged fun member => (beside _ member).2.2.1 rfl
  have counted (c : Counter) := none (.counted c) fun member => (beside _ member).2.2.2 c rfl
  constructor
  · rw [announced, recorded.announced]
  · intro c
    rw [counted, recorded.counted]
  · rw [drained, merged]
    exact recorded.pending

theorem act {op : Operation} {taken : Option Direction} (recorded : Recorded items s.interrupt)
    (applied : s.apply e = .ok (answer, after)) (attached : ∀ a, e ≠ .attach a)
    (publishes : (∃ state, e = .publishLink state) → ∀ config resources, op ≠ .prepare config resources) :
    Recorded (Item.ofAction (some op) taken e answer ++ items) after.interrupt := by
  rw [Station.apply_interrupt applied]
  cases e with
  | attach a => exact absurd rfl (attached a)
  | count c =>
    refine ⟨by simpa [Item.ofAction] using recorded.announced, fun d => ?_, ?_⟩
    · change (if d = c then s.interrupt.counters d + 1 else s.interrupt.counters d) =
        .ofNat 32 ((Item.counted c :: items).count (.counted d))
      rw [recorded.counted]
      by_cases same : d = c
      · subst same
        rw [if_pos rfl, List.count_cons_self, BitVec.ofNat_add]
        rfl
      · rw [if_neg same, List.count_cons_of_ne (by simp [Ne.symm same])]
    · change (Item.counted c :: items).count .drained + _ ≤ (Item.counted c :: items).count .merged
      rw [List.count_cons_of_ne (by simp), List.count_cons_of_ne (by simp)]
      exact recorded.pending
  | merge causes =>
    refine ⟨by simpa [Item.ofAction] using recorded.announced, fun d => ?_, ?_⟩
    · simpa [Item.ofAction, Effect.interrupt] using recorded.counted d
    · change (Item.merged :: items).count .drained + _ ≤ (Item.merged :: items).count .merged
      rw [List.count_cons_of_ne (by simp), List.count_cons_self]
      have before := recorded.pending
      split <;> omega
  | drain =>
    have word : answer = s.interrupt.pending.word := Station.apply_reads applied
    have before := recorded.pending
    by_cases idle : answer = (0 : Word)
    · have nothing : Item.ofAction (some op) taken .drain answer = [] := if_pos idle
      rw [nothing]
      rw [if_pos (word.symm.trans idle)] at before
      exact ⟨recorded.announced, recorded.counted, before⟩
    · have drained : Item.ofAction (some op) taken .drain answer = [.drained] := if_neg idle
      rw [drained]
      rw [if_neg (word ▸ idle)] at before
      refine ⟨by simpa using recorded.announced, fun d => ?_, ?_⟩
      · simpa [Effect.interrupt] using recorded.counted d
      · simpa [Effect.interrupt, Pending.empty] using before
  | notify queue =>
    refine recorded.beside fun item member => ?_
    obtain ⟨direction, _, rfl⟩ := List.mem_map.mp member
    simp
  | publishLink state =>
    refine recorded.beside fun item member => ?_
    have others := publishes ⟨state, rfl⟩
    cases op with
    | prepare config resources => exact absurd rfl (others config resources)
    | _ =>
      simp only [Item.ofAction, Item.ofPublication, List.mem_cons, List.not_mem_nil, or_false] at member
      rcases member with rfl | rfl <;> simp
  | _ => exact ⟨recorded.announced, recorded.counted, recorded.pending⟩

end Recorded

theorem WindowStage.preparing_of_after {q : WindowStage} {e : Effect} {answer : e.Answer}
    (permitted : q.Permits e) (stage : q.after e answer = .searching ∨ q.after e answer = .holding) :
    q = .searching ∨ q = .holding := by
  cases e with
  | map => exact .inl permitted
  | attach => exact .inr permitted
  | unmap | detach => cases q <;> simp_all [after]
  | _ => exact stage

structure Booked (history : History) (s : Station) : Prop where
  preparing : windowLaw.state 0 history = .searching ∨ windowLaw.state 0 history = .holding →
    (∀ item ∈ tally history, item = .published ∨ item = .announced) ∧
      (tally history).count .announced = (bookLaw.state 0 history).items.count .announced
  recorded : ∀ a, s.target = .device a → Recorded (tally history) s.interrupt

namespace Booked

variable {history : History} {s after : Station} {n : Nat} {op : Operation} {e : Effect}
  {answer : e.Answer}

/-- While a preparation goes on nobody else leaves something to count. -/
theorem nothing_new (kept : WindowKept history s) (above : 0 < n)
    (preparing : windowLaw.state 0 history = .searching ∨ windowLaw.state 0 history = .holding)
    (permitted : (bookLaw.state n history).Permits e) (taken : Option Direction) :
    Item.ofAction (some op) taken e answer = [] := by
  have deviceless : (windowLaw.state 0 history).Deviceless := by
    rcases preparing with searching | holding
    · exact .inl searching
    · exact .inr (.inl holding)
  have idle : ¬ (bookLaw.state n history).Serves := by
    rintro ⟨other, called, service⟩
    rw [bookLaw.call_eq] at called
    exact kept.alone deviceless n above (windowLaw.service_of_calls called service)
  cases e with
  | count | schedule | merge | drain | notify => exact absurd permitted idle
  | publishLink state =>
    rcases permitted with serves | ⟨prepares, unattached⟩
    · exact absurd serves idle
    · have stage := bookLaw.deviceless_of_prepares prepares unattached
      rcases kept.nested n above with here | here | here <;> rw [here] at stage <;> simp at stage
  | _ => rfl

/-- A preparation does nothing but publish, and that only before there is a device. -/
theorem of_prepare {config : HostConfig} {resources : List Resource} (kept : WindowKept history s)
    (called : calls.state n history = some (.prepare config resources))
    (permitted : (bookLaw.state n history).Permits e) (taken : Option Direction)
    (answer : e.Answer) :
    Item.ofAction (some (.prepare config resources)) taken e answer = [] ∨
      s.target = .noDevice ∧
        Item.ofAction (some (.prepare config resources)) taken e answer = [.published, .announced] := by
  have idle : ¬ (bookLaw.state n history).Serves := by
    rintro ⟨other, calls, service⟩
    rw [bookLaw.call_eq, called] at calls
    cases calls
    cases service
  cases e with
  | count | schedule | merge | drain | notify => exact absurd permitted idle
  | publishLink state =>
    obtain ⟨prepares, unattached⟩ := permitted.resolve_left idle
    have stage := bookLaw.deviceless_of_prepares prepares unattached
    have bottom : n = 0 := by
      rcases stage with here | here | here <;>
        exact kept.bottom here ⟨by rintro ⟨⟩, by rintro ⟨⟩, by rintro ⟨⟩⟩
    subst bottom
    refine .inr ⟨kept.fits.noDevice ?_, rfl⟩
    rcases stage with here | here | here <;> rw [here] <;> decide
  | _ => exact .inl rfl

theorem announce {config : HostConfig} {resources : List Resource} (booked : Booked history s)
    (kept : WindowKept history s)
    (preparing : windowLaw.state 0 history = .searching ∨ windowLaw.state 0 history = .holding)
    (called : calls.state 0 history = some (.prepare config resources))
    (permitted : (bookLaw.state 0 history).Permits e) :
    (∀ item ∈ tally (.acted 0 (.prepare config resources) e answer :: history),
        item = .published ∨ item = .announced) ∧
      (tally (.acted 0 (.prepare config resources) e answer :: history)).count .announced =
        (bookLaw.state 0 (.acted 0 (.prepare config resources) e answer :: history)).items.count
          .announced := by
  obtain ⟨only, same⟩ := booked.preparing preparing
  rw [items_acted called, tally, List.count_append, List.count_append, same]
  refine ⟨fun item member => ?_, rfl⟩
  rcases List.mem_append.mp member with new | old
  · rcases of_prepare kept called permitted (takes.state 0 history) answer with nothing | ⟨_, publishes⟩
    · rw [nothing] at new
      cases new
    · rw [publishes] at new
      simpa using new
  · exact only item old

theorem attach {a : Adapter} {done : Unit} (booked : Booked history s) (kept : WindowKept history s)
    (window : windowLaw.Acting history n op (.attach a))
    (book : bookLaw.Acting history n op (.attach a))
    (applied : s.apply (.attach a) = .ok (done, after)) :
    Recorded (tally history) after.interrupt := by
  have holding : windowLaw.state n history = .holding := window.permitted
  have bottom := kept.bottom holding ⟨by rintro ⟨⟩, by rintro ⟨⟩, by rintro ⟨⟩⟩
  subst bottom
  obtain ⟨only, same⟩ := booked.preparing (.inr holding)
  have none (item : Item) (other : item ≠ .published ∧ item ≠ .announced) :
      (tally history).count item = 0 := by
    refine List.count_eq_zero.mpr fun member => ?_
    rcases only item member with published | announced
    · exact other.1 published
    · exact other.2 announced
  rw [Station.apply_interrupt applied]
  refine ⟨same.trans book.permitted, fun c => ?_, ?_⟩
  · rw [none (.counted c) (by simp)]
    rfl
  · rw [none .drained (by simp), none .merged (by simp)]
    exact Nat.le_refl 0

theorem act (booked : Booked history s) (kept : WindowKept history s)
    (window : windowLaw.Acting history n op e) (book : bookLaw.Acting history n op e)
    (applied : s.apply e = .ok (answer, after)) :
    Booked (.acted n op e answer :: history) after := by
  constructor
  · intro stage
    rcases Nat.eq_zero_or_pos n with rfl | above
    · rw [Law.state_acted, if_pos rfl] at stage
      have before : windowLaw.state 0 history = .searching ∨ windowLaw.state 0 history = .holding :=
        WindowStage.preparing_of_after window.permitted stage
      obtain ⟨config, resources, called⟩ := (windowLaw.state_calls 0 history).1 before
      cases Option.some.inj (window.called.symm.trans called)
      exact booked.announce kept before called book.permitted
    · have silent : Law.SilentAt 0 (.acted n op e answer) := Nat.ne_of_gt above
      rw [Law.state_of_silent silent] at stage
      rw [Law.state_of_silent silent, tally, nothing_new kept above stage book.permitted]
      exact booked.preparing stage
  · intro a present
    by_cases attaches : ∃ adapter, e = .attach adapter
    · obtain ⟨adapter, rfl⟩ := attaches
      exact booked.attach kept window book applied
    · have was : s.target = .device a := by
        rw [(Station.apply_target applied).1] at present
        cases e with
        | attach adapter => exact absurd ⟨adapter, rfl⟩ attaches
        | detach => cases present
        | _ => exact present
      refine (booked.recorded a was).act applied (fun adapter same => attaches ⟨adapter, same⟩) ?_
      rintro ⟨state, rfl⟩ config resources rfl
      have publishes := of_prepare (e := .publishLink state) kept window.called book.permitted none answer
      rcases publishes with nothing | ⟨none, _⟩
      · cases nothing
      · rw [was] at none
        cases none

theorem turn {entry : Entry} {items : List Item} (booked : Booked history s)
    (tallied : tally (entry :: history) = items ++ tally history)
    (beside : ∀ item ∈ items, item ≠ .announced ∧ item ≠ .drained ∧ item ≠ .merged ∧
      ∀ c, item ≠ .counted c)
    (preparing : windowLaw.state 0 (entry :: history) = .searching ∨
      windowLaw.state 0 (entry :: history) = .holding → Law.SilentAt 0 entry ∧ items = [])
    (target : after.target = s.target)
    (recorded : ∀ items, Recorded items s.interrupt → Recorded items after.interrupt) :
    Booked (entry :: history) after := by
  constructor
  · intro stage
    obtain ⟨silent, rfl⟩ := preparing stage
    rw [Law.state_of_silent silent] at stage
    rw [Law.state_of_silent silent, tallied]
    exact booked.preparing stage
  · intro a present
    rw [tallied]
    exact (recorded _ (booked.recorded a (target.symm.trans present))).beside beside

theorem operate (booked : Booked history s)
    (prepares : ∀ config resources, op = .prepare config resources → n = 0 ∧ s.target = .noDevice) :
    Booked (.begun n (.operation op) :: history) s := by
  by_cases preparing : ∃ config resources, op = .prepare config resources
  · obtain ⟨config, resources, rfl⟩ := preparing
    obtain ⟨rfl, none⟩ := prepares _ _ rfl
    refine ⟨fun _ => ⟨List.forall_mem_nil _, rfl⟩, fun a present => ?_⟩
    rw [none] at present
    cases present
  · have other (config : HostConfig) (resources : List Resource) : op ≠ .prepare config resources :=
      fun same => preparing ⟨config, resources, same⟩
    refine booked.turn (tally_operate other) (List.forall_mem_nil _) (fun stage => ⟨?_, rfl⟩) rfl
      fun _ => id
    rintro rfl
    rw [Law.state_begun, if_pos rfl] at stage
    cases op with
    | prepare config resources => exact other config resources rfl
    | _ => rcases stage with stage | stage <;> cases stage

theorem finish {result : Answer} (booked : Booked history s) (kept : WindowKept history s)
    (called : calls.state n history = some op) : Booked (.ended n op result :: history) s := by
  refine booked.turn rfl (fun item member => ?_) (fun stage => ?_) rfl fun _ => id
  · unfold Item.ofAnswer at member
    split at member <;> simp at member <;> subst member <;> simp
  · have above : n ≠ 0 := by
      rintro rfl
      rw [Law.state_ended, if_pos rfl] at stage
      rcases stage with stage | stage <;> cases stage
    rw [Law.state_ended, if_neg above] at stage
    have deviceless : (windowLaw.state 0 history).Deviceless := by
      rcases stage with searching | holding
      · exact .inl searching
      · exact .inr (.inl holding)
    have aside : WindowStage.ofOperation op ≠ .service := fun service =>
      kept.alone deviceless n (Nat.pos_of_ne_zero above) (windowLaw.service_of_calls called service)
    refine ⟨above, ?_⟩
    unfold Item.ofAnswer
    split
    · exact absurd rfl aside
    · exact absurd rfl aside
    · rfl

end Booked

namespace Run

variable {start m : Machine} {history : History} (resting : start.stack = [])
  (none : start.station.target = .noDevice) (run : Run windowLaw.Admits start history m)

include resting none run

theorem booked : Booked history m.station := by
  refine Run.account (P := Booked) ?initial ?blind ?surround ?operate ?act ?renew ?finish ?abort run
  case initial =>
    refine ⟨?_, fun a present => ?_⟩
    · rintro (stage | stage) <;> cases stage
    · rw [none] at present
      cases present
  case blind => exact fun _ kept => ⟨kept.preparing, kept.recorded⟩
  case surround =>
    intro history m step below run _ _ surrounds kept
    cases step with
    | operation op => exact absurd rfl (surrounds op)
    | _ =>
      exact kept.turn rfl (List.forall_mem_nil _) (fun _ => ⟨trivial, rfl⟩) rfl fun _ => id
  case operate =>
    intro history m op below run admitted awaits kept
    refine kept.operate ?_
    rintro config resources rfl
    exact ⟨by rw [admitted.1]; rfl, admitted.2⟩
  case act =>
    intro history m op target e next below answer after run top applied kept
    exact kept.act (run.window_kept resting none) (run.acting resting window_obeyed top)
      (run.acting resting book_obeyed top) applied
  case renew =>
    intro history m op target below run top kept
    cases run.renews resting top
    refine kept.turn rfl (List.forall_mem_nil _) (fun stage => ⟨fun bottom => ?_, rfl⟩) rfl fun _ => id
    rw [Law.state_renewed, if_pos bottom] at stage
    rcases stage with stage | stage <;> cases stage
  case finish =>
    intro history m op target answer below run top kept
    exact kept.finish (run.window_kept resting none) (run.ending resting book_obeyed top).1
  case abort =>
    intro history m op target e next below cause run top applied kept
    refine kept.turn rfl (List.forall_mem_nil _) (fun stage => ?_) rfl
      fun _ known => ⟨known.announced, known.counted, known.pending⟩
    rcases stage with stage | stage <;> cases stage

/-- In a run without faults, whenever no operation is in progress, the counters of the device tell how
often its handlers answered that it had raised the interrupt, and that it had not, how many
notifications each direction got and how often a worker refreshed the link and met an abnormal
condition and a bus error; a worker was asked for as often as an interrupt was handled; the link state
was published once by the preparation, once for each time the working state was entered and once for
each refresh; and no event of the hardware was counted more often than an interrupt was handled. -/
theorem tallied (faultless : history.filterMap Entry.fault? = []) (idle : m.stack = [])
    (present : ∃ a, m.station.target = .device a) :
    let times (item : Item) := (tally history).count item
    let shown (c : Counter) := m.station.interrupt.counters c
    (shown .handled = .ofNat 32 (times (.answered true)) ∧
      shown .ignored = .ofNat 32 (times (.answered false)) ∧
      times .scheduled = times (.answered true)) ∧
    (shown .receive = .ofNat 32 (times (.notified .receive)) ∧
      shown .transmit = .ofNat 32 (times (.notified .transmit))) ∧
    (shown .linkChange = .ofNat 32 (times .refreshed) ∧
      times .published = 1 + times .entered + times .refreshed) ∧
    (shown .abnormal = .ofNat 32 (times (.counted .abnormal)) ∧
      shown .fatal = .ofNat 32 (times (.counted .fatal))) ∧
    times .refreshed ≤ times (.answered true) ∧
      times (.counted .abnormal) ≤ times (.answered true) ∧
      times (.counted .fatal) ≤ times (.answered true) := by
  intro times shown
  obtain ⟨a, present⟩ := present
  obtain ⟨settled, balanced, all⟩ := run.balances resting faultless
  have balanced : Balanced (tally history) := balanced.congr fun item => by rw [all, idle]; rfl
  have recorded := (run.booked resting none).recorded a present
  have shows (c : Counter) (item : Item) (same : times (.counted c) = times item) :
      shown c = .ofNat 32 (times item) :=
    same ▸ recorded.counted c
  -- What is counted of a word was handed to a worker, and so merged by a handler before.
  have handed (c : Counter) (served : c ∈ [Counter.linkChange, .abnormal, .fatal]) :
      times (.counted c) ≤ times (.answered true) :=
    calc times (.counted c)
      _ ≤ times .drained := balanced.drained c served
      _ ≤ times .merged := Nat.le_trans (Nat.le_add_right ..) recorded.pending
      _ = times (.answered true) := balanced.merged
  refine ⟨⟨?_, ?_, balanced.scheduled⟩, ⟨?_, ?_⟩, ⟨?_, ?_⟩, ⟨shows _ _ rfl, shows _ _ rfl⟩, ?_, ?_, ?_⟩
  · exact shows _ _ balanced.handled
  · exact shows _ _ balanced.ignored
  · exact shows _ _ (balanced.notified .receive (by simp))
  · exact shows _ _ (balanced.notified .transmit (by simp))
  · exact shows _ _ balanced.refreshed
  · exact balanced.published.trans (by rw [recorded.announced])
  · exact Nat.le_trans (Nat.le_of_eq balanced.refreshed.symm) (handed .linkChange (by simp))
  · exact handed .abnormal (by simp)
  · exact handed .fatal (by simp)

end Run

theorem Run.tallied_servedHardware :
    ∃ (history : History) (m : Machine), m.stack = [] ∧
      m.station.interrupt.counters .handled = 1 ∧ m.station.interrupt.counters .receive = 1 ∧
      m.station.interrupt.counters .linkChange = 0 ∧ (tally history).count .scheduled = 1 ∧
      (tally history).count .published = 2 := by
  have begun : Run windowLaw.Admits Run.servedHardware _ (Run.servedHardware.begin
      (.operation (.prepare {} [.memory 0xA0000000 windowSize, .interrupt 40]))) :=
    Run.refl.begin rfl ⟨rfl, rfl⟩
  have prepared := begun.advances 60 ⟨rfl, by rintro _ (_ | ⟨_, ⟨⟩⟩) _ ⟨⟩⟩
  have enters := @Run.begin _ _ _ _ (.operation .enterWorking) prepared rfl ⟨_, rfl⟩
  have working := enters.advances 40 ⟨rfl, by rintro _ (_ | ⟨_, ⟨⟩⟩) _ ⟨⟩⟩
  have registers := @Run.begin _ _ _ _
    (.operation (.register .receive (some ⟨"rx"⟩))) working rfl ⟨_, rfl⟩
  have registered := registers.advances 20 ⟨rfl, by rintro _ (_ | ⟨_, ⟨⟩⟩) _ ⟨⟩⟩
  have raised := @Run.begin _ _ _ _ (.raiseChannel 0x40) registered rfl trivial
  have interrupts := @Run.begin _ _ _ _ (.operation .interrupt) raised rfl ⟨_, rfl⟩
  have handled := interrupts.advances 20 ⟨rfl, by rintro _ (_ | ⟨_, ⟨⟩⟩) _ ⟨⟩⟩
  have defers := @Run.begin _ _ _ _ (.operation .deferred) handled rfl ⟨_, rfl⟩
  have served := defers.advances 40 ⟨rfl, by rintro _ (_ | ⟨_, ⟨⟩⟩) _ ⟨⟩⟩
  obtain ⟨⟨handled, _, scheduled⟩, ⟨receive, _⟩, ⟨refreshed, published⟩, _⟩ :=
    served.tallied rfl rfl rfl rfl ⟨_, rfl⟩
  exact ⟨_, _, rfl, handled, receive, refreshed, scheduled, published⟩

end EthernetMac
