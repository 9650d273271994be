import EthernetMac.Proofs.Action
import EthernetMac.Proofs.Trail

/-! Programs that run on their own, with nothing happening in between. What such a run does is one of
the courses of the program, answered by the station. -/

namespace EthernetMac

namespace Station

variable {s after : Station} {e : Effect} {answer : e.Answer}

theorem perform_iff {after : Station} :
    s.perform e = .ok (answer, after) ↔ ∃ applied, s.apply e = .ok (answer, applied) ∧
      after = { applied with trace := (e.event? answer).toList ++ s.trace } := by
  rw [perform_eq]
  constructor
  · intro performed
    cases reply : s.apply e with
    | error cause =>
      rw [reply] at performed
      cases performed
    | ok both =>
      rw [reply] at performed
      cases performed
      exact ⟨both.2, rfl, by rw [(apply_aside reply).1]⟩
  · rintro ⟨applied, reply, rfl⟩
    simp [reply, Except.map, apply_aside reply]

theorem perform_store {offset : Nat} (inside : RegisterFile.InWindow offset)
    (plain : offset ≠ Register.channelStatus) (value : Word) :
    s.perform (.store offset value) = .ok ((),
      { s with registers := s.registers.set offset value, trace := .write offset value :: s.trace }) := by
  have written : s.registers.write? offset value = some (s.registers.set offset value) := by
    unfold RegisterFile.write?
    cases s.registers.backing with
    | memory => exact if_pos inside
    | device => exact if_neg plain
  simp only [perform_eq, apply, written]
  rfl

theorem perform_load {offset : Nat} (inside : RegisterFile.InWindow offset) :
    s.perform (.load offset) = .ok ((s.registers.reading offset).cell offset,
      { s with
        registers := s.registers.reading offset
        trace := .read offset ((s.registers.reading offset).cell offset) :: s.trace }) := by
  have read : s.registers.read? offset =
      some ((s.registers.reading offset).cell offset, s.registers.reading offset) := by
    unfold RegisterFile.read? RegisterFile.reading
    cases s.registers.backing with
    | memory => exact if_pos inside
    | device => rfl
  simp only [perform_eq, apply, read]
  rfl

theorem apply_load (device : s.registers.backing = .device) (offset : Nat) :
    s.apply (.load offset) = .ok ((s.registers.reading offset).cell offset,
      { s with registers := s.registers.reading offset }) := by
  simp [apply, RegisterFile.read?, RegisterFile.reading, device]

/-- `deeds`, performed in turn, are answered as they say and lead from `s` to `after`. -/
def Does : Station → List Deed → Station → Prop
  | s, [], after => after = s
  | s, deed :: deeds, after =>
    ∃ mid : Station, s.perform deed.effect = .ok (deed.answer, mid) ∧ mid.Does deeds after

namespace Does

variable {deeds : List Deed}

theorem append {first rest : List Deed} :
    s.Does (first ++ rest) after ↔ ∃ mid, s.Does first mid ∧ mid.Does rest after := by
  induction first generalizing s with
  | nil => simp [Does]
  | cons deed first ih =>
    simp only [List.cons_append, Does, ih]
    constructor
    · rintro ⟨mid, performed, last, begun, onward⟩
      exact ⟨last, ⟨mid, performed, begun⟩, onward⟩
    · rintro ⟨last, ⟨mid, performed, begun⟩, onward⟩
      exact ⟨mid, performed, last, begun, onward⟩

theorem trace (does : s.Does deeds after) :
    after.trace = (deeds.filterMap Deed.event?).reverse ++ s.trace := by
  induction deeds generalizing s with
  | nil =>
    cases does
    rfl
  | cons deed deeds ih =>
    obtain ⟨mid, performed, does⟩ := does
    obtain ⟨applied, _, rfl⟩ := perform_iff.mp performed
    rw [ih does, List.filterMap_cons, Deed.event?]
    cases deed.effect.event? deed.answer <;> simp

theorem answered (does : s.Does deeds after) :
    after.host = s.host ∧
      ∀ deed ∈ deeds, ∃ t u : Station, t.host = s.host ∧ t.apply deed.effect = .ok (deed.answer, u) := by
  induction deeds generalizing s with
  | nil =>
    cases does
    exact ⟨rfl, nofun⟩
  | cons deed deeds ih =>
    obtain ⟨mid, performed, does⟩ := does
    obtain ⟨applied, reply, rfl⟩ := perform_iff.mp performed
    obtain ⟨host, rest⟩ := ih does
    rw [(apply_aside reply).2] at host rest
    exact ⟨host, List.forall_mem_cons.mpr ⟨⟨s, applied, rfl, reply⟩, rest⟩⟩

theorem map_answer (does : s.Does deeds after) {first length : Nat} {granted : Bool}
    (member : (⟨.map first length, granted⟩ : Deed) ∈ deeds) :
    granted = !s.host.refusesMapping := by
  obtain ⟨t, u, host, reply⟩ := does.answered.2 _ member
  simp only [apply, Except.ok.injEq, Prod.mk.injEq] at reply
  rw [← reply.1, host]

end Does

end Station

namespace Program

variable {α : Type} {p : Program α} {s after : Station}

theorem run_performs {e : Effect} {answer : e.Answer} {next : e.Answer → Program α}
    (performed : s.perform e = .ok (answer, after)) :
    (perform e next).run s = (next answer).run after := by
  unfold run
  rw [interpret, performed]

theorem run_bind_iff {β : Type} {f : α → Program β} {result : β} :
    (p >>= f).run s = (.ok result, after) ↔
      ∃ value mid, p.run s = (.ok value, mid) ∧ (f value).run mid = (.ok result, after) := by
  unfold run
  rw [interpret_bind]
  cases ran : p.interpret Station.perform s with
  | mk outcome mid =>
    cases outcome with
    | error cause => simp
    | ok value =>
      constructor
      · exact fun onward => ⟨value, mid, rfl, onward⟩
      · rintro ⟨_, _, ⟨⟩, onward⟩
        exact onward

theorem run_act_iff {e : Effect} {answer : e.Answer} :
    (act e).run s = (.ok answer, after) ↔ s.perform e = .ok (answer, after) := by
  unfold act run
  rw [interpret]
  cases s.perform e with
  | error cause => simp
  | ok reply => simp [interpret, Prod.ext_iff]

/-- A run follows a course of its program. -/
theorem run_eq_ok_iff {result : α} :
    p.run s = (.ok result, after) ↔ ∃ deeds, p.Course deeds result ∧ s.Does deeds after := by
  unfold run
  induction p generalizing s with
  | done value =>
    constructor
    · rintro ⟨⟩
      exact ⟨[], ⟨rfl, rfl⟩, rfl⟩
    · rintro ⟨_, ⟨rfl, rfl⟩, rfl⟩
      rfl
  | perform e next ih =>
    rw [interpret]
    constructor
    · intro ran
      cases performed : s.perform e with
      | error cause =>
        rw [performed] at ran
        cases ran
      | ok reply =>
        rw [performed] at ran
        obtain ⟨deeds, course, does⟩ := (ih reply.1).mp ran
        exact ⟨⟨e, reply.1⟩ :: deeds, ⟨reply.1, deeds, rfl, course⟩, reply.2, performed, does⟩
    · rintro ⟨_, ⟨answer, deeds, rfl, course⟩, mid, performed, does⟩
      rw [performed]
      exact (ih answer).mpr ⟨deeds, course, does⟩

/-- A program whose actions cannot fail comes to a result. -/
theorem Only.run {allowed : Effect → Prop} (only : p.Only allowed)
    (safe : ∀ e, allowed e → ∀ s cause, Station.apply s e ≠ .error cause) (s : Station) :
    ∃ result after, p.run s = (.ok result, after) := by
  unfold Program.run
  induction p generalizing s with
  | done value => exact ⟨value, s, rfl⟩
  | perform e next ih =>
    rw [interpret]
    cases performed : s.perform e with
    | error cause => exact absurd (Station.perform_error performed) (safe e only.1 s cause)
    | ok reply => exact ih reply.1 (only.2 reply.1).2 reply.2

end Program

end EthernetMac
