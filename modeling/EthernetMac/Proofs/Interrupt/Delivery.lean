import EthernetMac.Proofs.Interrupt.Accounting

namespace EthernetMac

namespace Entry

def settles (depth : Nat) : Entry → Prop
  | .begun d (.operation _) => d = depth
  | .acted d _ (.merge _) _ => d = depth
  | .renewed d _ => d = depth
  | .ended d _ _ => d = depth
  | .faulted _ => True
  | _ => False

def isDrain : Entry → Prop
  | .acted _ _ .drain _ => True
  | _ => False

end Entry

namespace Cause

variable {start : RegisterFile} {c : Cause} {history : History} {entry : Entry} {depth : Nat}

def Standing (start : RegisterFile) (c : Cause) (history : History) : Prop :=
  ∃ later, Since start c history later ∧ ∀ entry ∈ later, ¬ entry.acknowledges c

/-- The interrupt handler at `depth` found the cause standing and has not merged since. -/
def ReadBy (start : RegisterFile) (c : Cause) (depth : Nat) (history : History) : Prop :=
  ∃ inside value past, history = inside ++ .acted depth .interrupt (.load c.register) value :: past ∧
    value.getLsbD c.bit = true ∧ c.Standing start past ∧ ∀ entry ∈ inside, ¬ entry.settles depth

/-- A handler that had found the cause standing merged it, and no worker has drained since. -/
def Merged (start : RegisterFile) (c : Cause) (history : History) : Prop :=
  ∃ between depth causes earlier,
    history = between ++ .acted depth .interrupt (.merge causes) () :: earlier ∧ c.In causes ∧
      c.ReadBy start depth earlier ∧ ∀ entry ∈ between, ¬ entry.isDrain

theorem Standing.onward (standing : c.Standing start history) (kept : ¬ entry.acknowledges c) :
    c.Standing start (entry :: history) := by
  obtain ⟨later, since, older⟩ := standing
  exact ⟨entry :: later, since.onward, List.forall_mem_cons.mpr ⟨kept, older⟩⟩

theorem ReadBy.onward (read : c.ReadBy start depth history) (kept : ¬ entry.settles depth) :
    c.ReadBy start depth (entry :: history) := by
  obtain ⟨inside, value, past, rfl, bit, standing, older⟩ := read
  exact ⟨entry :: inside, value, past, rfl, bit, standing, List.forall_mem_cons.mpr ⟨kept, older⟩⟩

theorem Merged.onward (merged : c.Merged start history) (kept : ¬ entry.isDrain) :
    c.Merged start (entry :: history) := by
  obtain ⟨between, depth, causes, earlier, rfl, inside, read, older⟩ := merged
  exact ⟨entry :: between, depth, causes, earlier, rfl, inside, read,
    List.forall_mem_cons.mpr ⟨kept, older⟩⟩

theorem of_causesOf {offset : Nat} {value : Word} {i : Nat}
    (bit : (causesOf offset value).getLsbD i = true) :
    ∃ c : Cause, c.place = i ∧ offset = c.register ∧ value.getLsbD c.bit = true := by
  unfold causesOf at bit
  split at bit
  · rename_i status
    split at bit
    · rename_i up
      have only : linkCause = BitVec.twoPow 32 31 := by decide
      rw [only, BitVec.getLsbD_twoPow] at bit
      have same : 31 = i := by simpa using bit
      exact ⟨link, same, status, up⟩
    · simp at bit
  · split at bit
    · rename_i status
      exact ⟨channel ⟨i, BitVec.lt_of_getLsbD bit⟩, rfl, status, bit⟩
    · simp at bit

structure Sourced (start : RegisterFile) (history : History) (s : Station) : Prop where
  latched : ∀ c : Cause, c.Latched s.registers → c.Standing start history
  unmerged : ∀ depth i, (causeLaw.state depth history).unmerged.getLsbD i = true →
    ∃ c : Cause, c.place = i ∧ c.ReadBy start depth history
  pending : ∀ i, s.interrupt.pending.word.getLsbD i = true →
    ∃ c : Cause, c.place = i ∧ c.Merged start history

theorem Sourced.turn {s : Station} (kept : Sourced start history s)
    (silent : ∀ d, d ≠ depth → Law.SilentAt d entry) (apart : ∀ d, entry.settles d → d = depth)
    (nothing : (causeLaw.state depth (entry :: history)).unmerged = 0)
    (quiet : ¬ entry.isDrain ∧ ∀ c, ¬ entry.acknowledges c) : Sourced start (entry :: history) s where
  latched c latched := (kept.latched c latched).onward (quiet.2 c)
  unmerged d i bit := by
    by_cases here : d = depth
    · rw [here, nothing] at bit
      simp at bit
    · rw [Law.state_of_silent (silent d here)] at bit
      obtain ⟨c, place, read⟩ := kept.unmerged d i bit
      exact ⟨c, place, read.onward fun settles => here (apart d settles)⟩
  pending i bit := by
    obtain ⟨c, place, merged⟩ := kept.pending i bit
    exact ⟨c, place, merged.onward quiet.1⟩

section Act

variable {s after : Station} {n : Nat} {op : Operation} {e : Effect} {answer : e.Answer}
  (kept : Sourced start history s) (acting : causeLaw.Acting history n op e)

include kept acting

theorem Sourced.latched_act (device : s.registers.backing = .device)
    (applied : s.apply e = .ok (answer, after)) (c : Cause) (latched : c.Latched after.registers) :
    c.Standing start (.acted n op e answer :: history) := by
  have latch := Cause.latched_apply (c := c) n op device applied fun value same => by
    subst same
    exact acting.permitted.1 rfl
  obtain ⟨before, apart⟩ := latch.mp latched
  exact (kept.latched c before).onward apart

theorem Sourced.unmerged_act (applied : s.apply e = .ok (answer, after)) (depth i : Nat)
    (bit : (causeLaw.state depth (.acted n op e answer :: history)).unmerged.getLsbD i = true) :
    ∃ c : Cause, c.place = i ∧ c.ReadBy start depth (.acted n op e answer :: history) := by
  have call : (causeLaw.state n history).call = some op :=
    (causeLaw.call_eq n history).trans acting.called
  have outside (bit : (causeLaw.state depth history).unmerged.getLsbD i = true)
      (apart : ∀ causes, e = .merge causes → n ≠ depth) :
      ∃ c : Cause, c.place = i ∧ c.ReadBy start depth (.acted n op e answer :: history) := by
    obtain ⟨c, place, read⟩ := kept.unmerged depth i bit
    refine ⟨c, place, read.onward fun settles => ?_⟩
    cases e with
    | merge causes => exact apart causes rfl settles
    | _ => exact settles
  by_cases here : n = depth
  · subst here
    rw [Law.state_acted, if_pos rfl] at bit
    cases e with
    | load offset =>
      have split : (causeLaw.state n history).unmerged.getLsbD i = true ∨
          op = .interrupt ∧ (causesOf offset answer).getLsbD i = true := by
        by_cases reader : op = .interrupt
        · simpa [Reading.after, call, reader] using bit
        · left
          simpa [Reading.after, call, reader] using bit
      rcases split with old | ⟨rfl, new⟩
      · exact outside old (by rintro _ ⟨⟩)
      · obtain ⟨c, place, rfl, up⟩ := Cause.of_causesOf new
        have value : answer = s.registers.cell c.register :=
          (Station.apply_reads applied).trans
            (RegisterFile.reading_cell_of_ne Cause.register_ne_dmaMode
              fun phy => absurd phy Cause.register_ne_phyStatus)
        have latched : c.Latched s.registers := by
          rw [Cause.Latched, ← value]
          exact up
        exact ⟨c, place, [], answer, history, rfl, up, kept.latched c latched, List.forall_mem_nil _⟩
    | merge causes => simp [Reading.after] at bit
    | _ => exact outside bit (by rintro _ ⟨⟩)
  · exact outside (by simpa [here] using bit) fun _ _ => here

/-- A merge hands on what its handler has in hand, and nothing else sets a pending bit. -/
theorem Sourced.pending_act (applied : s.apply e = .ok (answer, after)) (i : Nat)
    (bit : after.interrupt.pending.word.getLsbD i = true) :
    ∃ c : Cause, c.place = i ∧ c.Merged start (.acted n op e answer :: history) := by
  rw [Station.apply_interrupt applied] at bit
  have outside (bit : s.interrupt.pending.word.getLsbD i = true) (apart : e ≠ .drain) :
      ∃ c : Cause, c.place = i ∧ c.Merged start (.acted n op e answer :: history) := by
    obtain ⟨c, place, merged⟩ := kept.pending i bit
    refine ⟨c, place, merged.onward fun drain => ?_⟩
    cases e with
    | drain => exact apart rfl
    | _ => exact drain
  cases e with
  | merge causes =>
    obtain ⟨reader, all⟩ := acting.permitted
    rw [causeLaw.call_eq, acting.called] at reader
    cases reader
    have either : s.interrupt.pending.word.getLsbD i = true ∨ causes.getLsbD i = true := by
      simpa [Effect.interrupt, Pending.merge] using bit
    rcases either with old | new
    · exact outside old (by rintro ⟨⟩)
    · obtain ⟨c, place, read⟩ := kept.unmerged n i (all ▸ new)
      exact ⟨c, place, [], n, causes, history, rfl, by rw [Cause.In, place]; exact new, read,
        List.forall_mem_nil _⟩
  | drain => simp [Effect.interrupt, Pending.empty] at bit
  | attach => exact acting.permitted.elim
  | _ => exact outside bit (by rintro ⟨⟩)

end Act

end Cause

namespace Run

variable {start m : Machine} {history later : History}
  (resting : start.stack = []) (free : start.station.interrupt.lock = .free)
  (device : start.station.registers.backing = .device)

include resting free device

theorem causes_sourced (empty : start.station.interrupt.pending = .empty)
    (run : Run Cause.Admits start history m) :
    Cause.Sourced start.station.registers history m.station := by
  refine Run.account (P := Cause.Sourced start.station.registers) ?initial ?blind ?surround ?operate
    ?act ?renew ?finish ?abort run
  case initial =>
    refine ⟨fun c latched => ⟨[], .initially latched, List.forall_mem_nil _⟩, ?_, ?_⟩
    · intro depth i bit
      simp [Law.state] at bit
    · intro i bit
      rw [empty] at bit
      simp [Pending.empty] at bit
  case blind =>
    intro history s trace kept
    exact ⟨kept.latched, kept.unmerged, kept.pending⟩
  case surround =>
    intro history m step below run admitted _ surrounds kept
    refine ⟨fun c latched => ?_, fun depth i bit => ?_, fun i bit => ?_⟩
    · have latch : c.Latched (m.station.meet step).registers ↔
          c.Latched m.station.registers ∨ c.RaisedBy step := Cause.latched_meet ?reserved
      case reserved =>
        rintro offset value rfl
        cases c with
        | link => exact admitted.2
        | channel i => exact admitted.1
      rcases latch.mp latched with before | raises
      · exact (kept.latched c before).onward id
      · exact ⟨[], .raised raises, List.forall_mem_nil _⟩
    · rw [Law.state_surround surrounds] at bit
      obtain ⟨c, place, read⟩ := kept.unmerged depth i bit
      refine ⟨c, place, read.onward fun settles => ?_⟩
      cases step with
      | operation op => exact surrounds op rfl
      | _ => exact settles
    · rw [Station.meet_interrupt] at bit
      obtain ⟨c, place, merged⟩ := kept.pending i bit
      exact ⟨c, place, merged.onward id⟩
  case operate =>
    intro history m op below run admitted awaits kept
    refine kept.turn (fun d other => Ne.symm other) (fun d same => same.symm) ?_
      ⟨id, fun _ => id⟩
    simp
  case act =>
    intro history m op target e next below answer after run top applied kept
    have acting := run.acting resting cause_obeyed top
    exact ⟨kept.latched_act acting (run.backing.trans device) applied,
      kept.unmerged_act acting applied, kept.pending_act acting applied⟩
  case renew =>
    intro history m op target below run top kept
    refine kept.turn (fun d other => Ne.symm other) (fun d same => same.symm) ?_
      ⟨id, fun _ => id⟩
    simp
  case finish =>
    intro history m op target answer below run top kept
    refine kept.turn (fun d other => Ne.symm other) (fun d same => same.symm) ?_
      ⟨id, fun _ => id⟩
    simp
  case abort =>
    intro history m op target e next below cause run top applied
    -- What takes the lock begins only while it is free, so no action fails.
    exact absurd applied (run.cause_faultless resting free device top)

end Run

theorem History.split {newer later older earlier : History} {entry other : Entry}
    (same : newer ++ entry :: older = later ++ other :: earlier) (apart : entry ≠ other) :
    (∃ middle, later = newer ++ entry :: middle ∧ older = middle ++ other :: earlier) ∨
      ∃ middle, newer = later ++ other :: middle ∧ earlier = middle ++ entry :: older := by
  rcases List.append_eq_append_iff.mp same with ⟨rest, rfl, shifted⟩ | ⟨rest, rfl, shifted⟩
  · cases rest with
    | nil => exact absurd (List.cons.inj shifted).1 apart
    | cons first middle =>
      obtain ⟨rfl, rfl⟩ := List.cons.inj shifted
      exact .inl ⟨middle, rfl, rfl⟩
  · cases rest with
    | nil => exact absurd (List.cons.inj shifted).1.symm apart
    | cons first middle =>
      obtain ⟨rfl, rfl⟩ := List.cons.inj shifted
      exact .inr ⟨middle, rfl, rfl⟩

theorem Since.split {start : RegisterFile} {c : Cause} {newer older later : History}
    (since : Since start c (newer ++ older) later) :
    (∃ entry ∈ newer, entry.raises c) ∨
      ∃ rest, later = newer ++ rest ∧ Since start c older rest := by
  induction newer generalizing later with
  | nil => exact .inr ⟨later, rfl, since⟩
  | cons entry newer ih =>
    cases since with
    | raised raises => exact .inl ⟨entry, .head _, raises⟩
    | onward since =>
      rcases ih since with ⟨raise, member, raises⟩ | ⟨rest, rfl, before⟩
      · exact .inl ⟨raise, .tail _ member, raises⟩
      · exact .inr ⟨rest, rfl, before⟩

/-- What a later drain hands over again was raised again after an earlier one, or stood or was in a
handler's hands at the time of that one. -/
theorem Cause.Merged.again {start : RegisterFile} {c : Cause} {middle earlier : History}
    {depth : Nat} {op : Operation} {word : Word}
    (merged : c.Merged start (middle ++ .acted depth op .drain word :: earlier)) :
    (∃ entry ∈ middle, entry.raises c) ∨ c.Standing start earlier ∨
      ∃ d, c.ReadBy start d earlier := by
  obtain ⟨between, d, causes, before, same, _, read, undrained⟩ := merged
  rcases History.split same.symm nofun with ⟨mid, rfl, rfl⟩ | ⟨mid, rfl, _⟩
  · obtain ⟨inside, value, past, same, up, ⟨later, since, kept⟩, unsettled⟩ := read
    rcases History.split same.symm nofun with ⟨newer, rfl, rfl⟩ | ⟨older, rfl, rfl⟩
    · rcases since.split with ⟨raise, member, raises⟩ | ⟨rest, rfl, before⟩
      · exact .inl ⟨raise, by simp [member], raises⟩
      · cases before with
        | raised raises => exact raises.elim
        | onward before =>
          exact .inr (.inl ⟨_, before, fun entry member => kept entry (by simp [member])⟩)
    · refine .inr (.inr ⟨d, older, value, past, rfl, ?_, ?_, ?_⟩)
      · exact up
      · exact ⟨later, since, kept⟩
      · exact fun entry member => unsettled entry (by simp [member])
  · exact absurd trivial (undrained (.acted depth op .drain word) (by simp))

namespace Run

/-- No cause is lost on its way, and every cause a worker is handed was raised, was read by a
handler while it stood, and was merged once since the last drain. -/
theorem causes_conserved {start m : Machine} {history : History} (resting : start.stack = [])
    (free : start.station.interrupt.lock = .free)
    (device : start.station.registers.backing = .device)
    (empty : start.station.interrupt.pending = .empty)
    (run : Run Cause.Admits start history m) :
    (∀ c later, Since start.station.registers c history later →
      c.Accounted history later m.station) ∧
    ∀ later depth op word earlier, history = later ++ .acted depth op .drain word :: earlier →
      ∀ i, word.getLsbD i = true → ∃ c : Cause, c.place = i ∧
        c.Merged start.station.registers earlier ∧
        ∀ middle d worker handed older, earlier = middle ++ .acted d worker .drain handed :: older →
          (∃ entry ∈ middle, entry.raises c) ∨ c.Standing start.station.registers older ∨
            ∃ handler, c.ReadBy start.station.registers handler older := by
  refine ⟨fun c later since => run.cause_accounted resting free device since, ?_⟩
  rintro later depth op word earlier rfl i bit
  obtain ⟨before, target, next, below, after, run, top, _, applied⟩ := run.acted
  have sourced := run.causes_sourced resting free device empty
  have pending : word = before.station.interrupt.pending.word := Station.apply_reads applied
  obtain ⟨c, place, merged⟩ := sourced.pending i (pending ▸ bit)
  refine ⟨c, place, merged, ?_⟩
  rintro middle d worker handed older rfl
  exact merged.again

def receiving : Machine where
  station :=
    { registers := { cell := fun offset => if offset = Register.channelStatus then 0x40 else 0 }
      target := .interrupts }

theorem causes_conserved_receiving :
    ∃ (m : Machine) (earlier : History),
      (∀ c later, Since receiving.station.registers c
          (.acted 0 .deferred .drain (0x40 : Word) :: earlier) later →
        c.Accounted (.acted 0 .deferred .drain (0x40 : Word) :: earlier) later m.station) ∧
      ∃ c : Cause, c.place = 6 ∧ c.Merged receiving.station.registers earlier := by
  have begun : Run Cause.Admits receiving _ (receiving.begin (.operation .interrupt)) :=
    Run.refl.begin rfl ⟨trivial, nofun⟩
  have read := (begun.advance nofun nofun).advance nofun nofun
  have merged := (read.advance nofun nofun).advance nofun nofun
  have handled := ((merged.advance nofun nofun).advance nofun nofun).advance nofun nofun
  have called := @Run.begin _ _ _ _ (.operation .deferred) handled rfl ⟨trivial, fun _ => rfl⟩
  have drained := called.advance nofun nofun
  obtain ⟨kept, sourced⟩ := causes_conserved rfl rfl rfl rfl drained
  obtain ⟨c, place, merged, _⟩ := sourced [] 0 .deferred 0x40 _ rfl 6 rfl
  exact ⟨_, _, kept, c, place, merged⟩

end Run

end EthernetMac
