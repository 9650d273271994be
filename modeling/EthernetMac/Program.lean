import EthernetMac.Effect

/-! Operations as programs: which action comes next, given the answers so far. -/

namespace EthernetMac

inductive Program (α : Type) where
  | done (value : α)
  | perform (effect : Effect) (next : effect.Answer → Program α)

namespace Program

variable {α β σ : Type}

def bind (p : Program α) (f : α → Program β) : Program β :=
  match p with
  | done value => f value
  | perform effect next => perform effect fun answer => (next answer).bind f

instance : Monad Program where
  pure := done
  bind := bind

theorem bind_done (p : Program α) : p.bind done = p := by
  induction p with
  | done value => rfl
  | perform effect next ih =>
    show perform effect (fun answer => (next answer).bind done) = _
    rw [funext ih]

theorem bind_assoc {γ : Type} (p : Program α) (f : α → Program β) (g : β → Program γ) :
    (p.bind f).bind g = p.bind fun value => (f value).bind g := by
  induction p with
  | done value => rfl
  | perform effect next ih =>
    show perform effect (fun answer => ((next answer).bind f).bind g) = _
    rw [funext ih]
    rfl

instance : LawfulMonad Program :=
  LawfulMonad.mk' Program bind_done (fun _ _ => rfl) bind_assoc

def act (effect : Effect) : Program effect.Answer := perform effect done

def load (offset : Nat) : Program Word := act (.load offset)

def store (offset : Nat) (value : Word) : Program Unit := act (.store offset value)

def fail (cause : Fault) : Program α := perform (.fault cause) Empty.elim

def onlyIf (condition : Bool) (p : Program Unit) : Program Unit :=
  if condition then p else done ()

/-- Carries out every action by `handle`, up to the first fault. A fault keeps the state that the
actions before it left. -/
def interpret (handle : σ → (e : Effect) → Except Fault (e.Answer × σ)) :
    Program α → σ → Except Fault α × σ
  | done value, s => (.ok value, s)
  | perform effect next, s =>
    match handle s effect with
    | .ok (answer, after) => (next answer).interpret handle after
    | .error cause => (.error cause, s)

/-- A fault in the first part ends the whole. -/
theorem interpret_bind (handle : σ → (e : Effect) → Except Fault (e.Answer × σ))
    (p : Program α) (f : α → Program β) (s : σ) :
    (p >>= f).interpret handle s =
      match p.interpret handle s with
      | (.ok value, after) => (f value).interpret handle after
      | (.error cause, after) => (.error cause, after) := by
  change (p.bind f).interpret handle s = _
  induction p generalizing s with
  | done value => rfl
  | perform effect next ih =>
    simp only [bind, interpret]
    cases handle s effect with
    | error cause => rfl
    | ok reply => exact ih reply.1 reply.2

def locked (p : Program α) : Program α := do
  act .acquire
  let value ← p
  act .release
  return value

end Program

end EthernetMac
