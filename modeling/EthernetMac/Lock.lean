/-! A value guarded by a lock that admits many readers or one writer, never both. -/

namespace EthernetMac

inductive Borrow where
  | free
  | shared (others : Nat)
  | exclusive
  deriving DecidableEq, Repr

namespace Borrow

def read? : Borrow → Option Borrow
  | free => some (shared 0)
  | shared others => some (shared (others + 1))
  | exclusive => none

def write? : Borrow → Option Borrow
  | free => some exclusive
  | _ => none

end Borrow

structure Guarded (σ : Type) where
  value : σ
  borrow : Borrow := .free

namespace Guarded

def text : String := "CriticalSectionCell \x7b .. \x7d"

variable {σ α : Type}

/-- A computation under the lock. It answers nothing when a borrow is refused; what it had
stored by then stays stored. -/
abbrev Access (σ : Type) := OptionT (StateM (Guarded σ))

namespace Access

def value : Access σ σ := do return (← get).value

def store (new : σ) : Access σ Unit := modify fun cell => { cell with value := new }

def holding (held? : Borrow → Option Borrow) (body : Access σ α) : Access σ α :=
  OptionT.mk fun cell =>
    match held? cell.borrow with
    | none => (none, cell)
    | some held =>
      let (answer, after) := body.run { cell with borrow := held }
      (answer, { after with borrow := cell.borrow })

def reading (body : Access σ α) : Access σ α := holding Borrow.read? body

def writing (body : Access σ α) : Access σ α := holding Borrow.write? body

variable {held? : Borrow → Option Borrow} {cell : Guarded σ}

theorem run_holding_of_refused (refused : held? cell.borrow = none) (body : Access σ α) :
    (holding held? body).run cell = (none, cell) := by
  simp only [holding, OptionT.run, OptionT.mk, refused]

/-- However the body ends, the borrow is given back. -/
theorem run_holding_of_granted {held : Borrow} (granted : held? cell.borrow = some held)
    (body : Access σ α) :
    (holding held? body).run cell =
      ((body.run { cell with borrow := held }).1,
        { (body.run { cell with borrow := held }).2 with borrow := cell.borrow }) := by
  simp only [holding, OptionT.run, OptionT.mk, granted]
  rfl

end Access

end Guarded

end EthernetMac
