import JumpCode.Expr.Emission
import JumpCode.Stmt.Basic

/-!
# JumpCode — code for statements

Code for a statement is emitted between two labels: one marked right before it by whoever asks for
the code, and one to which control has to go when the statement is done. A statement may fall off
the end of its code only where that leads to the second label.

A loop binds its exit to the label behind it before any code of its body is emitted; bindings stay
and later ones hide them. A break jumps to what its exit is bound to, and there is no code for one
whose exit is not bound.
-/

namespace JumpCode

/-! ## Bound exits -/

/-- The labels that exits are bound to, the latest first: a later binding of a `LoopExit` hides an
earlier one. -/
abbrev Exits := List (LoopExit × Label)

/-- The label that a `LoopExit` is bound to, if it is. -/
def Exits.label? (exits : Exits) (exit : LoopExit) : Option Label := exits.lookup exit

/-- A break was met whose `LoopExit` is not bound. -/
structure UnboundExit where
  exit : LoopExit
deriving DecidableEq, Repr

/-- An emission that binds exits and stops at an exit that is not bound (`UnboundExit`). -/
abbrev LoopEmissionOn (S : Type) : Type → Type := ExceptT UnboundExit (StateT Exits (EmissionOn S))

/-- A `LoopEmissionOn` that reserves names from a `Supply`. -/
abbrev LoopEmission : Type → Type := LoopEmissionOn Supply

variable {S : Type}

namespace LoopEmission

/-- An emission that has nothing to do with `Exits`. -/
abbrev plain {α : Type} (m : EmissionOn S α) : LoopEmissionOn S α := liftM m

/-- Binds a `LoopExit` to a label, in front of what it has been bound to. -/
def bindExit (exit : LoopExit) (l : Label) : LoopEmissionOn S Unit :=
  modify ((exit, l) :: ·)

/-- The label that a `LoopExit` is bound to; the emission stops if there is none. -/
def boundLabel (exit : LoopExit) : LoopEmissionOn S Label := do
  match (← get).label? exit with
  | some l => return l
  | none => throw ⟨exit⟩

end LoopEmission

/-- Carries out a `LoopEmissionOn` from bound exits: its outcome, with the exits bound then. -/
def LoopEmissionOn.emission {α : Type} (m : LoopEmissionOn S α) (exits : Exits) :
    EmissionOn S (Except UnboundExit α × Exits) :=
  m.run.run exits

namespace LoopEmissionOn

/-- Through the layers of the monad, sequencing is one `bind` of emissions: what comes second is
emitted only if the first one has not met an `UnboundExit`. -/
theorem emission_bind {α β : Type} (m : LoopEmissionOn S α) (f : α → LoopEmissionOn S β)
    (exits : Exits) :
    (m >>= f).emission exits = m.emission exits >>= fun result => match result with
      | (.ok a, exits) => (f a).emission exits
      | (.error unbound, exits) => pure (.error unbound, exits) := by
  unfold emission
  simp only [ExceptT.run_bind, StateT.run_bind]
  congr
  funext result
  obtain ⟨outcome, exits⟩ := result
  cases outcome with
  | ok a => rfl
  | error unbound => rfl

/-- A `plain` emission leaves the exits as they are. -/
theorem emission_plain {α : Type} (m : EmissionOn S α) (exits : Exits) :
    (LoopEmission.plain m).emission exits = m >>= fun a => pure (.ok a, exits) := by
  show (ExceptT.run (ExceptT.lift (StateT.lift m))).run exits = _
  simp

/-- What `boundLabel` comes to is decided by the exits alone, before any code. -/
theorem emission_boundLabel (exit : LoopExit) (exits : Exits) :
    (LoopEmission.boundLabel exit : LoopEmissionOn S Label).emission exits =
      pure (match exits.label? exit with
        | some l => (.ok l, exits)
        | none => (.error ⟨exit⟩, exits)) := by
  unfold LoopEmission.boundLabel
  rw [emission_bind, show (get : LoopEmissionOn S Exits).emission exits =
    pure (Except.ok exits, exits) from rfl, pure_bind]
  dsimp only
  cases exits.label? exit <;> rfl

end LoopEmissionOn

/-! ## Statements -/

open Emission LoopEmission

variable [Counters S]

mutual

/-- Emits a statement that begins at the label `start`, just marked; when it is done, control goes
to `after`. -/
def Stmt.emit : Stmt → (start after : Label) → LoopEmissionOn S Unit
  | .null, _, _ => pure ()
  | .seq items, start, after => Stmt.emitAll items start after
  | .ifThen condition body, _, after => do
    let inside ← plain newLabel
    plain (condition.emitJumps .fall (.label after))
    plain (mark inside)
    body.emit inside after
  | .ifElse condition body otherwise, _, after => do
    let onTrue ← plain newLabel
    let onFalse ← plain newLabel
    plain (condition.emitJumps .fall (.label onFalse))
    plain (mark onTrue)
    body.emit onTrue after
    plain (Emission.emit (.jump after))
    plain (mark onFalse)
    otherwise.emit onFalse after
  | .whileLoop exit condition body, start, after => do
    bindExit exit after
    plain (condition.emitJumps .fall (.label after))
    let inside ← plain newLabel
    plain (mark inside)
    body.emit inside start
    plain (Emission.emit (.jump start))
  | .doLoop exit body condition, start, after => do
    bindExit exit after
    let test ← plain newLabel
    body.emit start test
    plain (mark test)
    plain (condition.emitJumps (.label start) .fall)
  | .breakTo exit, _, _ => do
    plain (Emission.emit (.jump (← boundLabel exit)))
  | .set target value, _, _ => do
    plain (Emission.emit (.assign (.var target) (← plain value.emitValue)))
  | .store target value, _, _ => do
    let offset ← plain target.index.emitOperand
    let value ← plain value.emitOperand
    plain (Emission.emit (.store target.array offset value))

/-- Emits statements one after the other. Between each two stands a fresh label, at which the one
ends and the other begins. -/
def Stmt.emitAll : List Stmt → (start after : Label) → LoopEmissionOn S Unit
  | [], _, _ => pure ()
  | [s], start, after => s.emit start after
  | s :: next :: rest, start, after => do
    let middle ← plain newLabel
    s.emit start middle
    plain (mark middle)
    Stmt.emitAll (next :: rest) middle after

end

end JumpCode
