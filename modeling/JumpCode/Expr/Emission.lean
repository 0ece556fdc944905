import JumpCode.Emission
import JumpCode.Expr.Basic

/-!
# JumpCode — code for expressions

An expression has code of two kinds. `Expr.emitValue` computes its value and leaves at most one
operator to be applied; `Expr.emitJumps` goes to one target if it is true and to another if not,
and never computes a truth value. Each kind uses the other: a truth value that is wanted as such
is computed by jumps, and a jump on anything but a connective or a relation needs its value.

* `Expr.emitValue_eq_materialize` — the value of a logical expression comes from its jumps;
* `Expr.emitJumps_eq_jumpsOnValue` — jumps on any other expression come from its value.
-/

namespace JumpCode

/-! ## Ways to combine code -/

namespace Emission

variable {S : Type} [Counters S]

/-- Brings a value into an `Operand`: what is more than an operand goes to a fresh temporary. -/
def reduced (value : EmissionOn S Rvalue) : EmissionOn S Operand := do
  match ← value with
  | .use operand => pure operand
  | value =>
    let temp ← newTemp
    emit (.assign temp value)
    pure temp

/-- Turns jumps into a truth value, in a fresh temporary: the jumps fall on to an assignment of
`true`, or go past it to one of `false`. -/
def materialize (jumps : Target → Target → EmissionOn S Unit) : EmissionOn S Rvalue := do
  let onFalse ← newLabel
  let after ← newLabel
  let temp ← newTemp
  jumps .fall (.label onFalse)
  emit (.assign temp (.use (.const (.bool true))))
  emit (.jump after)
  mark onFalse
  emit (.assign temp (.use (.const (.bool false))))
  mark after
  pure (.use temp)

/-- Jumps on whether an operand is true, once it is computed. -/
def jumpsOnValue (operand : EmissionOn S Operand) (onTrue onFalse : Target) : EmissionOn S Unit := do
  jumpsOnTest (.truth (← operand)) onTrue onFalse

/-- Jumps on whether a `RelOp` holds between two operands, once both are computed. -/
def jumpsOnRelation (op : RelOp) (lhs rhs : EmissionOn S Operand) (onTrue onFalse : Target) :
    EmissionOn S Unit := do
  let lhs ← lhs
  let rhs ← rhs
  jumpsOnTest (.compare op lhs rhs) onTrue onFalse

/-- Jumps on whether both conditions hold. The second is reached only if the first holds; where
`Target.fall` would mean false, a fresh label behind the code stands for it. -/
def jumpsOnBoth (lhs rhs : Target → Target → EmissionOn S Unit) (onTrue : Target) :
    Target → EmissionOn S Unit
  | .label onFalse => do
    lhs .fall (.label onFalse)
    rhs onTrue (.label onFalse)
  | .fall => do
    let onFalse ← newLabel
    lhs .fall (.label onFalse)
    rhs onTrue .fall
    mark onFalse

/-- Jumps on whether one of the conditions holds. The second is reached only if the first does not;
where `Target.fall` would mean true, a fresh label behind the code stands for it. -/
def jumpsOnEither (lhs rhs : Target → Target → EmissionOn S Unit) :
    Target → Target → EmissionOn S Unit
  | .label onTrue, onFalse => do
    lhs (.label onTrue) .fall
    rhs (.label onTrue) onFalse
  | .fall, onFalse => do
    let onTrue ← newLabel
    lhs (.label onTrue) .fall
    rhs .fall onFalse
    mark onTrue

end Emission

/-! ## Expressions -/

open Emission

variable {S : Type} [Counters S]

mutual

/-- Emits the computation of an expression up to its last operator, which is left to whoever uses
the `Rvalue`. -/
def Expr.emitValue : Expr → EmissionOn S Rvalue
  | .const c => pure (.use (.const c))
  | .var x => pure (.use (.var x))
  | .access array index _ => do return .index array (← reduced index.emitValue)
  | .arith op lhs rhs _ => do
    let lhs ← reduced lhs.emitValue
    let rhs ← reduced rhs.emitValue
    return .binary op lhs rhs
  | .neg operand _ => do return .negate (← reduced operand.emitValue)
  | .not operand => materialize fun onTrue onFalse => operand.emitJumps onFalse onTrue
  | .rel op lhs rhs =>
    materialize (jumpsOnRelation op (reduced lhs.emitValue) (reduced rhs.emitValue))
  | .and lhs rhs => materialize (jumpsOnBoth lhs.emitJumps rhs.emitJumps)
  | .or lhs rhs => materialize (jumpsOnEither lhs.emitJumps rhs.emitJumps)

/-- Emits jumps to the first `Target` if an expression is true, and to the second if not. -/
def Expr.emitJumps : Expr → Target → Target → EmissionOn S Unit
  | .const (.bool value) => fun onTrue onFalse => goto (if value then onTrue else onFalse)
  | .const c => jumpsOnValue (pure (.const c))
  | .var x => jumpsOnValue (pure (.var x))
  | .access array index _ =>
    jumpsOnValue (reduced do return .index array (← reduced index.emitValue))
  | .arith op lhs rhs _ =>
    jumpsOnValue <| reduced do
      let lhs ← reduced lhs.emitValue
      let rhs ← reduced rhs.emitValue
      return .binary op lhs rhs
  | .neg operand _ => jumpsOnValue (reduced do return .negate (← reduced operand.emitValue))
  | .not operand => fun onTrue onFalse => operand.emitJumps onFalse onTrue
  | .rel op lhs rhs => jumpsOnRelation op (reduced lhs.emitValue) (reduced rhs.emitValue)
  | .and lhs rhs => jumpsOnBoth lhs.emitJumps rhs.emitJumps
  | .or lhs rhs => jumpsOnEither lhs.emitJumps rhs.emitJumps

end

namespace Expr

/-- Emits the computation of an expression into an `Operand`. Constants and variables are operands
already; any other expression ends in a fresh temporary. -/
def emitOperand (e : Expr) : EmissionOn S Operand := reduced e.emitValue

/-- Whether the outermost operator of an expression is a relation or a connective, so that
`Expr.emitValue` needs jumps. -/
def isLogical : Expr → Bool
  | not _ => true
  | rel _ _ _ => true
  | and _ _ => true
  | or _ _ => true
  | _ => false

/-- Whether an expression is one of the constants `true` and `false`, on which no test is needed. -/
def isTruthConstant : Expr → Bool
  | const (.bool _) => true
  | _ => false

/-- The value of a logical expression comes from its jumps: `emitValue` is `materialize` of
`emitJumps`. -/
theorem emitValue_eq_materialize {e : Expr} (h : e.isLogical) :
    (e.emitValue : EmissionOn S Rvalue) = materialize e.emitJumps := by
  cases e with
  | not _ => simp only [emitValue, emitJumps]
  | rel _ _ _ => simp only [emitValue, emitJumps]
  | and _ _ => simp only [emitValue, emitJumps]
  | or _ _ => simp only [emitValue, emitJumps]
  | _ => simp [isLogical] at h

/-- Jumps on any other expression that is not a truth constant come from its value: `emitJumps` is
`jumpsOnValue` of `emitOperand`. -/
theorem emitJumps_eq_jumpsOnValue {e : Expr} (hLogical : e.isLogical = false)
    (hConstant : e.isTruthConstant = false) :
    (e.emitJumps : Target → Target → EmissionOn S Unit) = jumpsOnValue e.emitOperand := by
  cases e with
  | const c =>
    cases c with
    | bool _ => simp [isTruthConstant] at hConstant
    | _ => rfl
  | var x => rfl
  | access _ _ _ => simp only [emitJumps, emitOperand, emitValue]
  | arith _ _ _ _ => simp only [emitJumps, emitOperand, emitValue]
  | neg _ _ => simp only [emitJumps, emitOperand, emitValue]
  | _ => simp [isLogical] at hLogical

end Expr

end JumpCode
