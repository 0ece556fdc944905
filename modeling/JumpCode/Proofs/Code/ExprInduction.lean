import JumpCode.Expr.Emission

/-!
# JumpCode — facts about the code of all expressions

The code of an expression is put together by a few combinators: an operand from a value, a value
from jumps, and jumps from operands or from other jumps. What holds of the code of all expressions
follows from what each combinator keeps up.

* `Expr.emission_induction` — the principle, for three properties at once.
-/

namespace JumpCode

open Emission

section

variable {onValue : Expr → Emission Rvalue → Prop} {onOperand : Expr → Emission Operand → Prop}
  {onJumps : Expr → (Target → Target → Emission Unit) → Prop}

/-- What the combinators of code keep up for an expression if its parts have it: one rule for each
of `reduced`, `materialize`, `jumpsOnValue` and so on. -/
structure Expr.CodeRules (onValue : Expr → Emission Rvalue → Prop)
    (onOperand : Expr → Emission Operand → Prop)
    (onJumps : Expr → (Target → Target → Emission Unit) → Prop) : Prop where
  const (c : Constant) : onValue (.const c) (pure (.use (.const c)))
  var (x : Symbol) : onValue (.var x) (pure (.use (.var x)))
  access (array : Symbol) (index : Expr) (type : Ty) (i : Emission Operand)
    (h : onOperand index i) : onValue (.access array index type) (do return .index array (← i))
  arith (op : ArithOp) (lhs rhs : Expr) (type : Ty) (l r : Emission Operand)
    (hLeft : onOperand lhs l) (hRight : onOperand rhs r) :
    onValue (.arith op lhs rhs type) (do
      let l ← l
      let r ← r
      return .binary op l r)
  neg (operand : Expr) (type : Ty) (o : Emission Operand) (h : onOperand operand o) :
    onValue (.neg operand type) (do return .negate (← o))
  materialize (e : Expr) (j : Target → Target → Emission Unit) (hLogical : e.isLogical = true)
    (hCode : e.emitValue = materialize j) (h : onJumps e j) : onValue e (materialize j)
  reduced (e : Expr) (v : Emission Rvalue) (h : onValue e v) : onOperand e (reduced v)
  truth (b : Bool) : onJumps (.const (.bool b)) fun onTrue onFalse =>
    goto (if b then onTrue else onFalse)
  value (e : Expr) (o : Emission Operand) (hLogical : e.isLogical = false)
    (h : onOperand e o) : onJumps e (jumpsOnValue o)
  not (operand : Expr) (j : Target → Target → Emission Unit) (h : onJumps operand j) :
    onJumps (.not operand) fun onTrue onFalse => j onFalse onTrue
  rel (op : RelOp) (lhs rhs : Expr) (l r : Emission Operand) (hLeft : onOperand lhs l)
    (hRight : onOperand rhs r) : onJumps (.rel op lhs rhs) (jumpsOnRelation op l r)
  and (lhs rhs : Expr) (l r : Target → Target → Emission Unit) (hLeft : onJumps lhs l)
    (hRight : onJumps rhs r) : onJumps (.and lhs rhs) (jumpsOnBoth l r)
  or (lhs rhs : Expr) (l r : Target → Target → Emission Unit) (hLeft : onJumps lhs l)
    (hRight : onJumps rhs r) : onJumps (.or lhs rhs) (jumpsOnEither l r)

/-- The code of an expression has what the combinators keep up: its `Expr.emitValue`, its
`Expr.emitOperand` and its `Expr.emitJumps`. -/
structure Expr.HasCode (onValue : Expr → Emission Rvalue → Prop)
    (onOperand : Expr → Emission Operand → Prop)
    (onJumps : Expr → (Target → Target → Emission Unit) → Prop) (e : Expr) : Prop where
  value : onValue e e.emitValue
  operand : onOperand e e.emitOperand
  jumps : onJumps e e.emitJumps

/-- Code for values comes with code for operands and, unless the expression is logical, for jumps
(`Expr.emitJumps_eq_jumpsOnValue`). -/
theorem Expr.HasCode.of_value {e : Expr} (rules : Expr.CodeRules onValue onOperand onJumps)
    (hLogical : e.isLogical = false) (hValue : onValue e e.emitValue) :
    e.HasCode onValue onOperand onJumps where
  value := hValue
  operand := rules.reduced e _ hValue
  jumps := by
    -- a truth constant decides its jumps at once, everything else is tested
    by_cases hConstant : e.isTruthConstant = true
    · cases e with
      | const c =>
        cases c with
        | bool b => exact rules.truth b
        | _ => cases hConstant
      | _ => cases hConstant
    · rw [Expr.emitJumps_eq_jumpsOnValue hLogical (Bool.eq_false_iff.mpr hConstant)]
      exact rules.value e _ hLogical (rules.reduced e _ hValue)

/-- Code for jumps of a logical expression comes with code for its value
(`Expr.emitValue_eq_materialize`). -/
theorem Expr.HasCode.of_jumps {e : Expr} (rules : Expr.CodeRules onValue onOperand onJumps)
    (hLogical : e.isLogical = true) (hJumps : onJumps e e.emitJumps) :
    e.HasCode onValue onOperand onJumps where
  value := by
    have hCode := Expr.emitValue_eq_materialize (S := Supply) hLogical
    rw [hCode]
    exact rules.materialize e _ hLogical hCode hJumps
  operand := by
    have hCode := Expr.emitValue_eq_materialize (S := Supply) hLogical
    rw [Expr.emitOperand, hCode]
    exact rules.reduced e _ (rules.materialize e _ hLogical hCode hJumps)
  jumps := hJumps

/-- **What the combinators keep up holds of all expressions**, by induction on the expression:
`Expr.CodeRules` are the steps. -/
theorem Expr.emission_induction (rules : Expr.CodeRules onValue onOperand onJumps) (e : Expr) :
    e.HasCode onValue onOperand onJumps := by
  -- what has a value comes first, then what is tested by jumps
  induction e with
  | const c =>
    refine .of_value rules rfl ?_
    rw [emitValue]
    exact rules.const c
  | var x =>
    refine .of_value rules rfl ?_
    rw [emitValue]
    exact rules.var x
  | access array index type ih =>
    refine .of_value rules rfl ?_
    rw [emitValue]
    exact rules.access array index type _ ih.operand
  | arith op lhs rhs type ihLeft ihRight =>
    refine .of_value rules rfl ?_
    rw [emitValue]
    exact rules.arith op lhs rhs type _ _ ihLeft.operand ihRight.operand
  | neg operand type ih =>
    refine .of_value rules rfl ?_
    rw [emitValue]
    exact rules.neg operand type _ ih.operand
  | not operand ih =>
    refine .of_jumps rules rfl ?_
    rw [emitJumps]
    exact rules.not operand _ ih.jumps
  | rel op lhs rhs ihLeft ihRight =>
    refine .of_jumps rules rfl ?_
    rw [emitJumps]
    exact rules.rel op lhs rhs _ _ ihLeft.operand ihRight.operand
  | and lhs rhs ihLeft ihRight =>
    refine .of_jumps rules rfl ?_
    rw [emitJumps]
    exact rules.and lhs rhs _ _ ihLeft.jumps ihRight.jumps
  | or lhs rhs ihLeft ihRight =>
    refine .of_jumps rules rfl ?_
    rw [emitJumps]
    exact rules.or lhs rhs _ _ ihLeft.jumps ihRight.jumps

end

end JumpCode
