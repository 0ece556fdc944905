import JumpCode.Stmt.Basic

/-!
# JumpCode — what programs do

The meaning of trees. Values, and what the operators make of them, are left open: an
`Interpretation` says it, and arithmetic may fail. Statements have a big-step semantics, in which a
break leaves the innermost loop around it; a run that does not end has no outcome.

* `Expr.eval` — the value of an expression, its operands from left to right;
* `Stmt.Runs` — the outcome of a statement.
-/

namespace JumpCode

/-! ## Interpretations -/

/-- What constants, operators and relations mean: values are of any type, and arithmetic may fail in
any way. Only the two truth constants are told apart. -/
structure Interpretation (Value Failure : Type) where
  constant : Constant → Value
  arith : ArithOp → Value → Value → Except Failure Value
  negate : Value → Except Failure Value
  compare : RelOp → Value → Value → Bool
  truth : Value → Bool
  truth_bool (b : Bool) : truth (constant (.bool b)) = b

/-- The value of every variable, and of every array at every offset. A variable is its `Symbol`, so
that names which are declared twice are kept apart. -/
structure Memory (Value : Type) where
  vars : Symbol → Value
  elements : Symbol → Value → Value

namespace Memory

variable {Value : Type}

/-- The memory with a variable changed. -/
def set (m : Memory Value) (x : Symbol) (v : Value) : Memory Value :=
  { m with vars := fun y => if y = x then v else m.vars y }

/-- The memory with an array changed at an offset. -/
def put [DecidableEq Value] (m : Memory Value) (array : Symbol) (offset v : Value) :
    Memory Value :=
  { m with
    elements := fun y i => if y = array ∧ i = offset then v else m.elements y i }

end Memory

/-! ## Expressions -/

section Expressions

variable {Value Failure : Type} (I : Interpretation Value Failure)

/-- A truth value, as what the `Interpretation` makes of its constant. -/
def Interpretation.bool (b : Bool) : Value := I.constant (.bool b)

/-- The value of an `Expr`, or the failure of the first operator that fails. The second operand of a
connective counts only where the first one does not decide. -/
def Expr.eval (m : Memory Value) : Expr → Except Failure Value
  | .const c => .ok (I.constant c)
  | .var x => .ok (m.vars x)
  | .access array index _ => do return m.elements array (← index.eval m)
  | .arith op lhs rhs _ => do
    let a ← lhs.eval m
    let b ← rhs.eval m
    I.arith op a b
  | .neg operand _ => do I.negate (← operand.eval m)
  | .not operand => do return I.bool (!I.truth (← operand.eval m))
  | .rel op lhs rhs => do
    let a ← lhs.eval m
    let b ← rhs.eval m
    return I.bool (I.compare op a b)
  | .and lhs rhs => do
    if I.truth (← lhs.eval m) then return I.bool (I.truth (← rhs.eval m)) else return I.bool false
  | .or lhs rhs => do
    if I.truth (← lhs.eval m) then return I.bool true else return I.bool (I.truth (← rhs.eval m))

/-- Whether an `Expr` is true (`Interpretation.truth`). -/
def Expr.test (m : Memory Value) (c : Expr) : Except Failure Bool := do
  return I.truth (← c.eval I m)

@[simp] theorem Interpretation.truth_ofBool (b : Bool) : I.truth (I.bool b) = b := I.truth_bool b

end Expressions

/-! ## Statements -/

/-- How a `Stmt` ends: it is done, it has been left by a break, or an operator has failed. -/
inductive Outcome (Value Failure : Type)
  | done (m : Memory Value)
  | left (m : Memory Value)
  | failed (failure : Failure) (m : Memory Value)

/-- A statement ends in an `Outcome`. A break is handed on up to the innermost loop around it, which
is done then; nothing is said of a run that does not end. -/
inductive Stmt.Runs {Value Failure : Type} [DecidableEq Value] (I : Interpretation Value Failure) :
    Memory Value → Stmt → Outcome Value Failure → Prop
  | null {m : Memory Value} : Runs I m .null (.done m)
  | seq_nil {m : Memory Value} : Runs I m (.seq []) (.done m)
  | seq_done {m m₁ : Memory Value} {x : Stmt} {rest : List Stmt} {o : Outcome Value Failure}
      (hFirst : Runs I m x (.done m₁)) (hRest : Runs I m₁ (.seq rest) o) :
      Runs I m (.seq (x :: rest)) o
  | seq_left {m m₁ : Memory Value} {x : Stmt} {rest : List Stmt}
      (hFirst : Runs I m x (.left m₁)) : Runs I m (.seq (x :: rest)) (.left m₁)
  | seq_failed {m m₁ : Memory Value} {x : Stmt} {rest : List Stmt} {f : Failure}
      (hFirst : Runs I m x (.failed f m₁)) : Runs I m (.seq (x :: rest)) (.failed f m₁)
  | ifThen_true {m : Memory Value} {c : Expr} {x : Stmt} {o : Outcome Value Failure}
      (hTest : c.test I m = .ok true) (hBody : Runs I m x o) : Runs I m (.ifThen c x) o
  | ifThen_false {m : Memory Value} {c : Expr} {x : Stmt} (hTest : c.test I m = .ok false) :
      Runs I m (.ifThen c x) (.done m)
  | ifThen_failed {m : Memory Value} {c : Expr} {x : Stmt} {f : Failure}
      (hTest : c.test I m = .error f) : Runs I m (.ifThen c x) (.failed f m)
  | ifElse_true {m : Memory Value} {c : Expr} {x y : Stmt} {o : Outcome Value Failure}
      (hTest : c.test I m = .ok true) (hBody : Runs I m x o) : Runs I m (.ifElse c x y) o
  | ifElse_false {m : Memory Value} {c : Expr} {x y : Stmt} {o : Outcome Value Failure}
      (hTest : c.test I m = .ok false) (hOtherwise : Runs I m y o) : Runs I m (.ifElse c x y) o
  | ifElse_failed {m : Memory Value} {c : Expr} {x y : Stmt} {f : Failure}
      (hTest : c.test I m = .error f) : Runs I m (.ifElse c x y) (.failed f m)
  | while_true {m m₁ : Memory Value} {exit : LoopExit} {c : Expr} {x : Stmt}
      {o : Outcome Value Failure} (hTest : c.test I m = .ok true) (hBody : Runs I m x (.done m₁))
      (hAgain : Runs I m₁ (.whileLoop exit c x) o) : Runs I m (.whileLoop exit c x) o
  | while_left {m m₁ : Memory Value} {exit : LoopExit} {c : Expr} {x : Stmt}
      (hTest : c.test I m = .ok true) (hBody : Runs I m x (.left m₁)) :
      Runs I m (.whileLoop exit c x) (.done m₁)
  | while_failed {m m₁ : Memory Value} {exit : LoopExit} {c : Expr} {x : Stmt} {f : Failure}
      (hTest : c.test I m = .ok true) (hBody : Runs I m x (.failed f m₁)) :
      Runs I m (.whileLoop exit c x) (.failed f m₁)
  | while_false {m : Memory Value} {exit : LoopExit} {c : Expr} {x : Stmt}
      (hTest : c.test I m = .ok false) : Runs I m (.whileLoop exit c x) (.done m)
  | while_testFailed {m : Memory Value} {exit : LoopExit} {c : Expr} {x : Stmt} {f : Failure}
      (hTest : c.test I m = .error f) : Runs I m (.whileLoop exit c x) (.failed f m)
  | do_true {m m₁ : Memory Value} {exit : LoopExit} {c : Expr} {x : Stmt}
      {o : Outcome Value Failure} (hBody : Runs I m x (.done m₁)) (hTest : c.test I m₁ = .ok true)
      (hAgain : Runs I m₁ (.doLoop exit x c) o) : Runs I m (.doLoop exit x c) o
  | do_left {m m₁ : Memory Value} {exit : LoopExit} {c : Expr} {x : Stmt}
      (hBody : Runs I m x (.left m₁)) : Runs I m (.doLoop exit x c) (.done m₁)
  | do_failed {m m₁ : Memory Value} {exit : LoopExit} {c : Expr} {x : Stmt} {f : Failure}
      (hBody : Runs I m x (.failed f m₁)) : Runs I m (.doLoop exit x c) (.failed f m₁)
  | do_false {m m₁ : Memory Value} {exit : LoopExit} {c : Expr} {x : Stmt}
      (hBody : Runs I m x (.done m₁)) (hTest : c.test I m₁ = .ok false) :
      Runs I m (.doLoop exit x c) (.done m₁)
  | do_testFailed {m m₁ : Memory Value} {exit : LoopExit} {c : Expr} {x : Stmt} {f : Failure}
      (hBody : Runs I m x (.done m₁)) (hTest : c.test I m₁ = .error f) :
      Runs I m (.doLoop exit x c) (.failed f m₁)
  | breakTo {m : Memory Value} {exit : LoopExit} : Runs I m (.breakTo exit) (.left m)
  | set {m : Memory Value} {x : Symbol} {a : Expr} {v : Value} (hValue : a.eval I m = .ok v) :
      Runs I m (.set x a) (.done (m.set x v))
  | set_failed {m : Memory Value} {x : Symbol} {a : Expr} {f : Failure}
      (hValue : a.eval I m = .error f) : Runs I m (.set x a) (.failed f m)
  | store {m : Memory Value} {target : Access} {a : Expr} {i v : Value}
      (hIndex : target.index.eval I m = .ok i) (hValue : a.eval I m = .ok v) :
      Runs I m (.store target a) (.done (m.put target.array i v))
  | store_indexFailed {m : Memory Value} {target : Access} {a : Expr} {f : Failure}
      (hIndex : target.index.eval I m = .error f) : Runs I m (.store target a) (.failed f m)
  | store_failed {m : Memory Value} {target : Access} {a : Expr} {i : Value} {f : Failure}
      (hIndex : target.index.eval I m = .ok i) (hValue : a.eval I m = .error f) :
      Runs I m (.store target a) (.failed f m)

end JumpCode
