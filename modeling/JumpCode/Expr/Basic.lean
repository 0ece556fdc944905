import JumpCode.Error
import JumpCode.Instruction

/-!
# JumpCode — expressions

Expressions are trees whose types are settled when they are built. The functions `Expr.binary` and
`Expr.unary` build them under the typing rules, or say which rule is broken:

* arithmetic takes numbers, and the wider operand decides the type;
* a minus makes at least an integer of a number;
* a relation holds between values of one type, which is no array;
* the logical operators take truth values.
-/

namespace JumpCode

/-! ## Trees -/

/-- An expression. Elements of arrays are addressed by one index, in bytes from the start of the
array. Types are settled by `Expr.binary` and `Expr.unary`, and by `Parser.access` for elements. -/
inductive Expr
  | const (c : Constant)
  | var (x : Symbol)
  | access (array : Symbol) (index : Expr) (type : Ty)
  | arith (op : ArithOp) (lhs rhs : Expr) (type : Ty)
  | neg (operand : Expr) (type : Ty)
  | not (operand : Expr)
  | rel (op : RelOp) (lhs rhs : Expr)
  | and (lhs rhs : Expr)
  | or (lhs rhs : Expr)
deriving DecidableEq

/-- An element of an array, or a part of it that is an array itself: what may stand on the left of
an assignment, and be subscripted further. -/
structure Access where
  array : Symbol
  index : Expr
  type : Ty
deriving DecidableEq

/-- The type of a `Constant`. -/
def Constant.type : Constant → Ty
  | int _ => .int
  | real _ => .float
  | bool _ => .bool

namespace Expr

/-- The value of the element that an `Access` names, as an expression. -/
def ofAccess (a : Access) : Expr := access a.array a.index a.type

/-- The type of an expression. It is kept where an operator does not determine it. -/
def type : Expr → Ty
  | const c => c.type
  | var x => x.type
  | access _ _ type => type
  | arith _ _ _ type => type
  | neg _ type => type
  | not _ => .bool
  | rel _ _ _ => .bool
  | and _ _ => .bool
  | or _ _ => .bool

/-! ## Typing rules -/

/-- Two expressions under a `BinaryOp`, or the `SemanticError` that it cannot take values of these
types. -/
def binary (op : BinaryOp) (lhs rhs : Expr) : Except SemanticError Expr :=
  let mismatch := Except.error (.binaryMismatch op lhs.type rhs.type)
  match op with
  | .arith op =>
    match lhs.type.arithmetic? rhs.type with
    | some type => .ok (arith op lhs rhs type)
    | none => mismatch
  | .rel op => if lhs.type = rhs.type ∧ ¬lhs.type.isArray then .ok (rel op lhs rhs) else mismatch
  | .and => if lhs.type = .bool ∧ rhs.type = .bool then .ok (and lhs rhs) else mismatch
  | .or => if lhs.type = .bool ∧ rhs.type = .bool then .ok (or lhs rhs) else mismatch

/-- An expression under a `UnaryOp`, or the `SemanticError` that it cannot take a value of this
type. -/
def unary (op : UnaryOp) (operand : Expr) : Except SemanticError Expr :=
  let mismatch := Except.error (.unaryMismatch op operand.type)
  match op with
  | .neg =>
    match Ty.int.arithmetic? operand.type with
    | some type => .ok (neg operand type)
    | none => mismatch
  | .not => if operand.type = .bool then .ok (not operand) else mismatch

end Expr

end JumpCode
