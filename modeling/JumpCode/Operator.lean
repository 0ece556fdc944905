/-!
# JumpCode — operators

The operators of expressions, and which of them the emitted instructions know.
-/

namespace JumpCode

/-- An arithmetic operator. Instructions know these four as they are (`Rvalue.binary`); which types
they take is up to `Ty.arithmetic?`. -/
inductive ArithOp
  | add
  | sub
  | mul
  | div
deriving DecidableEq, Repr

/-- The spelling of an `ArithOp`, in programs and in listings alike. -/
def ArithOp.text : ArithOp → String
  | add => "+"
  | sub => "-"
  | mul => "*"
  | div => "/"

/-- A relation between two values. Instructions know relations only as tests of conditional jumps
(`Test.compare`). -/
inductive RelOp
  | equal
  | notEqual
  | less
  | lessOrEqual
  | greater
  | greaterOrEqual
deriving DecidableEq, Repr

/-- The spelling of a `RelOp`, in programs and in listings alike. -/
def RelOp.text : RelOp → String
  | equal => "=="
  | notEqual => "!="
  | less => "<"
  | lessOrEqual => "<="
  | greater => ">"
  | greaterOrEqual => ">="

/-- An operator between two operands: an `ArithOp`, a `RelOp`, or a connective. Connectives are
known to expressions alone; in code they become jumps. -/
inductive BinaryOp
  | arith (op : ArithOp)
  | rel (op : RelOp)
  | and
  | or
deriving DecidableEq, Repr

/-- The spelling of a `BinaryOp`, as messages show it. -/
def BinaryOp.text : BinaryOp → String
  | arith op => op.text
  | rel op => op.text
  | and => "&&"
  | or => "||"

/-- All binary operators, each of them once. -/
def BinaryOp.all : List BinaryOp :=
  [ArithOp.add, .sub, .mul, .div].map arith ++
    [RelOp.equal, .notEqual, .less, .lessOrEqual, .greater, .greaterOrEqual].map rel ++ [and, or]

/-- An operator before its operand. A negation becomes `Rvalue.negate`, and a `not` only swaps the
targets of jumps. -/
inductive UnaryOp
  | neg
  | not
deriving DecidableEq, Repr

/-- The spelling of a `UnaryOp`, as messages show it. -/
def UnaryOp.text : UnaryOp → String
  | neg => "-"
  | not => "!"

end JumpCode
