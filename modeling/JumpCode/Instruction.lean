import JumpCode.Operator
import JumpCode.Real64.Shortest
import JumpCode.Scope

/-!
# JumpCode — instructions

The code that programs are compiled to: a flat list of instructions, each with at most one
operator on operands that need no further evaluation. Labels mark places in the list and may be
jumped to from before and from behind.
-/

namespace JumpCode

/-! ## Operands -/

/-- A place in the code, marked by `Instruction.label` and known by its number. -/
structure Label where
  number : Nat
deriving DecidableEq, Repr

/-- The written form of a `Label`, in listings. -/
def Label.render (l : Label) : String := "L" ++ toString l.number

/-- A constant value, as it stands in a program and in its code. -/
inductive Constant
  | int (value : Int)
  | real (value : Real64)
  | bool (value : Bool)
deriving DecidableEq, Repr

/-- The written form of a `Constant`. Reals are written with the fewest digits that read back as the
same value (`Real64.render`). -/
def Constant.render : Constant → String
  | int value => toString value
  | real value => value.render
  | bool true => "true"
  | bool false => "false"

/-- What an instruction reads or writes: a declared `Symbol`, a temporary, or a `Constant`, which is
only read. -/
inductive Operand
  | var (x : Symbol)
  | temp (number : Nat)
  | const (c : Constant)
deriving DecidableEq

/-- The written form of an `Operand`. A variable goes by its name alone, so that two symbols of one
name look alike. -/
def Operand.render : Operand → String
  | var x => x.name
  | temp number => "t" ++ toString number
  | const c => c.render

/-! ## Values and tests -/

/-- What is assigned: the application of at most one operator to operands. `Rvalue.index` loads the
element that many bytes from the start of an array. -/
inductive Rvalue
  | use (operand : Operand)
  | binary (op : ArithOp) (lhs rhs : Operand)
  | negate (operand : Operand)
  | index (array : Symbol) (offset : Operand)
deriving DecidableEq

/-- The written form of an `Rvalue`. -/
def Rvalue.render : Rvalue → String
  | use operand => operand.render
  | binary op lhs rhs => lhs.render ++ " " ++ op.text ++ " " ++ rhs.render
  | negate operand => "minus " ++ operand.render
  | index array offset => array.name ++ " [ " ++ offset.render ++ " ]"

/-- What a conditional jump depends on: whether a `RelOp` holds between two operands, or whether one
operand is true. -/
inductive Test
  | compare (op : RelOp) (lhs rhs : Operand)
  | truth (operand : Operand)
deriving DecidableEq

/-- The written form of a `Test`. -/
def Test.render : Test → String
  | compare op lhs rhs => lhs.render ++ " " ++ op.text ++ " " ++ rhs.render
  | truth operand => operand.render

/-! ## Instructions -/

/-- An instruction, with at most one operator. -/
inductive Instruction
  /-- Marks this place. -/
  | label (l : Label)
  /-- Goes on at a place. -/
  | jump (target : Label)
  /-- Goes on at a place if the test comes out as `polarity`. -/
  | branch (test : Test) (polarity : Bool) (target : Label)
  /-- Assigns a value to a variable or temporary. -/
  | assign (target : Operand) (value : Rvalue)
  /-- Assigns a value to the element of an array that many bytes from its start. -/
  | store (array : Symbol) (offset value : Operand)
deriving DecidableEq

/-- The written form of an `Instruction`, as the log shows it (`Event.emitted`). -/
def Instruction.render : Instruction → String
  | label l => l.render ++ ":"
  | jump target => "goto " ++ target.render
  | branch test polarity target =>
    (if polarity then "if " else "iffalse ") ++ test.render ++ " goto " ++ target.render
  | assign target value => target.render ++ " = " ++ value.render
  | store array offset value =>
    array.name ++ " [ " ++ offset.render ++ " ] = " ++ value.render

/-! ## Listings -/

/-- An instruction as it stands in a `listing`: a label before what it marks, on the same line, and
any other instruction indented, on a line that ends with it. -/
def Instruction.listed : Instruction → String
  | label l => l.render ++ ":"
  | i => "\t" ++ i.render ++ "\n"

/-- The listing of a program: its instructions as `Instruction.listed` has them, and the end of the
line that a last label has begun. -/
def listing (code : List Instruction) : String :=
  String.join (code.map Instruction.listed) ++ "\n"

end JumpCode
