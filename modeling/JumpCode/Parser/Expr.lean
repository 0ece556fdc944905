import JumpCode.Parser.Basic

/-!
# JumpCode — reading expressions

Binary operators stand on six levels of precedence. On each level operands of the next tighter
level are joined from left to right; relations alone do not chain. The tightest level has unary
operands: factors under any number of unary operators.

    disjunction  a || b            relation  a < b  a <= b  a > b  a >= b
    conjunction  a && b            sum       a + b  a - b
    equality     a == b  a != b    product   a * b  a / b

Every function takes fuel, which bounds how deep calls may nest.
-/

namespace JumpCode

/-! ## Levels of precedence -/

/-- A level of precedence, from the loosest to the tightest. -/
inductive Level
  | disjunction
  | conjunction
  | equality
  | relation
  | sum
  | product
deriving DecidableEq, Repr

namespace Level

/-- The `BinaryOp` of a level that a `Mark` stands for. -/
def operator? : Level → Mark → Option BinaryOp
  | disjunction, .or => some .or
  | conjunction, .and => some .and
  | equality, .equal => some (.rel .equal)
  | equality, .notEqual => some (.rel .notEqual)
  | relation, .less => some (.rel .less)
  | relation, .lessOrEqual => some (.rel .lessOrEqual)
  | relation, .greater => some (.rel .greater)
  | relation, .greaterOrEqual => some (.rel .greaterOrEqual)
  | sum, .plus => some (.arith .add)
  | sum, .minus => some (.arith .sub)
  | product, .times => some (.arith .mul)
  | product, .slash => some (.arith .div)
  | _, _ => none

/-- The `BinaryOp` of a level that a token stands for, if it is a `Mark`. -/
def operatorOf? (level : Level) : Option Token → Option BinaryOp
  | some (.mark m) => level.operator? m
  | _ => none

/-- The level of the operands, if they may have binary operators of their own; those of
`Level.product` are read by `Parser.unary`. -/
def tighter? : Level → Option Level
  | disjunction => some conjunction
  | conjunction => some equality
  | equality => some relation
  | relation => some sum
  | sum => some product
  | product => none

/-- Whether the operators of a level may follow one another, which those of `Level.relation` do not.
-/
def chains : Level → Bool
  | relation => false
  | _ => true

end Level

namespace Parser

/-- The `UnaryOp` that a token stands for. -/
def unaryOf? : Option Token → Option UnaryOp
  | some (.mark .minus) => some .neg
  | some (.mark .not) => some .not
  | _ => none

/-! ## Expressions -/

mutual

/-- Reads an expression of a `Level`: an operand, and what `chain` joins to it. -/
def expr : Nat → Level → Parser Expr
  | 0, _ => throw .exhausted
  | fuel + 1, level => do
    let lhs ← operand fuel level
    chain fuel level lhs

/-- Reads an operand for the operators of a `Level`: an expression of the next tighter one, or what
`unary` reads. -/
def operand : Nat → Level → Parser Expr
  | 0, _ => throw .exhausted
  | fuel + 1, level =>
    match level.tighter? with
    | some level => expr fuel level
    | none => unary fuel

/-- Reads operators of a `Level` and their right operands behind a left operand, each joined by
`Expr.binary` at once. -/
def chain : Nat → Level → Expr → Parser Expr
  | 0, _, _ => throw .exhausted
  | fuel + 1, level, lhs => do
    match level.operatorOf? (← peek) with
    | none => return lhs
    | some op =>
      let found ← next
      let rhs ← operand fuel level
      let joined ← check found.span (Expr.binary op lhs rhs)
      if level.chains then chain fuel level joined else return joined

/-- Reads a `factor` under any number of unary operators, each joined by `Expr.unary`. -/
def unary : Nat → Parser Expr
  | 0 => throw .exhausted
  | fuel + 1 => do
    match unaryOf? (← peek) with
    | some op =>
      let found ← next
      let e ← unary fuel
      check found.span (Expr.unary op e)
    | none => factor fuel

/-- Reads a literal, a variable, an element of an array, or an expression in parentheses. A name
with a bracket behind it is read on by `access`. -/
def factor : Nat → Parser Expr
  | 0 => throw .exhausted
  | fuel + 1 => do
    let found ← next
    match found.value with
    | .mark .openParen =>
      let e ← expr fuel .disjunction
      let _ ← expectMark .closeParen
      return e
    | .intLiteral value => return .const (.int value)
    | .realLiteral value => return .const (.real value)
    | .keyword .trueWord => return .const (.bool true)
    | .keyword .falseWord => return .const (.bool false)
    | .name text =>
      let x ← resolve text found.span
      if ← atMark .openSquare then return .ofAccess (← access fuel x found.span) else return .var x
    | token => fail (.expectedExpr token)

/-- Reads the subscripts of an array. Its name, at `span`, is to blame if it has too many
(`SemanticError.notAnArray`). -/
def access : Nat → Symbol → Span → Parser Access
  | 0, _, _ => throw .exhausted
  | fuel + 1, x, span => do
    let (index, type) ← subscript fuel x span x.type
    subscripts fuel x span index type

/-- Reads further subscripts behind those that have led to this index and type. Each adds the term
that `subscript` reads to the index. -/
def subscripts : Nat → Symbol → Span → Expr → Ty → Parser Access
  | 0, _, _, _, _ => throw .exhausted
  | fuel + 1, x, span, index, type => do
    if ← atMark .openSquare then
      let (term, type) ← subscript fuel x span type
      let index ← check span (Expr.binary (.arith .add) index term)
      subscripts fuel x span index type
    else return ⟨x, index, type⟩

/-- Reads one subscript of something of this type. It comes to a term of the index, the number in
brackets times the width of an element, and to the type of the element (`Ty.element?`). -/
def subscript : Nat → Symbol → Span → Ty → Parser (Expr × Ty)
  | 0, _, _, _ => throw .exhausted
  | fuel + 1, x, span, type => do
    let bracket ← expectMark .openSquare
    let index ← expr fuel .disjunction
    let _ ← expectMark .closeSquare
    match type.element? with
    | none => failAt span (.semantic (.notAnArray x.name type))
    | some element =>
      let width : Expr := .const (.int element.width)
      let term ← check bracket (Expr.binary (.arith .mul) index width)
      return (term, element)

end

end Parser

end JumpCode
