import JumpCode.Parser.Decl
import JumpCode.Parser.Expr

/-!
# JumpCode — reading statements

Statements are told apart by their first token. A block opens a scope, holds declarations and then
statements; a loop opens its exit for its body alone. What is assigned has to have the type of
the target, but numbers of all types can be assigned to each other.
-/

namespace JumpCode

namespace Parser

/-- Whether a value of one type can be assigned to a variable of another: both are numeric, in
whatever way, or both are `Ty.bool`. -/
def assignable (target value : Ty) : Bool :=
  target.isNumeric && value.isNumeric || target == .bool && value == .bool

/-- Whether a value can be assigned to an element of an array: neither is an array itself, and both
have one type or are numeric. -/
def storable (target value : Ty) : Bool :=
  !target.isArray && !value.isArray &&
    (target == value || target.isNumeric && value.isNumeric)

/-- Reads a condition in parentheses for the statement that begins at `span`, which is to blame if
it is not of type `Ty.bool`. -/
def condition (fuel : Nat) (construct : Construct) (span : Span) : Parser Expr := do
  let _ ← expectMark .openParen
  let e ← expr fuel .disjunction
  let _ ← expectMark .closeParen
  if e.type = .bool then return e
  else failAt span (.semantic (.expectedBool construct e.type))

/-- Reads an assignment, to a variable (`Stmt.set`) or to an element of an array (`Stmt.store`). -/
def assignment (fuel : Nat) : Parser Stmt := do
  let found ← name
  let x ← resolve found.value found.span
  let mismatch {α : Type} (span : Span) (target value : Ty) : Parser α :=
    failAt span (.semantic (.assignMismatch target value))
  let s : Stmt ←
    if ← atMark .assign then
      let sign ← expectMark .assign
      let value ← expr fuel .disjunction
      if assignable x.type value.type then pure (.set x value)
      else mismatch sign x.type value.type
    else
      let target ← access fuel x found.span
      let sign ← expectMark .assign
      let value ← expr fuel .disjunction
      if storable target.type value.type then pure (.store target value)
      else mismatch sign target.type value.type
  let _ ← expectMark .semicolon
  return s

/-- Reads a break. It leaves the innermost of the loops that are open, and there has to be one. -/
def breakStmt : Parser Stmt := do
  let span ← expectKeyword .breakWord
  match (← get).loops with
  | [] => failAt span (.semantic .breakOutsideLoop)
  | exit :: _ =>
    let _ ← expectMark .semicolon
    return .breakTo exit

/-- Reads a conditional with the statements that `body` reads. An `else` belongs to it if one comes
next. -/
def ifStmt (fuel : Nat) (body : Parser Stmt) : Parser Stmt := do
  let span ← expectKeyword .ifWord
  let test ← condition fuel .ifElse span
  let onTrue ← body
  if (← peek) == some (.keyword .elseWord) then
    let _ ← next
    return .ifElse test onTrue (← body)
  else return .ifThen test onTrue

/-- Reads a loop that tests first, over the statement that `body` reads inside the loop (`inLoop`).
-/
def whileStmt (fuel : Nat) (body : Parser Stmt) : Parser Stmt := do
  let span ← expectKeyword .whileWord
  let test ← condition fuel .whileLoop span
  let exit ← newExit
  let s ← inLoop exit body
  return .whileLoop exit test s

/-- Reads a loop that tests last, over the statement that `body` reads inside the loop (`inLoop`).
-/
def doStmt (fuel : Nat) (body : Parser Stmt) : Parser Stmt := do
  let _ ← expectKeyword .doWord
  let exit ← newExit
  let s ← inLoop exit body
  let span ← expectKeyword .whileWord
  let test ← condition fuel .doLoop span
  let _ ← expectMark .semicolon
  return .doLoop exit s test

mutual

/-- Reads a statement, which its first token tells from others. -/
def stmt : Nat → Parser Stmt
  | 0 => throw .exhausted
  | fuel + 1 => do
    match ← peek with
    | some (.mark .semicolon) =>
      let _ ← next
      return .null
    | some (.mark .openCurly) => block fuel
    | some (.keyword .ifWord) => ifStmt fuel (stmt fuel)
    | some (.keyword .whileWord) => whileStmt fuel (stmt fuel)
    | some (.keyword .doWord) => doStmt fuel (stmt fuel)
    | some (.keyword .breakWord) => breakStmt
    | _ => assignment fuel

/-- Reads statements up to the end of their block. -/
def stmts : Nat → Parser (List Stmt)
  | 0 => throw .exhausted
  | fuel + 1 => do
    match ← peek with
    | none => return []
    | some (.mark .closeCurly) => return []
    | some _ =>
      let first ← stmt fuel
      let others ← stmts fuel
      return first :: others

/-- Reads a block: declarations and then statements, in a scope of their own (`inScope`). -/
def block : Nat → Parser Stmt
  | 0 => throw .exhausted
  | fuel + 1 => do
    let _ ← expectMark .openCurly
    let items ← inScope do
      decls fuel
      stmts fuel
    let _ ← expectMark .closeCurly
    return .sequence items

end

end Parser

end JumpCode
