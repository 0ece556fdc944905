import JumpCode.Expr.Basic

/-!
# JumpCode — statements

Statements are trees. Every loop has an exit of its own, and a break names the exit of the loop
that it leaves. Empty statements vanish from sequences, so that a sequence has two items at least
and none of them is empty: this is what `Stmt.sequence` sees to.
-/

namespace JumpCode

/-- The exit of a loop, told from other exits by its number. `Stmt.breakTo` names the one that it
leaves through. -/
structure LoopExit where
  number : Nat
deriving DecidableEq, Repr

/-- A statement, with its conditions and values as `Expr`. -/
inductive Stmt
  /-- Does nothing. -/
  | null
  /-- Statements one after the other. -/
  | seq (items : List Stmt)
  | ifThen (condition : Expr) (body : Stmt)
  | ifElse (condition : Expr) (body otherwise : Stmt)
  /-- Tests before each round. -/
  | whileLoop (exit : LoopExit) (condition : Expr) (body : Stmt)
  /-- Tests after each round. -/
  | doLoop (exit : LoopExit) (body : Stmt) (condition : Expr)
  /-- Leaves the loop with this exit. -/
  | breakTo (exit : LoopExit)
  /-- Assigns to a variable. -/
  | set (target : Symbol) (value : Expr)
  /-- Assigns to an element of an array. -/
  | store (target : Access) (value : Expr)

namespace Stmt

/-- Whether a statement is `Stmt.null`. -/
def isNull : Stmt → Bool
  | null => true
  | _ => false

/-- Statements in order, without the empty ones: `Stmt.null` if none is left, and a single one as it
is. `Stmt.seq` holds two items at least, then. -/
def sequence (items : List Stmt) : Stmt :=
  match items.filter (!·.isNull) with
  | [] => null
  | [s] => s
  | items => seq items

end Stmt

end JumpCode
