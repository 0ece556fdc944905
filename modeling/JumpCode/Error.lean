import JumpCode.Operator
import JumpCode.Text.Quoted
import JumpCode.Token

/-!
# JumpCode — what can be wrong with a program

The causes for which a compilation stops, in three classes: the text has no next token, the tokens
do not form a program, or the program breaks a rule of scopes, types or storage. Each class has
one function that words its causes.
-/

namespace JumpCode

/-! ## Lexical errors -/

/-- The largest integer literal: `Lexer.next` refuses a larger one with `LexError.intOverflow`. -/
def maxInt : Nat := 2147483647

/-- Why the text has no next token. -/
inductive LexError
  /-- The text itself cannot be read. -/
  | input
  /-- No token begins with this character. -/
  | badChar (c : Char)
  /-- An operator lacks its second character. -/
  | expected (c : Char)
  /-- An integer literal is too large. -/
  | intOverflow
  /-- A real literal has no value. -/
  | badReal (text : String)
deriving DecidableEq, Repr

/-- The wording of a `LexError`. -/
def LexError.message : LexError → String
  | input => "I/O error"
  | badChar c => "Bad character " ++ quoteChar c ++ " in input stream"
  | expected c => "Expected " ++ quoteChar c
  | intOverflow => "Integer literal overflow, valid range is [0, " ++ toString maxInt ++ "]"
  | badReal text => "Malformed real literal `" ++ text ++ "`"

/-! ## Grammatical errors -/

/-- Why the tokens do not form a program. Each cause holds what was expected, what was found, or
both. -/
inductive GrammarError
  | unexpectedToken (expected found : Token)
  | missingToken (expected : Token)
  | expectedName (found : Token)
  | expectedType (found : Token)
  | expectedLength (found : Token)
  | expectedExpr (found : Token)
  /-- A declaration gives dimensions on both sides of the name. -/
  | duplicateDims (name : String)
  /-- Something follows the program. -/
  | trailingInput (found : Token)
  | unexpectedEnd
deriving DecidableEq, Repr

/-- The wording of a `GrammarError`. -/
def GrammarError.message : GrammarError → String
  | unexpectedToken expected found =>
    "Expected " ++ expected.render ++ ", found " ++ found.render ++ " instead"
  | missingToken expected => "Expected " ++ expected.render ++ ", none was found instead"
  | expectedName found => "Expected identifier, found " ++ found.render ++ " instead"
  | expectedType found =>
    "Expected any of `int`, `float`, `char`, `bool`, found " ++ found.render ++ " instead"
  | expectedLength found => "Expected array length, found " ++ found.render ++ " instead"
  | expectedExpr found => "Expected an expression, found " ++ found.render ++ " instead"
  | duplicateDims name =>
    "Array dimensions of `" ++ name ++ "` are given both before and after its name"
  | trailingInput found =>
    "Expected end of input after program, found " ++ found.render ++ " instead"
  | unexpectedEnd => "Abrupt end of program"

/-! ## Semantic errors -/

/-- A statement that depends on a condition, which has to be of type `Ty.bool` there
(`SemanticError.expectedBool`). -/
inductive Construct
  | ifElse
  | whileLoop
  | doLoop
deriving DecidableEq, Repr

/-- The word that a `Construct` begins with, for messages. -/
def Construct.name : Construct → String
  | ifElse => "if"
  | whileLoop => "while"
  | doLoop => "do"

/-- Which rule of scopes, types or storage a program breaks, with all that its message names. -/
inductive SemanticError
  | undeclared (name : String)
  | redeclared (name : String)
  | binaryMismatch (op : BinaryOp) (lhs rhs : Ty)
  | unaryMismatch (op : UnaryOp) (operand : Ty)
  | assignMismatch (target value : Ty)
  | expectedBool (construct : Construct) (found : Ty)
  | notAnArray (name : String) (type : Ty)
  | breakOutsideLoop
  /-- A declaration does not fit into the storage that is left. -/
  | tooLarge (name : String)
  /-- An array type cannot be addressed. -/
  | arrayTooLarge (length : Nat) (element : Ty)
deriving DecidableEq

/-- The wording of a `SemanticError`. -/
def SemanticError.message : SemanticError → String
  | undeclared name => "Symbol `" ++ name ++ "` is undeclared"
  | redeclared name => "Symbol `" ++ name ++ "` is already declared in this block"
  | binaryMismatch op lhs rhs =>
    "Type mismatch: operator `" ++ op.text ++ "` cannot be applied to `" ++ lhs.render ++
      "` and `" ++ rhs.render ++ "`"
  | unaryMismatch op operand =>
    "Type mismatch: operator `" ++ op.text ++ "` cannot be applied to `" ++ operand.render ++ "`"
  | assignMismatch target value =>
    "Type mismatch: cannot assign `" ++ value.render ++ "` to `" ++ target.render ++ "`"
  | expectedBool construct found =>
    "Type mismatch: `" ++ construct.name ++ "` condition must be `bool`, found `" ++
      found.render ++ "`"
  | notAnArray name type => "`" ++ name ++ "` has type `" ++ type.render ++ "` and cannot be indexed"
  | breakOutsideLoop => "`break` outside of a loop"
  | tooLarge name => "Declaration of `" ++ name ++ "` exceeds the addressable storage"
  | arrayTooLarge length element =>
    "An array of " ++ toString length ++ " `" ++ element.render ++
      "` exceeds the addressable storage"

/-! ## All errors -/

/-- Why a compilation stops: a cause of one of the three classes. -/
inductive CompileError
  | lexical (cause : LexError)
  | grammatical (cause : GrammarError)
  | semantic (cause : SemanticError)
deriving DecidableEq

namespace CompileError

/-- The class of a `CompileError`, as reports name it. -/
def kind : CompileError → String
  | lexical _ => "Lexical error"
  | grammatical _ => "Syntax error"
  | semantic _ => "Semantic error"

/-- The wording of a `CompileError`, which is that of its cause. -/
def message : CompileError → String
  | lexical cause => cause.message
  | grammatical cause => cause.message
  | semantic cause => cause.message

end CompileError

end JumpCode
