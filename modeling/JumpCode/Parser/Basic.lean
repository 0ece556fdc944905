import JumpCode.Event
import JumpCode.Stmt.Basic
import JumpCode.Token.Lexer

/-!
# JumpCode — parsers

A `Parser` reads tokens with one token of lookahead and keeps track of what is declared, how much
storage is used and which loops are open. It may stop with an error of the program, or because the
fuel that bounds its recursion is used up; in both cases its last state is kept.

* `Parser.peek`, `Parser.next`, `Parser.expect` — the ways to read a token;
* `Parser.inScope`, `Parser.inLoop` — what is opened for a part of the program is closed after it,
  whether that part is well formed or not.
-/

namespace JumpCode

/-! ## States -/

/-- The state of a `Parser`: what is left to be read, and what has been read so far comes to. -/
structure ParserState where
  /-- The tokens to come. -/
  rest : List (Located Token)
  /-- What the lexer reports behind the last token, if it fails there. -/
  ending : Option (Located LexError)
  /-- The span of the last token read. -/
  last : Span
  /-- The declarations in force. -/
  scope : Scope
  /-- The storage taken by all declarations so far, in bytes. -/
  used : Nat
  /-- The exits of the open loops, the innermost first. -/
  loops : List LoopExit
  /-- How many loops have been met so far. -/
  met : Nat
  /-- What has happened, the latest first. -/
  log : List Event

/-- The state before a program: nothing is read, declared or open. -/
def ParserState.initial (tokens : List (Located Token)) (ending : Option (Located LexError)) :
    ParserState :=
  ⟨tokens, ending, .first, .empty, 0, [], 0, []⟩

/-- Why a `Parser` stops. -/
inductive Stop
  /-- The program is at fault. -/
  | error (failure : Located CompileError)
  /-- The recursion is deeper than the fuel allows. -/
  | exhausted
deriving DecidableEq

/-- A parser: a program over a `ParserState` that may come to a `Stop`. The state is kept then, so
that the log up to there is not lost. -/
abbrev Parser := EStateM Stop ParserState

namespace Parser

/-! ## Failures -/

/-- Stops with a `CompileError` at a place. -/
def failAt {α : Type} (span : Span) (error : CompileError) : Parser α :=
  throw (.error ⟨error, span⟩)

/-- Stops with a `GrammarError` at the last token read. -/
def fail {α : Type} (error : GrammarError) : Parser α := do
  failAt (← get).last (.grammatical error)

/-- Goes on with a value, or stops at a place because of the rule that is broken (`SemanticError`).
-/
def check {α : Type} (span : Span) : Except SemanticError α → Parser α
  | .ok a => pure a
  | .error error => failAt span (.semantic error)

/-! ## Tokens -/

/-- The next token, which stays unread, or `none` at the end of the program. If the lexer fails
there, its `LexError` ends the program instead. -/
def peek : Parser (Option Token) := do
  let s ← get
  match s.rest, s.ending with
  | token :: _, _ => return some token.value
  | [], some failure => failAt failure.span (.lexical failure.value)
  | [], none => return none

/-- Reads the next token, which has to be there (`GrammarError.unexpectedEnd`). -/
def next : Parser (Located Token) := do
  let s ← get
  match s.rest, s.ending with
  | token :: rest, _ =>
    set { s with rest := rest, last := token.span }
    return token
  | [], some failure => failAt failure.span (.lexical failure.value)
  | [], none => fail .unexpectedEnd

/-- Reads the next token, which has to be this one, and gives its place. At the end of the program
the token is missing (`GrammarError.missingToken`). -/
def expect (token : Token) : Parser Span := do
  let s ← get
  match s.rest, s.ending with
  | [], none => fail (.missingToken token)
  | _, _ =>
    let found ← next
    if found.value = token then return found.span
    else fail (.unexpectedToken token found.value)

/-- Reads a `Mark`, which has to be next. -/
def expectMark (m : Mark) : Parser Span := expect (.mark m)

/-- Reads a `Keyword`, which has to be next. -/
def expectKeyword (k : Keyword) : Parser Span := expect (.keyword k)

/-- Reads a name, which has to be next (`GrammarError.expectedName`). -/
def name : Parser (Located String) := do
  let found ← next
  match found.value with
  | .name text => return ⟨text, found.span⟩
  | token => fail (.expectedName token)

/-- Whether a `Mark` is next. It stays unread. -/
def atMark (m : Mark) : Parser Bool := do return (← peek) == some (.mark m)

/-! ## Scopes and loops -/

/-- The state with a block opened (`Scope.enter`), which the log tells of. -/
def enterScope (s : ParserState) : ParserState :=
  let scope := s.scope.enter
  { s with scope := scope, log := .scopeEntered scope.depth :: s.log }

/-- The state with the innermost block closed (`Scope.leave`), which the log tells of. -/
def leaveScope (s : ParserState) : ParserState :=
  { s with
    scope := s.scope.leave
    log := .scopeLeft s.scope.depth s.scope.frame.length :: s.log }

/-- Reads a part of the program inside a block of its own: `enterScope` before it, and `leaveScope`
after it even if it stops. -/
def inScope {α : Type} (p : Parser α) : Parser α := fun s =>
  match p (enterScope s) with
  | .ok a s => .ok a (leaveScope s)
  | .error e s => .error e (leaveScope s)

/-- The state inside a loop with this exit, which a `Stmt.breakTo` leaves through from now on. -/
def enterLoop (exit : LoopExit) (s : ParserState) : ParserState :=
  let loops := exit :: s.loops
  { s with loops := loops, log := .loopEntered loops.length :: s.log }

/-- The state with the innermost loop closed. -/
def leaveLoop (s : ParserState) : ParserState :=
  let loops := s.loops.tail
  { s with loops := loops, log := .loopLeft loops.length :: s.log }

/-- Reads a part of the program inside a loop: `enterLoop` before it, and `leaveLoop` after it even
if it stops. -/
def inLoop {α : Type} (exit : LoopExit) (p : Parser α) : Parser α := fun s =>
  match p (enterLoop exit s) with
  | .ok a s => .ok a (leaveLoop s)
  | .error e s => .error e (leaveLoop s)

/-- A `LoopExit` that no loop has had yet. -/
def newExit : Parser LoopExit := do
  let s ← get
  set { s with met := s.met + 1 }
  return ⟨s.met⟩

/-! ## Names -/

/-- The declaration of a name that is in force at its use (`Scope.lookup?`); without one the name is
undeclared. -/
def resolve (name : String) (span : Span) : Parser Symbol := do
  match (← get).scope.lookup? name with
  | some x => return x
  | none => failAt span (.semantic (.undeclared name))

/-- Declares a name behind all storage that is taken so far. The storage of all declarations
together may not exceed `maxWidth`, and the block must not have the name yet. -/
def declare (name : String) (type : Ty) (span : Span) : Parser Unit := do
  let s ← get
  let used := s.used + type.width
  if maxWidth < used then failAt span (.semantic (.tooLarge name))
  let x : Symbol := ⟨name, type, s.used⟩
  match s.scope.declare? x with
  | none => failAt span (.semantic (.redeclared name))
  | some scope => set { s with scope := scope, used := used, log := .declared x :: s.log }

end Parser

end JumpCode
