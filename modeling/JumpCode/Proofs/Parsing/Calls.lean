import JumpCode.Program
import JumpCode.Proofs.Parsing.Run

/-!
# JumpCode — the calls of the parser

The functions of the parser call each other, and themselves. What a function comes to does not show
which calls have led there. So each function is written down once more, as a `Script`: it looks at
the state, changes it, stops, or calls a function and goes on with what that returns. That the
functions do what their scripts say is shown in `JumpCode.Proofs.Parsing.Scripts`.

* `Routine`, `Call` — the functions of the parser, and calls of them with their arguments;
* `Call.script` — what a call does before, between and after the calls that it makes in turn;
* `Activation.Calls` — a call that is made while another one runs.
-/

namespace JumpCode

open JumpCode.Parser

/-! ## Functions and calls -/

/-- The functions of the parser. There is one for each `Level` of precedence. A loop is a function
as well, `chain`, `subscripts`, `decls` or `stmts`, which calls itself for the next round. -/
inductive Routine
  | fail
  | check
  | peek
  | next
  | expect
  | expectMark
  | expectKeyword
  | name
  | atMark
  | newExit
  | resolve
  | declare
  | dims
  | optionalDims
  | type
  | decl
  | decls
  | expr (l : Level)
  | operand (l : Level)
  | chain (l : Level)
  | unary
  | factor
  | access
  | subscripts
  | subscript
  | condition
  | assignment
  | breakStmt
  | ifStmt
  | whileStmt
  | doStmt
  | loopBody
  | stmt
  | stmts
  | block
  | program
deriving DecidableEq

/-- Calls of a `Routine` with its arguments, by the type of what it returns. -/
inductive Call : Routine → Type → Type 1
  | fail {α : Type} (error : GrammarError) : Call .fail α
  | check {α : Type} (span : Span) (r : Except SemanticError α) : Call .check α
  | peek : Call .peek (Option Token)
  | next : Call .next (Located Token)
  | expect (token : Token) : Call .expect Span
  | expectMark (m : Mark) : Call .expectMark Span
  | expectKeyword (k : Keyword) : Call .expectKeyword Span
  | name : Call .name (Located String)
  | atMark (m : Mark) : Call .atMark Bool
  | newExit : Call .newExit LoopExit
  | resolve (text : String) (span : Span) : Call .resolve Symbol
  | declare (text : String) (of : Ty) (span : Span) : Call .declare Unit
  | dims (of : Ty) : Call .dims Ty
  | optionalDims (of : Ty) : Call .optionalDims Ty
  | type : Call .type Ty
  | decl : Call .decl Unit
  | decls : Call .decls Unit
  | expr (l : Level) : Call (.expr l) Expr
  | operand (l : Level) : Call (.operand l) Expr
  | chain (l : Level) (lhs : Expr) : Call (.chain l) Expr
  | unary : Call .unary Expr
  | factor : Call .factor Expr
  | access (x : Symbol) (span : Span) : Call .access Access
  | subscripts (x : Symbol) (span : Span) (index : Expr) (of : Ty) : Call .subscripts Access
  | subscript (x : Symbol) (span : Span) (of : Ty) : Call .subscript (Expr × Ty)
  | condition (construct : Construct) (span : Span) : Call .condition Expr
  | assignment : Call .assignment Stmt
  | breakStmt : Call .breakStmt Stmt
  | ifStmt : Call .ifStmt Stmt
  | whileStmt : Call .whileStmt Stmt
  | doStmt : Call .doStmt Stmt
  | loopBody (exit : LoopExit) : Call .loopBody Stmt
  | stmt : Call .stmt Stmt
  | stmts : Call .stmts (List Stmt)
  | block : Call .block Stmt
  | program : Call .program Program

variable {f : Routine} {α β : Type}

/-- The function of the parser that is called, with its arguments and some fuel. -/
def Call.run : Call f α → Nat → Parser α
  | .fail error, _ => Parser.fail error
  | .check span r, _ => Parser.check span r
  | .peek, _ => Parser.peek
  | .next, _ => Parser.next
  | .expect token, _ => Parser.expect token
  | .expectMark m, _ => Parser.expectMark m
  | .expectKeyword k, _ => Parser.expectKeyword k
  | .name, _ => Parser.name
  | .atMark m, _ => Parser.atMark m
  | .newExit, _ => Parser.newExit
  | .resolve text span, _ => Parser.resolve text span
  | .declare text of span, _ => Parser.declare text of span
  | .dims of, fuel => Parser.dims fuel of
  | .optionalDims of, fuel => Parser.optionalDims fuel of
  | .type, fuel => Parser.type fuel
  | .decl, fuel => Parser.decl fuel
  | .decls, fuel => Parser.decls fuel
  | .expr l, fuel => Parser.expr fuel l
  | .operand l, fuel => Parser.operand fuel l
  | .chain l lhs, fuel => Parser.chain fuel l lhs
  | .unary, fuel => Parser.unary fuel
  | .factor, fuel => Parser.factor fuel
  | .access x span, fuel => Parser.access fuel x span
  | .subscripts x span index of, fuel => Parser.subscripts fuel x span index of
  | .subscript x span of, fuel => Parser.subscript fuel x span of
  | .condition construct span, fuel => Parser.condition fuel construct span
  | .assignment, fuel => Parser.assignment fuel
  | .breakStmt, _ => Parser.breakStmt
  | .ifStmt, fuel => Parser.ifStmt fuel (Parser.stmt fuel)
  | .whileStmt, fuel => Parser.whileStmt fuel (Parser.stmt fuel)
  | .doStmt, fuel => Parser.doStmt fuel (Parser.stmt fuel)
  | .loopBody exit, fuel => Parser.inLoop exit (Parser.stmt fuel)
  | .stmt, fuel => Parser.stmt fuel
  | .stmts, fuel => Parser.stmts fuel
  | .block, fuel => Parser.block fuel
  | .program, fuel => Parser.program fuel

/-! ## Scripts -/

/-- What is left to do for a function: nothing but to return a value; to stop with an error; to look
at the state or to change it; to call a function; or to do something inside of what is opened for it
and closed behind it, also if it stops. -/
inductive Script : Type → Type 1
  | done {α : Type} (a : α) : Script α
  | stop {α : Type} (span : Span) (error : CompileError) : Script α
  | read {α : Type} (rest : ParserState → Script α) : Script α
  | write {α : Type} (s : ParserState) (rest : Script α) : Script α
  | call {f : Routine} {α β : Type} (c : Call f β) (rest : β → Script α) : Script α
  | inside {α β : Type} (enter leave : ParserState → ParserState) (body : Script β)
      (rest : β → Script α) : Script α

namespace Script

/-- One script after another. -/
def bind : Script α → (α → Script β) → Script β
  | done a, k => k a
  | stop span error, _ => stop span error
  | read rest, k => read fun s => (rest s).bind k
  | write s rest, k => write s (rest.bind k)
  | call c rest, k => call c fun b => (rest b).bind k
  | inside enter leave body rest, k => inside enter leave body fun b => (rest b).bind k

instance : Monad Script where
  pure := done
  bind := bind

/-- The state as it stands. -/
def state : Script ParserState := read done

/-- Changes the state. -/
def put (s : ParserState) : Script Unit := write s (done ())

/-- Calls a function. -/
def ask (c : Call f α) : Script α := call c done

/-- Does something inside of what is opened for it. -/
def around (enter leave : ParserState → ParserState) (p : Script α) : Script α :=
  inside enter leave p done

/-- Does what a `Script` says, as a `Parser`. The functions that it calls take so much fuel. -/
def run (fuel : Nat) {α : Type} : Script α → Parser α
  | done a => pure a
  | stop span error => failAt span error
  | read rest => do (rest (← get)).run fuel
  | write s rest => do set s; rest.run fuel
  | call c rest => do (rest (← c.run fuel)).run fuel
  | inside enter leave body rest => do
    (rest (← Parser.inside enter leave (body.run fuel))).run fuel

end Script

open Script in
/-- What a `Call` does before, between and after the calls that it makes in turn. It is the body of
the function, with calls in the place of what it calls. -/
def Call.script : Call f α → Script α
  | .fail error => do stop (← state).last (.grammatical error)
  | .check span r =>
    match r with
    | .ok a => return a
    | .error error => stop span (.semantic error)
  | .peek => do
    let s ← state
    match s.rest, s.ending with
    | token :: _, _ => return some token.value
    | [], some failure => stop failure.span (.lexical failure.value)
    | [], none => return none
  | .next => do
    let s ← state
    match s.rest, s.ending with
    | token :: rest, _ =>
      put { s with rest := rest, last := token.span }
      return token
    | [], some failure => stop failure.span (.lexical failure.value)
    | [], none => ask (fail .unexpectedEnd)
  | .expect token => do
    let s ← state
    match s.rest, s.ending with
    | [], none => ask (fail (.missingToken token))
    | _, _ =>
      let found ← ask next
      if found.value = token then return found.span
      else ask (fail (.unexpectedToken token found.value))
  | .expectMark m => ask (expect (.mark m))
  | .expectKeyword k => ask (expect (.keyword k))
  | .name => do
    let found ← ask next
    match found.value with
    | .name text => return ⟨text, found.span⟩
    | token => ask (fail (.expectedName token))
  | .atMark m => do return (← ask peek) == some (.mark m)
  | .newExit => do
    let s ← state
    put { s with met := s.met + 1 }
    return ⟨s.met⟩
  | .resolve text span => do
    match (← state).scope.lookup? text with
    | some x => return x
    | none => ask (check span (.error (.undeclared text)))
  | .declare text of span => do
    let s ← state
    let used := s.used + of.width
    if maxWidth < used then ask (check span (.error (.tooLarge text)))
    else
      let x : Symbol := ⟨text, of, s.used⟩
      match s.scope.declare? x with
      | none => ask (check span (.error (.redeclared text)))
      | some scope => put { s with scope := scope, used := used, log := .declared x :: s.log }
  | .dims of => do
    let _ ← ask (expectMark .openSquare)
    let found ← ask next
    match found.value with
    | .intLiteral value =>
      let _ ← ask (expectMark .closeSquare)
      let element ← if ← ask (atMark .openSquare) then ask (dims of) else pure of
      match Ty.array? (lengthOf value) element with
      | some array => return array
      | none => ask (check found.span (.error (.arrayTooLarge (lengthOf value) element)))
    | token => ask (fail (.expectedLength token))
  | .optionalDims of => do
    if ← ask (atMark .openSquare) then ask (dims of) else return of
  | .type => do
    let found ← ask next
    match found.value with
    | .scalar s => ask (optionalDims (.scalar s))
    | token => ask (fail (.expectedType token))
  | .decl => do
    let of ← ask type
    let found ← ask name
    if (← ask (atMark .openSquare)) && of.isArray then
      stop found.span (.grammatical (.duplicateDims found.value))
    else
      let of ← ask (optionalDims of)
      let _ ← ask (expectMark .semicolon)
      ask (declare found.value of found.span)
  | .decls => do
    match ← ask peek with
    | some (.scalar _) =>
      ask decl
      ask decls
    | _ => return ()
  | .expr l => do
    let lhs ← ask (operand l)
    ask (chain l lhs)
  | .operand l =>
    match l.tighter? with
    | some l => ask (expr l)
    | none => ask unary
  | .chain l lhs => do
    match l.operatorOf? (← ask peek) with
    | none => return lhs
    | some op =>
      let found ← ask next
      let rhs ← ask (operand l)
      let joined ← ask (check found.span (Expr.binary op lhs rhs))
      if l.chains then ask (chain l joined) else return joined
  | .unary => do
    match unaryOf? (← ask peek) with
    | some op =>
      let found ← ask next
      let e ← ask unary
      ask (check found.span (Expr.unary op e))
    | none => ask factor
  | .factor => do
    let found ← ask next
    match found.value with
    | .mark .openParen =>
      let e ← ask (expr .disjunction)
      let _ ← ask (expectMark .closeParen)
      return e
    | .intLiteral value => return .const (.int value)
    | .realLiteral value => return .const (.real value)
    | .keyword .trueWord => return .const (.bool true)
    | .keyword .falseWord => return .const (.bool false)
    | .name text =>
      let x ← ask (resolve text found.span)
      if ← ask (atMark .openSquare) then return .ofAccess (← ask (access x found.span))
      else return .var x
    | token => ask (fail (.expectedExpr token))
  | .access x span => do
    let (index, element) ← ask (subscript x span x.type)
    ask (subscripts x span index element)
  | .subscripts x span index of => do
    if ← ask (atMark .openSquare) then
      let (term, element) ← ask (subscript x span of)
      let index ← ask (check span (Expr.binary (.arith .add) index term))
      ask (subscripts x span index element)
    else return ⟨x, index, of⟩
  | .subscript x span of => do
    let bracket ← ask (expectMark .openSquare)
    let index ← ask (expr .disjunction)
    let _ ← ask (expectMark .closeSquare)
    match of.element? with
    | none => ask (check span (.error (.notAnArray x.name of)))
    | some element =>
      let width : Expr := .const (.int element.width)
      let term ← ask (check bracket (Expr.binary (.arith .mul) index width))
      return (term, element)
  | .condition construct span => do
    let _ ← ask (expectMark .openParen)
    let e ← ask (expr .disjunction)
    let _ ← ask (expectMark .closeParen)
    if e.type = .bool then return e
    else ask (check span (.error (.expectedBool construct e.type)))
  | .assignment => do
    let found ← ask name
    let x ← ask (resolve found.value found.span)
    let s : Stmt ←
      if ← ask (atMark .assign) then
        let sign ← ask (expectMark .assign)
        let value ← ask (expr .disjunction)
        if assignable x.type value.type then pure (.set x value)
        else ask (check sign (.error (.assignMismatch x.type value.type)))
      else
        let target ← ask (access x found.span)
        let sign ← ask (expectMark .assign)
        let value ← ask (expr .disjunction)
        if storable target.type value.type then pure (.store target value)
        else ask (check sign (.error (.assignMismatch target.type value.type)))
    let _ ← ask (expectMark .semicolon)
    return s
  | .breakStmt => do
    let span ← ask (expectKeyword .breakWord)
    match (← state).loops with
    | [] => ask (check span (.error .breakOutsideLoop))
    | exit :: _ =>
      let _ ← ask (expectMark .semicolon)
      return .breakTo exit
  | .ifStmt => do
    let span ← ask (expectKeyword .ifWord)
    let test ← ask (condition .ifElse span)
    let onTrue ← ask stmt
    if (← ask peek) == some (.keyword .elseWord) then
      let _ ← ask next
      return .ifElse test onTrue (← ask stmt)
    else return .ifThen test onTrue
  | .whileStmt => do
    let span ← ask (expectKeyword .whileWord)
    let test ← ask (condition .whileLoop span)
    let exit ← ask newExit
    let s ← ask (loopBody exit)
    return .whileLoop exit test s
  | .doStmt => do
    let _ ← ask (expectKeyword .doWord)
    let exit ← ask newExit
    let s ← ask (loopBody exit)
    let span ← ask (expectKeyword .whileWord)
    let test ← ask (condition .doLoop span)
    let _ ← ask (expectMark .semicolon)
    return .doLoop exit s test
  | .loopBody exit => around (enterLoop exit) leaveLoop (ask stmt)
  | .stmt => do
    match ← ask peek with
    | some (.mark .semicolon) =>
      let _ ← ask next
      return .null
    | some (.mark .openCurly) => ask block
    | some (.keyword .ifWord) => ask ifStmt
    | some (.keyword .whileWord) => ask whileStmt
    | some (.keyword .doWord) => ask doStmt
    | some (.keyword .breakWord) => ask breakStmt
    | _ => ask assignment
  | .stmts => do
    match ← ask peek with
    | none => return []
    | some (.mark .closeCurly) => return []
    | some _ =>
      let first ← ask stmt
      let others ← ask stmts
      return first :: others
  | .block => do
    let _ ← ask (expectMark .openCurly)
    let items ← around enterScope leaveScope do
      ask decls
      ask stmts
    let _ ← ask (expectMark .closeCurly)
    return .sequence items
  | .program => do
    let body ← ask block
    if (← ask peek).isSome then
      let found ← ask next
      ask (fail (.trailingInput found.value))
    else return ⟨body, (← state).used⟩

/-! ## Calls inside of calls -/

/-- A parser returns a value and leaves a state, with some amount of fuel. -/
def Parser.Returns (p : Nat → Parser α) (s : ParserState) (a : α) (s' : ParserState) : Prop :=
  ∃ fuel, p fuel s = .ok a s'

/-- A `Call` that runs, with the state in which it has been made. -/
structure Activation : Type 1 where
  {routine : Routine}
  {α : Type}
  call : Call routine α
  state : ParserState

/-- A `Script` that runs from a state comes to the point where it makes this call: the calls in
front of it have returned. -/
def Script.Calls {α : Type} : Script α → ParserState → Activation → Prop
  | .done _, _, _ => False
  | .stop _ _, _, _ => False
  | .read rest, s, b => (rest s).Calls s b
  | .write s rest, _, b => rest.Calls s b
  | .call c rest, s, b => b = ⟨c, s⟩ ∨ ∃ v s', Returns c.run s v s' ∧ (rest v).Calls s' b
  | .inside enter leave body rest, s, b =>
    body.Calls (enter s) b ∨
      ∃ v s', Returns (body.run ·) (enter s) v s' ∧ (rest v).Calls (leave s') b

/-- The one call makes the other while it runs, by its `Call.script`. -/
def Activation.Calls (a b : Activation) : Prop := a.call.script.Calls a.state b

end JumpCode
