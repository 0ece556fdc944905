import JumpCode.Parser.Stmt
import JumpCode.Report
import JumpCode.Stmt.Emission

/-!
# JumpCode — programs

A program is one block. Reading a source gives the program, or the failure that ends it, and what
happened on the way; a program that has been read can be emitted any number of times, each time
with labels and temporaries of its own.

* `Source.read` — from a source to a program;
* `Source.readInWords` — the same by a reader that counts places with words of 32 bits;
* `Program.emit` — from a program to code;
* `Source.emitInto` — from a source to more code in the same emitter.
-/

namespace JumpCode

/-! ## Programs -/

/-- A program that has been read: one block, as a `Stmt`, and the storage that it takes. -/
structure Program where
  body : Stmt
  /-- The storage of all its declarations together, in bytes. -/
  width : Nat

open Emission LoopEmission in
/-- Emits a whole program (`Stmt.emit`) between two labels of its own. -/
def Program.emit {S : Type} [Counters S] (p : Program) : LoopEmissionOn S Unit := do
  let start ← plain newLabel
  let after ← plain newLabel
  plain (mark start)
  p.body.emit start after
  plain (mark after)

/-! ## Reading -/

/-- Reads a program, which has to be all there is (`GrammarError.trailingInput`). -/
def Parser.program (fuel : Nat) : Parser Program := do
  let body ← block fuel
  if (← peek).isSome then
    let found ← next
    fail (.trailingInput found.value)
  return ⟨body, (← get).used⟩

/-- The calls that reading one token may nest, at most: for every token read, no more functions than
this are entered one inside the other. -/
def nestingPerToken : Nat := 16

/-- Fuel enough to read that many tokens. With this much, no `Parser` of a program comes to
`Stop.exhausted`. -/
def fuelFor (tokens : Nat) : Nat := nestingPerToken * (tokens + 1)

/-- What reading a source comes to: a `Program` or the `Stop`, and the log up to there. -/
structure Reading where
  outcome : Except Stop Program
  /-- What has happened, in order. -/
  log : List Event

/-- Reads a program from tokens and the failure, if any, that the lexer ends in, by `Parser.program`
with `fuelFor` them. -/
def readTokens (tokens : List (Located Token)) (ending : Option (Located LexError)) : Reading :=
  match Parser.program (fuelFor tokens.length) (.initial tokens ending) with
  | .ok p s => ⟨.ok p, s.log.reverse⟩
  | .error e s => ⟨.error e, s.log.reverse⟩

namespace Source

/-- All tokens of a source up to the first failure (`Lexer.scan`). -/
def scan (s : Source) : Scan := (Lexer.ofItems s.items).scan

/-- Reads the program that a source holds, with all its tokens at hand. -/
def read (s : Source) : Reading :=
  let scan := s.scan
  readTokens scan.tokens scan.failure

/-- The report of a failure to read a source, at which point a `Lexer` stands there: by this the
lines are known that can be quoted (`Source.kept`). -/
def reportAt (s : Source) (lexer : Lexer) (failure : Located CompileError) : String :=
  JumpCode.report s.name (s.kept (lexer.asked s.items.length)) failure

/-- The report of a failure to read a source. A failure shows a line that reading has come to, and
before the lexer fails all lines are kept under their own numbers; so it does not matter that the
lines are taken as they stand when the lexer is done. -/
def report (s : Source) (failure : Located CompileError) : String :=
  s.reportAt s.scan.lexer failure

/-! Reading with places that are counted in words of 32 bits -/

/-- All tokens of a source up to the first failure, as `Source.scan` has them, at places that are
counted with words (`Source.itemsInWords`). -/
def scanInWords (s : Source) : Scan := (Lexer.ofItems s.itemsInWords).scan

/-- Reads the program that a source holds, as `Source.read` does, at places that are counted with
words. -/
def readInWords (s : Source) : Reading :=
  let scan := s.scanInWords
  readTokens scan.tokens scan.failure

/-- What printing the report of a failure to read a source comes to: the report, or an `Abort` if it
is too wide. -/
def printReport (s : Source) (failure : Located CompileError) : Except Abort String :=
  JumpCode.printReport s.name (s.kept (s.scanInWords.lexer.asked s.itemsInWords.length)) failure

end Source

/-! ## Emission in a row -/

/-- The events that emission brings about, from the `Emitter` before it and the one after: each
instruction, and the sums of the emitter. -/
def Emitter.events (before after : Emitter) : List Event :=
  (after.code.drop before.size).map .emitted ++
    [.completed after.size after.supply.labels after.supply.temps]

/-- Emits a program with an `Emitter`, from bound exits. -/
def Program.emitWith {S : Type} [Counters S] (p : Program) (exits : Exits) (e : Emitter S) :
    (Except UnboundExit Unit × Exits) × Emitter S :=
  e.run (p.emit.emission exits)

/-- Emits a program that many times in a row. Each time starts from the `Exits` that the times
before have bound. -/
def Program.emitTimes {S : Type} [Counters S] (p : Program) :
    Nat → Exits → Emitter S → Except UnboundExit (Exits × Emitter S)
  | 0, exits, e => .ok (exits, e)
  | times + 1, exits, e =>
    match p.emitWith exits e with
    | ((.ok _, exits), e) => p.emitTimes times exits e
    | ((.error unbound, _), _) => .error unbound

/-- Why a source adds nothing to an `Emitter`. -/
inductive Fault
  /-- It holds no program. -/
  | reading (stop : Stop)
  /-- Its program breaks out of a loop that has no exit. -/
  | emitting (unbound : UnboundExit)

/-- Reads the program that a source holds (`Source.read`) and emits it that many times in a row
(`Program.emitTimes`), behind all that an emitter has emitted so far. -/
def Source.emitInto {S : Type} [Counters S] (s : Source) (times : Nat) (e : Emitter S) :
    Except Fault (Emitter S) :=
  match s.read.outcome with
  | .error stop => .error (.reading stop)
  | .ok p =>
    match p.emitTimes times [] e with
    | .ok (_, e) => .ok e
    | .error unbound => .error (.emitting unbound)

end JumpCode
