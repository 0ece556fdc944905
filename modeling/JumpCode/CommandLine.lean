import JumpCode.Outline
import JumpCode.Program

/-!
# JumpCode — the command line

What the arguments ask for, and how it is carried out: a source is read from a file or from the
standard input, its program is emitted, and the listing goes to a file or to the standard output.
All that the surroundings provide comes in as `Surroundings`, so that what a command does is known
once they are.

* `Command.ofArgs` — what the arguments ask for;
* `Options.respond` — what the compilation of a source has to say;
* `Command.run` — the course of a command.
-/

namespace JumpCode

/-! ## Arguments -/

/-- What a compilation is asked to do. A single dash as the input stands for the standard input, and
as the output for the standard output. -/
structure Options where
  input : String
  output : String
  dumpTokens : Bool
  dumpTree : Bool
deriving DecidableEq, Repr

/-- What the arguments ask for, as `Command.ofArgs` finds it. -/
inductive Command
  | compile (options : Options)
  | version
  | help
  | misuse
deriving DecidableEq, Repr

/-- What the arguments have given so far, for `Given.finish` to make a `Command` of. -/
structure Given where
  input : Option String
  /-- For each time the output was asked for, the value that came with it, if one did. -/
  outputs : List (Option String)
  dumpTokens : Nat
  dumpTree : Nat

namespace Given

/-- What is given before any argument. -/
def nothing : Given := ⟨none, [], 0, 0⟩

/-- An input besides. There is one at most: another one is a `Command.misuse`. -/
def addInput (g : Given) (input : String) : Except Command Given :=
  match g.input with
  | none => .ok { g with input := some input }
  | some _ => .error .misuse

/-- A request for the output besides, with its value if it has come with one. -/
def addOutput (g : Given) (output : Option String) : Given :=
  { g with outputs := output :: g.outputs }

/-- What is asked for once all arguments are read. Nothing may be given twice, and the output needs
a value; otherwise it is a `Command.misuse`. -/
def finish (g : Given) : Command :=
  let compile (output : String) : Command :=
    .compile ⟨g.input.getD "-", output, g.dumpTokens == 1, g.dumpTree == 1⟩
  if 1 < g.dumpTokens ∨ 1 < g.dumpTree then .misuse
  else
    match g.outputs with
    | [] => compile "-"
    | [some output] => compile output
    | _ => .misuse

end Given

/-- An argument by its form, before it is known whether any such option exists. -/
inductive Argument
  /-- A double dash alone: all that follow are inputs. -/
  | escape
  /-- A word behind a double dash, with the value attached by an equals sign. -/
  | word (text : String) (value : Option String)
  /-- Letters behind a single dash, at least one. -/
  | letters (first : Char) (others : List Char)
  | plain (text : String)
deriving DecidableEq, Repr

/-- The form of an argument. A single dash alone is `Argument.plain`. -/
def Argument.ofString (arg : String) : Argument :=
  match arg.toList with
  | ['-', '-'] => escape
  | '-' :: '-' :: text =>
    let value :=
      match text.dropWhile (· != '=') with
      | [] => none
      | _ :: value => some (String.ofList value)
    word (String.ofList (text.takeWhile (· != '='))) value
  | '-' :: first :: others => letters first others
  | _ => plain arg

/-- What a word behind a double dash adds to what is given. An output without a value waits for it,
which the flag says. -/
def readWord (g : Given) (text : String) (value : Option String) :
    Except Command (Given × Bool) :=
  match text, value with
  | "output", some output => .ok (g.addOutput output, false)
  | "output", none => .ok (g, true)
  | "dump-tokens", none => .ok ({ g with dumpTokens := g.dumpTokens + 1 }, false)
  | "dump-tree", none => .ok ({ g with dumpTree := g.dumpTree + 1 }, false)
  | "version", none => .error .version
  | "help", none => .error .help
  | _, _ => .error .misuse

/-- What letters behind a single dash add to what is given. The output takes the letters behind it
as its value, and waits for one if there are none. -/
def readLetters (g : Given) (first : Char) (others : List Char) :
    Except Command (Given × Bool) :=
  match first, others with
  | 'o', [] => .ok (g, true)
  | 'o', '=' :: output => .ok (g.addOutput (String.ofList output), false)
  | 'o', output => .ok (g.addOutput (String.ofList output), false)
  | 'V', _ => .error .version
  | 'h', _ => .error .help
  | _, _ => .error .misuse

/-- What arguments ask for that are inputs, whatever they look like: those behind `Argument.escape`.
-/
def Command.ofInputs (g : Given) : List String → Command
  | [] => g.finish
  | arg :: args =>
    match g.addInput arg with
    | .ok g => Command.ofInputs g args
    | .error command => command

/-- What the arguments ask for after those that have given `g`. If an output waits for its value,
the next argument is the value when it is `Argument.plain`; otherwise the output has none. -/
def Command.ofRest (g : Given) (waiting : Bool) : List String → Command
  | [] => if waiting then (g.addOutput none).finish else g.finish
  | arg :: args =>
    let unwaiting := if waiting then g.addOutput none else g
    let goOn : Except Command (Given × Bool) → Command
      | .ok (g, waiting) => Command.ofRest g waiting args
      | .error command => command
    match Argument.ofString arg with
    | .escape => Command.ofInputs unwaiting args
    | .word text value => goOn (readWord unwaiting text value)
    | .letters first others => goOn (readLetters unwaiting first others)
    | .plain text =>
      if waiting then Command.ofRest (g.addOutput text) false args
      else goOn ((g.addInput text).map (·, false))

/-- What the arguments ask for. They are read from left to right; asking for the version or for help
ends the reading at once, and so does an argument that is not known. -/
def Command.ofArgs (args : List String) : Command := Command.ofRest .nothing false args

/-! ## Compilations -/

/-- What opening an input gives: its bytes, or something that cannot be read. -/
inductive Contents
  | bytes (data : List UInt8)
  | failing

/-- The name under which an input is reported, in every place of a message. -/
def Options.sourceName (o : Options) : String := if o.input = "-" then "<stdin>" else o.input

/-- The `Source` that an input holds: `Source.ofBytes`, or `Source.failing`. -/
def Contents.source (name : String) : Contents → Source
  | bytes data => .ofBytes name data
  | failing => .failing name

/-- What a compilation has to say: the text for the error stream, and the listing if there is one.
-/
structure Response where
  diagnostics : String
  listing : Option String
deriving DecidableEq, Repr

/-- The lines that show the tokens of a source, each with its place (`Span.render`) and its text
(`Token.render`). -/
def dumpedTokens (name : String) (tokens : List (Located Token)) : String :=
  String.join (tokens.map fun t => t.span.render name ++ ": " ++ t.value.render ++ "\n")

/-- What the compilation of a source has to say. To show the tokens, all of them are asked for
before any is read, and a lexer that fails is asked until it has nothing more to say.

Places are exact here, and a report is written whatever its width (`Source.read`,
`Source.reportAt`). `Source.readInWords` and `Source.printReport` say what becomes of places that
words of 32 bits cannot count, and of reports that are too wide to be printed. -/
def Options.respond (o : Options) (s : Source) : Response :=
  let scan := s.scan
  let shown := if o.dumpTokens then dumpedTokens s.name scan.tokens else ""
  let lexer := if o.dumpTokens then scan.lexer.settle else scan.lexer
  match (readTokens scan.tokens scan.failure).outcome with
  | .error (.error failure) => ⟨shown ++ s.reportAt lexer failure, none⟩
  | .error .exhausted => ⟨shown, none⟩
  | .ok p =>
    let tree := if o.dumpTree then p.body.outline.render ++ "\n" else ""
    match p.emitWith [] .fresh with
    | ((.ok _, _), e) => ⟨shown ++ tree, some (JumpCode.listing e.code)⟩
    | ((.error _, _), _) => ⟨shown ++ tree, none⟩

/-! ## The course of a command -/

/-- Why a file has not been written: it could not be opened, or not be written to. -/
inductive WriteFailure
  | opening (cause : String)
  | writing (cause : String)

/-- What the surroundings of a command provide. A failure comes with its cause, as the system words
it. -/
structure Surroundings (m : Type → Type) where
  input : m Contents
  fileInput : String → m (Except String Contents)
  output : String → m (Except String Unit)
  fileOutput : String → String → m (Except WriteFailure Unit)
  errors : String → m Unit

/-- The message that something has failed, and why. -/
def failureMessage (what cause : String) : String :=
  "Error: " ++ what ++ "\n\nCaused by:\n    " ++ cause ++ "\n"

/-- The exit codes of a command, by what has happened. -/
inductive ExitCode
  | success
  | failure
  | misuse
deriving DecidableEq, Repr

/-- The number of an `ExitCode`, as the system is told. -/
def ExitCode.number : ExitCode → Nat
  | success => 0
  | failure => 1
  | misuse => 2

/-- The answer to `Command.version`. -/
def versionText : String := "smallc 0.1.0\n"

/-- The answer to `Command.help`. -/
def helpText : String :=
  "smallc 0.1.0\n" ++
  "Translates a block-structured program to three-address code\n\n" ++
  "USAGE:\n    smallc [OPTIONS] [INPUT]\n\n" ++
  "ARGS:\n    <INPUT>    Source file ('-' for stdin) [default: -]\n\n" ++
  "OPTIONS:\n" ++
  "        --dump-tokens      Print the token stream to stderr\n" ++
  "        --dump-tree        Print the statement tree to stderr\n" ++
  "    -h, --help             Print help information\n" ++
  "    -o, --output <FILE>    Write the listing to FILE instead of stdout\n" ++
  "    -V, --version          Print version information\n"

/-- The answer to `Command.misuse`. -/
def misuseText : String :=
  "error: The arguments could not be understood\n\n" ++
  "USAGE:\n    smallc [OPTIONS] [INPUT]\n\n" ++
  "For more information try --help\n"

section Run

variable {m : Type → Type} [Monad m]

/-- Ends a command with a message about what has failed (`failureMessage`). -/
def endWith (around : Surroundings m) (what cause : String) : m ExitCode := do
  around.errors (failureMessage what cause)
  return .failure

/-- Writes a text to the standard output, and ends the command by whether that succeeds. -/
def Surroundings.print (around : Surroundings m) (text : String) : m ExitCode := do
  match ← around.output text with
  | .ok _ => return .success
  | .error cause => endWith around "Failed to write to stdout" cause

/-- Writes a listing to the output that was asked for, and ends the command by whether that
succeeds. -/
def Options.deliver (o : Options) (around : Surroundings m) (text : String) : m ExitCode := do
  if o.output = "-" then around.print text
  else
    match ← around.fileOutput o.output text with
    | .ok _ => return .success
    | .error (.opening cause) =>
      endWith around ("Failed to open for writing: " ++ o.output) cause
    | .error (.writing cause) =>
      endWith around ("Failed to write to file: " ++ o.output) cause

/-- Carries out a compilation. The output is not touched before there is a listing: where
`Options.respond` has none, only the error stream is written to. -/
def Options.run (o : Options) (around : Surroundings m) : m ExitCode := do
  let opened ←
    if o.input = "-" then do pure (Except.ok (← around.input))
    else around.fileInput o.input
  match opened with
  | .error cause => endWith around ("Failed to open for reading: " ++ o.input) cause
  | .ok contents =>
    let response := o.respond (contents.source o.sourceName)
    around.errors response.diagnostics
    match response.listing with
    | some text => o.deliver around text
    | none => return .failure

/-- Carries out a `Command`, in these surroundings. -/
def Command.run (around : Surroundings m) : Command → m ExitCode
  | .compile options => options.run around
  | .version => around.print versionText
  | .help => around.print helpText
  | .misuse => do
    around.errors misuseText
    return .misuse

end Run

end JumpCode
