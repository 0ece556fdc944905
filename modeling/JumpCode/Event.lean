import JumpCode.Instruction

/-!
# JumpCode — events of a compilation

What a compilation tells about its course: scopes and loops that open and close, declarations,
emitted instructions, and the sums at the end.
-/

namespace JumpCode

/-- Something that happens during a compilation. The parser and `Emitter.events` leave them in
order, for a log. -/
inductive Event
  /-- A block was entered and is now the innermost of that many. -/
  | scopeEntered (depth : Nat)
  /-- A block at this depth was left with that many declarations. -/
  | scopeLeft (depth dropped : Nat)
  | declared (x : Symbol)
  /-- A loop was entered and is now the innermost of that many. -/
  | loopEntered (depth : Nat)
  /-- A loop was left, and that many still stand open. -/
  | loopLeft (depth : Nat)
  | emitted (i : Instruction)
  /-- A unit is complete; the numbers count all that its emitter has emitted and reserved. -/
  | completed (instructions labels temps : Nat)
deriving DecidableEq

namespace Event

/-- How much detail an `Event` belongs to, in a word. -/
def level : Event → String
  | emitted _ => "TRACE"
  | _ => "DEBUG"

/-- The wording of an `Event`. -/
def message : Event → String
  | scopeEntered depth => "Entered scope at depth " ++ toString depth
  | scopeLeft depth dropped =>
    "Left scope at depth " ++ toString depth ++ ", dropping " ++ toString dropped ++ " symbols"
  | declared x =>
    "Declared `" ++ x.name ++ "` of type `" ++ x.type.render ++ "` at offset " ++
      toString x.offset ++ ", width " ++ toString x.type.width
  | loopEntered depth => "Entered loop at depth " ++ toString depth
  | loopLeft depth => "Left loop, depth is now " ++ toString depth
  | emitted i => i.render
  | completed instructions labels temps =>
    "Emitted " ++ toString instructions ++ " instructions, " ++ toString labels ++ " labels, " ++
      toString temps ++ " temporaries"

/-- An `Event` as a line of a log: its level and its wording. -/
def render (e : Event) : String := e.level ++ " " ++ e.message

end Event

end JumpCode
