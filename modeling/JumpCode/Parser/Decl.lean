import JumpCode.Parser.Basic

/-!
# JumpCode — reading declarations

A declaration names a scalar type and a variable; the dimensions of an array stand behind either
the type or the name, never behind both. Since the leftmost dimension is the outermost, the type is
built from the right.
-/

namespace JumpCode

namespace Parser

/-- Reads one dimension or more over a type. The first one read is the outermost, so that the arrays
are built (`Ty.array?`) behind the last one. -/
def dims : Nat → Ty → Parser Ty
  | 0, _ => throw .exhausted
  | fuel + 1, of => do
    let _ ← expectMark .openSquare
    let found ← next
    match found.value with
    | .intLiteral value =>
      let _ ← expectMark .closeSquare
      let element ← if ← atMark .openSquare then dims fuel of else pure of
      match Ty.array? (lengthOf value) element with
      | some type => return type
      | none => failAt found.span (.semantic (.arrayTooLarge (lengthOf value) element))
    | token => fail (.expectedLength token)

/-- Reads dimensions over a type if there are any, as `dims` does. -/
def optionalDims (fuel : Nat) (of : Ty) : Parser Ty := do
  if ← atMark .openSquare then dims fuel of else return of

/-- Reads the type that a declaration begins with: the name of a `Scalar`, and dimensions if there
are any. -/
def type (fuel : Nat) : Parser Ty := do
  let found ← next
  match found.value with
  | .scalar s => optionalDims fuel (.scalar s)
  | token => fail (.expectedType token)

/-- Reads a declaration: its type, its name, and the dimensions behind the name if the type had
none. -/
def decl (fuel : Nat) : Parser Unit := do
  let type ← type fuel
  let found ← name
  if (← atMark .openSquare) && type.isArray then
    failAt found.span (.grammatical (.duplicateDims found.value))
  let type ← optionalDims fuel type
  let _ ← expectMark .semicolon
  declare found.value type found.span

/-- Reads declarations as long as there are any: each one begins with the name of a `Scalar`. -/
def decls : Nat → Parser Unit
  | 0 => throw .exhausted
  | fuel + 1 => do
    match ← peek with
    | some (.scalar _) =>
      decl fuel
      decls fuel
    | _ => return ()

end Parser

end JumpCode
