/-!
# JumpCode — types

A type is one of four scalars or an array of declared length over another type. It is kept as its
scalar and the lengths of its dimensions, the outermost first: `int[3][4]`, three rows of four
integers, has the lengths `[3, 4]`. No type takes more storage than offsets can address, so every
type carries the evidence that it and all types beneath it fit.

* `Ty.width_array?` — the width of an array is its length times the width of an element;
* `Ty.array?_eq_none_iff` — an array is refused exactly when it would not fit;
* `Ty.element_array?` — what an array is built of is its element.
-/

namespace JumpCode

/-! ## Scalars -/

/-- A scalar type, which is what the innermost elements of every `Ty` are. -/
inductive Scalar
  | int
  | float
  | char
  | bool
deriving DecidableEq, Repr

namespace Scalar

/-- The storage of a `Scalar`, in bytes. -/
def width : Scalar → Nat
  | int => 4
  | float => 8
  | char => 1
  | bool => 1

/-- Whether a `Scalar` takes part in arithmetic: all but truth values do. -/
def isNumeric : Scalar → Bool
  | bool => false
  | _ => true

/-- The word that names a `Scalar` in programs and in messages. -/
def name : Scalar → String
  | int => "int"
  | float => "float"
  | char => "char"
  | bool => "bool"

/-- The `Scalar` that a word names, if any: the inverse of `Scalar.name`. -/
def ofName? (word : String) : Option Scalar :=
  [int, float, char, bool].find? (·.name == word)

/-- The wider of two scalars in arithmetic, in the order `char`, `int`, `float`. `Ty.arithmetic?`
asks only about numeric ones. -/
def wider (a b : Scalar) : Scalar :=
  if a = float ∨ b = float then float
  else if a = int ∨ b = int then int
  else char

end Scalar

/-! ## Storage -/

/-- The widest storage that offsets address: they are computed with constants of 32 bits, so this is
the greatest of these, `maxInt`. -/
def maxWidth : Nat := 2147483647

/-- The storage of a scalar under dimensions of these lengths: their product times `Scalar.width`.
-/
def storage (base : Scalar) : List Nat → Nat
  | [] => base.width
  | length :: lengths => length * storage base lengths

/-- Every array under these dimensions can be addressed: the `storage` of each suffix of the lengths
is at most `maxWidth`. -/
def Addressable (base : Scalar) : List Nat → Prop
  | [] => True
  | length :: lengths => storage base (length :: lengths) ≤ maxWidth ∧ Addressable base lengths

/-- The length that an integer literal gives: the literal as an unsigned number of 32 bits. Literals
are never negative, and this is the literal itself for all that `Lexer.next` delivers. -/
def lengthOf (value : Int) : Nat := (value % 4294967296).toNat

/-! ## Types -/

/-- A type: a scalar under dimensions, the outermost first. The field `addressable` is the evidence
that no type is wider than `maxWidth`, so that no `Ty` has to be checked again. -/
structure Ty where
  base : Scalar
  lengths : List Nat
  addressable : Addressable base lengths
deriving DecidableEq

namespace Ty

/-- A scalar as a type, under no dimensions. -/
def scalar (s : Scalar) : Ty := ⟨s, [], trivial⟩

/-- The type of integers, and of every subscript. -/
def int : Ty := scalar .int

/-- The type of reals. -/
def float : Ty := scalar .float

/-- The type of truth values, which conditions must have. -/
def bool : Ty := scalar .bool

/-- The storage of a type, in bytes (`Ty.width_le`). -/
def width (t : Ty) : Nat := storage t.base t.lengths

/-- The array of `length` elements of type `of`, unless it is wider than `maxWidth` and cannot be
addressed (`array?_eq_none_iff`). -/
def array? (length : Nat) (of : Ty) : Option Ty :=
  if h : length * of.width ≤ maxWidth then
    some ⟨of.base, length :: of.lengths, h, of.addressable⟩
  else
    none

/-- The type of the elements, if the type is an array: the outermost dimension is taken away. -/
def element? (t : Ty) : Option Ty :=
  match t with
  | ⟨_, [], _⟩ => none
  | ⟨base, _ :: lengths, h⟩ => some ⟨base, lengths, h.2⟩

/-- The number of elements, if the type is an array: the outermost of `lengths`. -/
def length? (t : Ty) : Option Nat := t.lengths.head?

/-- Whether the type is an array: it has a dimension. -/
def isArray (t : Ty) : Bool := !t.lengths.isEmpty

/-- Whether values of the type take part in arithmetic: it is a numeric `Scalar`, under no
dimension. -/
def isNumeric (t : Ty) : Bool := !t.isArray && t.base.isNumeric

/-- The type of the result of arithmetic on two types, if both are numeric: the `Scalar.wider` of
them. -/
def arithmetic? (a b : Ty) : Option Ty :=
  if a.isNumeric && b.isNumeric then some (scalar (a.base.wider b.base)) else none

/-- The written form: the scalar's name, then each length in brackets, the outermost first. -/
def render (t : Ty) : String :=
  t.base.name ++ String.join (t.lengths.map fun n => "[" ++ toString n ++ "]")

/-! ## Laws -/

/-- **Every type can be addressed**: no `Ty` is wider than `maxWidth`. -/
theorem width_le (t : Ty) : t.width ≤ maxWidth := by
  obtain ⟨base, lengths, hFit⟩ := t
  cases lengths with
  | nil => cases base <;> simp [width, storage, Scalar.width, maxWidth]
  | cons _ _ => exact hFit.1

/-- **When arrays are refused.** `array?` gives nothing exactly when the product of length and
element width exceeds `maxWidth`. -/
theorem array?_eq_none_iff {length : Nat} {of : Ty} :
    array? length of = none ↔ maxWidth < length * of.width := by
  unfold array?
  split <;> simp <;> omega

/-- An array is as wide as its elements together. -/
theorem width_array? {length : Nat} {of t : Ty} (h : array? length of = some t) :
    t.width = length * of.width := by
  unfold array? at h
  split at h
  · obtain rfl := Option.some.inj h; rfl
  · simp at h

/-- What `array?` has been given is what `element?` gives back. -/
theorem element_array? {length : Nat} {of t : Ty} (h : array? length of = some t) :
    t.element? = some of := by
  unfold array? at h
  split at h
  · obtain rfl := Option.some.inj h; rfl
  · simp at h

/-- The length that `array?` has been given is the one that `length?` gives back. -/
theorem length_array? {length : Nat} {of t : Ty} (h : array? length of = some t) :
    t.length? = some length := by
  unfold array? at h
  split at h
  · obtain rfl := Option.some.inj h; rfl
  · simp at h

end Ty

end JumpCode
