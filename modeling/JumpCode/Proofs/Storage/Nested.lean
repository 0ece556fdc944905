import JumpCode.Proofs.Storage.Layout

/-!
# JumpCode — types as nested arrays

A type can also be kept the way it is built, as an array over the type of its elements. A `NestedTy`
is such a nest, with the width, the element and the written form computed from the outside in; a
`Ty` keeps the same nest flat, as its scalar and all lengths. `Ty.nested` tells what nest a `Ty`
stands for, and whatever one of them has to say the other one says too.

* `NestedTy.Built` — the nests that `NestedTy.array?` builds over scalars;
* `NestedTy.built_iff` — each of them is the nest of one `Ty`, and no other nest is;
* `Ty.nested_array?`, `Ty.width_nested`, `Ty.element?_nested`, `Ty.maximum?_nested` — building,
  widths, elements and the wider of two types;
* `Ty.render_nested` — the loop that collects the lengths of a nest writes the form of its `Ty`.
-/

namespace JumpCode

/-! ## Nests -/

/-- A type: a scalar, or an array of so many elements. -/
inductive NestedTy
  | scalar (s : Scalar)
  | array (length : Nat) (of : NestedTy)
deriving DecidableEq, Repr

namespace NestedTy

/-- The storage of a type, in bytes: that of an element as often as there are elements. -/
def width : NestedTy → Nat
  | scalar s => s.width
  | array length of => length * of.width

/-- The array of `length` elements of type `of`, unless its `width` is too large to be addressed
(`maxWidth`). -/
def array? (length : Nat) (of : NestedTy) : Option NestedTy :=
  if length * of.width ≤ maxWidth then some (array length of) else none

/-- The type of the elements, if the type is an array. -/
def element? : NestedTy → Option NestedTy
  | scalar _ => none
  | array _ of => some of

/-- Whether values of the type take part in arithmetic. -/
def isNumeric : NestedTy → Bool
  | scalar s => s.isNumeric
  | array _ _ => false

/-- The type of the result of arithmetic on two types, in the order in which it is looked for.
`Ty.maximum?_nested` says that it is `arithmetic?`. -/
def maximum? (a b : NestedTy) : Option NestedTy :=
  if !a.isNumeric || !b.isNumeric then none
  else if a = scalar .float ∨ b = scalar .float then some (scalar .float)
  else if a = scalar .int ∨ b = scalar .int then some (scalar .int)
  else some (scalar .char)

/-- The written form of a type, when the arrays around it have these lengths: they are collected
down to the scalar and stand behind its name. -/
def renderUnder (lengths : List Nat) : NestedTy → String
  | scalar s => s.name ++ String.join (lengths.map fun n => "[" ++ toString n ++ "]")
  | array length of => of.renderUnder (lengths ++ [length])

/-- The written form of a type. -/
def render (t : NestedTy) : String := t.renderUnder []

/-- The types that there are: scalars, and the arrays of such that are not refused. -/
inductive Built : NestedTy → Prop
  | scalar (s : Scalar) : Built (scalar s)
  | array {length : Nat} {of t : NestedTy} (hOf : Built of) (hArray : array? length of = some t) :
    Built t

end NestedTy

/-- The nest that a type stands for: its scalar under `NestedTy.array` for each of its lengths. -/
def Ty.nested (t : Ty) : NestedTy := t.lengths.foldr .array (.scalar t.base)

/-! ## One for the other -/

/-- The nest of a scalar under some dimensions says which scalar and dimensions these are. -/
theorem foldr_array_inj {base base' : Scalar} {lengths lengths' : List Nat}
    (h : lengths.foldr NestedTy.array (.scalar base) =
      lengths'.foldr NestedTy.array (.scalar base')) : base = base' ∧ lengths = lengths' := by
  induction lengths generalizing lengths' with
  | nil =>
    cases lengths' with
    | nil => exact ⟨NestedTy.scalar.inj h, rfl⟩
    | cons n lengths' => cases h
  | cons n lengths ih =>
    cases lengths' with
    | nil => cases h
    | cons n' lengths' =>
      obtain ⟨rfl, hInner⟩ := NestedTy.array.inj h
      obtain ⟨rfl, rfl⟩ := ih hInner
      exact ⟨rfl, rfl⟩

namespace Ty

theorem nested_inj {t u : Ty} : t.nested = u.nested ↔ t = u := by
  constructor
  · intro h
    obtain ⟨hBase, hLengths⟩ := foldr_array_inj h
    exact eq_of_lengths hBase hLengths
  · rintro rfl
    rfl

@[simp] theorem nested_scalar (s : Scalar) : (scalar s).nested = .scalar s := rfl

/-- **The nest of a type is as wide as the type.** -/
theorem width_nested (t : Ty) : t.nested.width = t.width := by
  obtain ⟨base, lengths, hFit⟩ := t
  show (lengths.foldr NestedTy.array (.scalar base)).width = storage base lengths
  induction lengths with
  | nil => rfl
  | cons n lengths ih => exact congrArg (n * ·) (ih hFit.2)

/-- **A nest is built as its type is**, and refused with it. -/
theorem nested_array? (length : Nat) (of : Ty) :
    NestedTy.array? length of.nested = (array? length of).map nested := by
  unfold NestedTy.array? array?
  rw [width_nested]
  split <;> rfl

theorem element?_nested (t : Ty) : t.nested.element? = t.element?.map nested := by
  obtain ⟨base, _ | ⟨n, lengths⟩, hFit⟩ := t <;> rfl

theorem isNumeric_nested (t : Ty) : t.nested.isNumeric = t.isNumeric := by
  obtain ⟨base, _ | ⟨n, lengths⟩, hFit⟩ := t <;> rfl

theorem nested_of_isNumeric {t : Ty} (h : t.isNumeric) : t.nested = .scalar t.base := by
  obtain ⟨base, _ | ⟨n, lengths⟩, hFit⟩ := t
  · rfl
  · cases h

/-- **The wider of two nests is that of their types.** -/
theorem maximum?_nested (a b : Ty) :
    NestedTy.maximum? a.nested b.nested = (arithmetic? a b).map nested := by
  unfold NestedTy.maximum? arithmetic?
  rw [isNumeric_nested, isNumeric_nested]
  by_cases hNumeric : a.isNumeric ∧ b.isNumeric
  · obtain ⟨ha, hb⟩ := hNumeric
    rw [nested_of_isNumeric ha, nested_of_isNumeric hb, ha, hb]
    simp only [Bool.not_true, Bool.or_false, Bool.false_eq_true, if_false, Bool.and_true, if_true,
      NestedTy.scalar.injEq, Option.map_some, nested_scalar, Scalar.wider]
    split
    · rfl
    · split <;> rfl
  · have hRefused : (!a.isNumeric || !b.isNumeric) = true := by
      simpa [Bool.or_eq_true, imp_iff_not_or] using hNumeric
    have hNone : (a.isNumeric && b.isNumeric) = false := by
      simpa using hNumeric
    rw [if_pos hRefused, hNone]
    rfl

/-- **The nest of a type is written as the type is**: the loop of `NestedTy.renderUnder` comes to
all lengths, the outermost first. -/
theorem render_nested (t : Ty) : t.nested.render = t.render := by
  -- the lengths that are still to come stand behind those that have been collected
  have hCollect (base : Scalar) (lengths collected : List Nat) :
      (lengths.foldr NestedTy.array (.scalar base)).renderUnder collected =
        (NestedTy.scalar base).renderUnder (collected ++ lengths) := by
    induction lengths generalizing collected with
    | nil => rw [List.append_nil]; rfl
    | cons n lengths ih =>
      have hInner := ih (collected ++ [n])
      rwa [List.append_assoc] at hInner
  exact hCollect t.base t.lengths []

end Ty

/-- **The types that there are**: a nest is built over scalars if and only if it is that of a `Ty`,
which carries the proof that no step was refused. -/
theorem NestedTy.built_iff {n : NestedTy} : n.Built ↔ ∃ t : Ty, t.nested = n := by
  constructor
  · intro h
    induction h with
    | scalar s => exact ⟨.scalar s, rfl⟩
    | @array length of t _ hArray ih =>
      obtain ⟨u, rfl⟩ := ih
      rw [Ty.nested_array?, Option.map_eq_some_iff] at hArray
      obtain ⟨v, -, hNested⟩ := hArray
      exact ⟨v, hNested⟩
  · rintro ⟨⟨base, lengths, hFit⟩, rfl⟩
    induction lengths with
    | nil => exact .scalar base
    | cons n lengths ih =>
      have hArray : Ty.array? n ⟨base, lengths, hFit.2⟩ = some ⟨base, n :: lengths, hFit⟩ :=
        dif_pos hFit.1
      exact .array (ih hFit.2) ((Ty.nested_array? n _).trans (congrArg _ hArray))

end JumpCode
