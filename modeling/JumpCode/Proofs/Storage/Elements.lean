import JumpCode.Proofs.Formed
import JumpCode.Proofs.Semantics.Tree
import Mathlib.Algebra.Order.Ring.Int
import Mathlib.Data.List.Forall2

/-!
# JumpCode — the elements of arrays

The index of an element is a sum of scaled subscripts: it counts the elements that lie in front of
it, row by row, in bytes. Subscripts that keep within their dimensions lead to bytes of the array,
each to bytes of its own, and no number that comes up on the way passes the bound on storage. That
holds because every row is a type, which fits into storage like the whole array.

* `rowMajor` — the offset of an element, by the lengths of the dimensions alone;
* `rowMajor_bounds`, `rowMajor_apart` — where elements lie, and that they do not overlap;
* `IndexOf.eval` — what an index comes to, with all its parts;
* `access_row_major` — the elements that the parser reads.
-/

namespace JumpCode

open JumpCode.Parser

/-! ## Row-major offsets -/

/-- How far neighbours along each dimension are apart: as many scalars as the dimensions behind it
have room for, in bytes (`storage`). -/
def strides (base : Scalar) : List Nat → List Nat
  | [] => []
  | _ :: lengths => lengths.prod * base.width :: strides base lengths

/-- The offset of an element: each index times the stride of its dimension (`strides`), summed. -/
def rowMajor (base : Scalar) (lengths : List Nat) (indices : List Int) : Int :=
  (List.zipWith (fun (i : Int) (stride : Nat) => i * stride) indices (strides base lengths)).sum

/-- Every index keeps within its dimension. -/
def InBounds : List Nat → List Int → Prop
  | _, [] => True
  | [], _ :: _ => False
  | n :: lengths, i :: indices => 0 ≤ i ∧ i < n ∧ InBounds lengths indices

theorem storage_eq_prod (base : Scalar) (lengths : List Nat) :
    storage base lengths = lengths.prod * base.width := by
  induction lengths with
  | nil => simp [storage]
  | cons n lengths ih => rw [storage, ih, List.prod_cons, Nat.mul_assoc]

@[simp] theorem rowMajor_nil (base : Scalar) (lengths : List Nat) :
    rowMajor base lengths [] = 0 := rfl

theorem rowMajor_cons (base : Scalar) (n : Nat) (lengths : List Nat) (i : Int)
    (indices : List Int) : rowMajor base (n :: lengths) (i :: indices) =
      i * storage base lengths + rowMajor base lengths indices := by
  rw [storage_eq_prod]
  rfl

/-- One row and what lies in front of it fit where all rows do. -/
theorem row_le {i : Int} {n : Nat} (row : Nat) (h : i < n) : i * row + row ≤ (n * row : Nat) := by
  have hRows : (i + 1) * row ≤ n * row :=
    Int.mul_le_mul_of_nonneg_right h (Int.natCast_nonneg row)
  rw [Int.add_mul, Int.one_mul] at hRows
  rwa [Int.natCast_mul]

/-- **An element lies within its array**: indices in bounds (`InBounds`) lead to an offset from
which all of the element is still a part of the array. -/
theorem rowMajor_bounds (base : Scalar) {lengths : List Nat} {indices : List Int}
    (h : InBounds lengths indices) :
    0 ≤ rowMajor base lengths indices ∧
      rowMajor base lengths indices + storage base (lengths.drop indices.length) ≤
        storage base lengths := by
  -- on the indices, which pick one row after the other
  induction indices generalizing lengths with
  | nil => simp
  | cons i indices ih =>
    cases lengths with
    | nil => exact absurd h id
    | cons n lengths =>
      obtain ⟨hLow, hHigh, hRest⟩ := h
      obtain ⟨hFrom, hTo⟩ := ih hRest
      have hRow := row_le (storage base lengths) hHigh
      have hStart : 0 ≤ i * storage base lengths :=
        Int.mul_nonneg hLow (Int.natCast_nonneg _)
      rw [rowMajor_cons]
      show _ ∧ _ + (storage base (lengths.drop indices.length) : Int) ≤
        (n * storage base lengths : Nat)
      omega

/-- Elements of different rows are apart: all of the lesser row lies in front, by `rowMajor_bounds`.
-/
theorem rowMajor_apart_of_lt (base : Scalar) {n : Nat} {lengths : List Nat} {i j : Int}
    {indices others : List Int} (h : InBounds lengths indices) (h' : InBounds lengths others)
    (hLt : i < j) :
    rowMajor base (n :: lengths) (i :: indices) + storage base (lengths.drop indices.length) ≤
      rowMajor base (n :: lengths) (j :: others) := by
  have hRow : (i + 1) * storage base lengths ≤ j * storage base lengths :=
    Int.mul_le_mul_of_nonneg_right hLt (Int.natCast_nonneg _)
  rw [Int.add_mul, Int.one_mul] at hRow
  have hFirst := rowMajor_bounds base h
  have hSecond := rowMajor_bounds base h'
  rw [rowMajor_cons, rowMajor_cons]
  omega

/-- **Different elements do not overlap.** -/
theorem rowMajor_apart (base : Scalar) {lengths : List Nat} {indices others : List Int}
    (h : InBounds lengths indices) (h' : InBounds lengths others)
    (hLength : others.length = indices.length) (hNe : others ≠ indices) :
    rowMajor base lengths indices + storage base (lengths.drop indices.length) ≤
        rowMajor base lengths others ∨
      rowMajor base lengths others + storage base (lengths.drop indices.length) ≤
        rowMajor base lengths indices := by
  -- on the indices: the first two that differ pick different rows
  induction indices generalizing lengths others with
  | nil => exact absurd (List.length_eq_zero_iff.mp hLength) hNe
  | cons i indices ih =>
    obtain ⟨j, others, rfl⟩ := List.exists_cons_of_length_eq_add_one hLength
    rw [List.length_cons, List.length_cons, Nat.add_right_cancel_iff] at hLength
    cases lengths with
    | nil => exact absurd h id
    | cons n lengths =>
      rcases Int.lt_trichotomy i j with hLt | rfl | hLt
      · exact .inl (rowMajor_apart_of_lt base h.2.2 h'.2.2 hLt)
      · -- in the same row it is the indices behind that differ
        have hRest := ih h.2.2 h'.2.2 hLength fun hSame => hNe (by rw [hSame])
        rw [rowMajor_cons, rowMajor_cons, List.length_cons, List.drop_succ_cons]
        omega
      · have hApart := rowMajor_apart_of_lt (n := n) base h'.2.2 h.2.2 hLt
        rw [hLength] at hApart
        exact .inr hApart

/-! ## Arithmetic on integers -/

/-- A number that can be an offset: it is within the bound on storage, `maxWidth`. -/
def Addressed (v : Int) : Prop := 0 ≤ v ∧ v ≤ maxWidth

/-- Constants are integers, and a sum or a product is that of the integers wherever this lies in a
range. Beyond the range nothing is said: the operator may wrap around, as in `Interpretation.words`,
or fail. -/
structure Interpretation.ExactOn {Failure : Type} (I : Interpretation Int Failure)
    (range : Int → Prop) : Prop where
  constant (n : Int) : I.constant (.int n) = n
  add (a b : Int) (h : range (a + b)) : I.arith .add a b = .ok (a + b)
  mul (a b : Int) (h : range (a * b)) : I.arith .mul a b = .ok (a * b)

/-- What comes up when scaled indices are added to an offset, one after the other, lies in a range:
the `storage` of each row, by which its index is scaled, the products and the sums. -/
def StaysIn (range : Int → Prop) (base : Scalar) : List Nat → Int → List Int → Prop
  | _ :: lengths, offset, i :: indices =>
    range (storage base lengths) ∧ range (i * storage base lengths) ∧
      range (offset + i * storage base lengths) ∧
      StaysIn range base lengths (offset + i * storage base lengths) indices
  | _, _, _ => True

theorem staysIn_true (base : Scalar) (lengths : List Nat) (offset : Int) (indices : List Int) :
    StaysIn (fun _ => True) base lengths offset indices := by
  induction indices generalizing lengths offset with
  | nil => cases lengths <;> trivial
  | cons i indices ih =>
    cases lengths with
    | nil => trivial
    | cons n lengths => exact ⟨trivial, trivial, trivial, ih _ _⟩

/-- Within an array that can be addressed, whatever comes up on the way to an element can be
(`Addressed`). -/
theorem InBounds.staysIn {base : Scalar} {lengths : List Nat} {indices : List Int}
    (h : InBounds lengths indices) (hAddressable : Addressable base lengths) {offset : Int}
    (hFrom : 0 ≤ offset) (hFits : offset + storage base lengths ≤ maxWidth) :
    StaysIn Addressed base lengths offset indices := by
  -- the room from the offset on shrinks from the whole array to the row that is picked
  induction indices generalizing lengths offset with
  | nil => cases lengths <;> trivial
  | cons i indices ih =>
    cases lengths with
    | nil => exact absurd h id
    | cons n lengths =>
      obtain ⟨hLow, hHigh, hRest⟩ := h
      have hRow := row_le (storage base lengths) hHigh
      have hStart : 0 ≤ i * storage base lengths :=
        Int.mul_nonneg hLow (Int.natCast_nonneg _)
      have hWhole : offset + (n * storage base lengths : Nat) ≤ maxWidth := hFits
      refine ⟨⟨by omega, by omega⟩, ⟨by omega, by omega⟩, ⟨by omega, by omega⟩, ?_⟩
      exact ih hRest hAddressable.2 (by omega) (by omega)

/-! ## Index expressions -/

/-- The parts of an index apart from the subscripts themselves: its sums, its products and the
widths in them, as `Indexed` puts them together. -/
def Expr.indexParts : Expr → List Expr
  | .arith .add lhs rhs type => .arith .add lhs rhs type :: (lhs.indexParts ++ rhs.indexParts)
  | .arith .mul lhs rhs type => [.arith .mul lhs rhs type, rhs]
  | _ => []

/-- From an index into something of a type, subscripts lead to another index and type: each is
`Scaled` and added to the index so far. -/
inductive Indexed : Ty → Expr → List Expr → Expr → Ty → Prop
  | done {type : Ty} {index : Expr} : Indexed type index [] index type
  | next {outer element type : Ty} {index subscript term sum total : Expr}
      {subscripts : List Expr} (hElement : outer.element? = some element)
      (hTerm : Scaled subscript element term) (hSum : Binary (.arith .add) index term sum)
      (hRest : Indexed element sum subscripts total type) :
      Indexed outer index (subscript :: subscripts) total type

/-- An index into an array is made of its subscripts, the first of which it begins with; the others
are `Indexed` behind it. -/
inductive IndexOf (array : Ty) : List Expr → Expr → Ty → Prop
  | intro {element type : Ty} {first term index : Expr} {others : List Expr}
      (hElement : array.element? = some element) (hTerm : Scaled first element term)
      (hRest : Indexed element term others index type) :
      IndexOf array (first :: others) index type

theorem Binary.eq {op : ArithOp} {a b e : Expr} (h : Binary (.arith op) a b e) :
    ∃ type, e = .arith op a b type := by
  cases h with
  | arith _ _ => exact ⟨_, rfl⟩

theorem Scaled.eq {subscript term : Expr} {element : Ty} (h : Scaled subscript element term) :
    ∃ type, term = .arith .mul subscript (.const (.int element.width)) type := Binary.eq h

theorem Ty.lengths_element {t u : Ty} (h : t.element? = some u) :
    ∃ n, t.lengths = n :: u.lengths := by
  unfold Ty.element? at h
  split at h
  · cases h
  · cases h
    exact ⟨_, rfl⟩

section Evaluation

variable {Failure : Type} {I : Interpretation Int Failure} {m : Memory Int} {range : Int → Prop}

/-- A subscript that is `Scaled` comes to a product, all of whose parts are known. -/
theorem Scaled.eval {subscript term : Expr} {element : Ty} (h : Scaled subscript element term)
    (hExact : I.ExactOn range) {i : Int} (hValue : subscript.eval I m = .ok i)
    (hWidth : range element.width) (hProduct : range (i * element.width)) :
    term.eval I m = .ok (i * element.width) ∧
      ∀ part ∈ term.indexParts, ∃ v, part.eval I m = .ok v ∧ range v := by
  obtain ⟨type, rfl⟩ := h.eq
  -- the width and the product are the parts of the term
  have hConstant : (Expr.const (.int element.width)).eval I m = .ok (element.width : Int) := by
    rw [Expr.eval, hExact.constant]
  have hTerm : (Expr.arith .mul subscript (.const (.int element.width)) type).eval I m =
      .ok (i * element.width) := by
    rw [Expr.eval, hValue, hConstant]
    exact hExact.mul _ _ hProduct
  refine ⟨hTerm, ?_⟩
  simp only [Expr.indexParts, List.mem_cons, List.not_mem_nil, or_false, forall_eq_or_imp,
    forall_eq]
  exact ⟨⟨_, hTerm, hProduct⟩, _, hConstant, hWidth⟩

/-- **What an index comes to**: the offset so far and the `rowMajor` offset of the subscripts, if
nothing on the way leaves the range (`StaysIn`); and what comes up on the way are its parts. -/
theorem Indexed.eval {outer type : Ty} {index total : Expr} {subscripts : List Expr}
    (h : Indexed outer index subscripts total type) (hExact : I.ExactOn range) {offset : Int}
    (hIndex : index.eval I m = .ok offset)
    (hParts : ∀ part ∈ index.indexParts, ∃ v, part.eval I m = .ok v ∧ range v)
    {indices : List Int}
    (hValues : List.Forall₂ (fun e i => e.eval I m = .ok i) subscripts indices)
    (hStays : StaysIn range outer.base outer.lengths offset indices) :
    total.eval I m = .ok (offset + rowMajor outer.base outer.lengths indices) ∧
      ∀ part ∈ total.indexParts, ∃ v, part.eval I m = .ok v ∧ range v := by
  -- on the subscripts, with what the index has come to so far
  induction h generalizing offset indices with
  | done =>
    cases hValues
    rw [rowMajor_nil, Int.add_zero]
    exact ⟨hIndex, hParts⟩
  | @next outer element type index subscript term sum total subscripts hElement hTerm hSum _ ih =>
    cases hValues with
    | @cons _ i _ indices hValue hValues =>
      obtain ⟨n, hLengths⟩ := Ty.lengths_element hElement
      have hBase := (Ty.element_base hElement).1
      rw [hLengths, ← hBase] at hStays ⊢
      obtain ⟨hWidth, hProduct, hInRange, hRest⟩ := hStays
      obtain ⟨hTermValue, hTermParts⟩ := hTerm.eval hExact hValue hWidth hProduct
      obtain ⟨sumType, rfl⟩ := hSum.eq
      -- the sum so far is an index itself, into the row that the subscript picks
      have hSumValue : (Expr.arith .add index term sumType).eval I m =
          .ok (offset + i * element.width) := by
        rw [Expr.eval, hIndex, hTermValue]
        exact hExact.add _ _ hInRange
      rw [rowMajor_cons, ← Int.add_assoc]
      -- a part of the sum is the sum itself, a part of the index so far or one of the term
      refine ih hSumValue ?_ hValues hRest
      intro part hPart
      rw [Expr.indexParts, List.mem_cons, List.mem_append] at hPart
      rcases hPart with rfl | hPart | hPart
      · exact ⟨_, hSumValue, hInRange⟩
      · exact hParts part hPart
      · exact hTermParts part hPart

/-- The index of an element counts from the start of the array: it comes to the `rowMajor` offset.
-/
theorem IndexOf.eval {array type : Ty} {index : Expr} {subscripts : List Expr}
    (h : IndexOf array subscripts index type) (hExact : I.ExactOn range) {indices : List Int}
    (hValues : List.Forall₂ (fun e i => e.eval I m = .ok i) subscripts indices)
    (hStays : StaysIn range array.base array.lengths 0 indices) :
    index.eval I m = .ok (rowMajor array.base array.lengths indices) ∧
      ∀ part ∈ index.indexParts, ∃ v, part.eval I m = .ok v ∧ range v := by
  obtain ⟨hElement, hTerm, hRest⟩ := h
  cases hValues with
  | @cons _ i _ indices hValue hValues =>
    obtain ⟨n, hLengths⟩ := Ty.lengths_element hElement
    rw [hLengths, ← (Ty.element_base hElement).1] at hStays ⊢
    obtain ⟨hWidth, hProduct, -, hBehind⟩ := hStays
    rw [Int.zero_add] at hBehind
    obtain ⟨hTermValue, hTermParts⟩ := hTerm.eval hExact hValue hWidth hProduct
    rw [rowMajor_cons]
    exact hRest.eval hExact hTermValue hTermParts hValues hBehind

end Evaluation

/-- Subscripts that are `Indexed` pick dimensions from the outside in, as many as there are of them.
-/
theorem Indexed.type_eq {outer type : Ty} {index total : Expr} {subscripts : List Expr}
    (h : Indexed outer index subscripts total type) :
    subscripts.length ≤ outer.lengths.length ∧ type.base = outer.base ∧
      type.lengths = outer.lengths.drop subscripts.length := by
  induction h with
  | done => exact ⟨Nat.zero_le _, rfl, rfl⟩
  | next hElement _ _ _ ih =>
    obtain ⟨n, hLengths⟩ := Ty.lengths_element hElement
    obtain ⟨hCount, hBase, hRest⟩ := ih
    refine ⟨?_, hBase.trans (Ty.element_base hElement).1, ?_⟩
    · rw [hLengths, List.length_cons, List.length_cons]
      exact Nat.succ_le_succ hCount
    · rw [hRest, hLengths, List.length_cons, List.drop_succ_cons]

theorem IndexOf.type_eq {array type : Ty} {index : Expr} {subscripts : List Expr}
    (h : IndexOf array subscripts index type) :
    subscripts.length ≤ array.lengths.length ∧ type.base = array.base ∧
      type.lengths = array.lengths.drop subscripts.length := by
  obtain ⟨hElement, _, hRest⟩ := h
  obtain ⟨n, hLengths⟩ := Ty.lengths_element hElement
  obtain ⟨hCount, hBase, hBehind⟩ := hRest.type_eq
  refine ⟨?_, hBase.trans (Ty.element_base hElement).1, ?_⟩
  · rw [hLengths, List.length_cons, List.length_cons]
    exact Nat.succ_le_succ hCount
  · rw [hBehind, hLengths, List.length_cons, List.drop_succ_cons]

/-! ## Elements that are read -/

/-- Subscripts have been read: each is in brackets and stands for an expression (`Phrase.Means`). -/
structure ReadsSubscripts (s : ParserState) (phrases : List (Phrase .bool))
    (subscripts : List Expr) (s' : ParserState) : Prop where
  tokens : Skips s (phrases.flatMap fun phrase => bracketed phrase.tokens) s'
  means : List.Forall₂ (fun phrase e => phrase.Means s.scope e) phrases subscripts

/-- One more subscript stands in front. -/
theorem ReadsSubscripts.cons {s s₁ s' : ParserState} {phrase : Phrase .bool} {e : Expr}
    {phrases : List (Phrase .bool)} {subscripts : List Expr}
    (hFirst : Skips s (bracketed phrase.tokens) s₁) (hMeans : phrase.Means s.scope e)
    (h : ReadsSubscripts s₁ phrases subscripts s') :
    ReadsSubscripts s (phrase :: phrases) (e :: subscripts) s' := by
  have hRest := h.means
  rw [hFirst.scope] at hRest
  exact ⟨hFirst.trans h.tokens, .cons hMeans hRest⟩

theorem subscripts_indexed (fuel : Nat) (x : Symbol) (span : Span) (index : Expr) (outer : Ty)
    (s : ParserState) :
    Yields (subscripts fuel x span index outer) s
      (fun a s' => ∃ phrases es, ReadsSubscripts s phrases es s' ∧ a.array = x ∧
        Indexed outer index es a.index a.type)
      (fun _ _ => True) := by
  -- on the fuel, one bracket after the other
  induction fuel generalizing index outer s with
  | zero => exact trivial
  | succ fuel ih =>
    rw [subscripts]
    refine (yields_atMark _ s).bind (fun _ _ _ => trivial) ?_
    rintro b s₁ ⟨rfl, -⟩
    split
    · refine ((exprReads fuel).subscript s₁ x span outer).bind (fun _ _ _ => trivial) ?_
      rintro ⟨term, element⟩ s₂ ⟨phrase, e, hBracket, hMeans, hElement, hTerm⟩
      refine (yields_check span _ s₂).bind (fun _ _ _ => trivial) ?_
      rintro sum s₃ ⟨rfl, hBuilt⟩
      refine (ih sum element s₃).mono ?_ (fun _ _ _ => trivial)
      rintro a s' ⟨phrases, es, hReads, hArray, hIndexed⟩
      exact ⟨_, _, hReads.cons hBracket hMeans, hArray,
        .next hElement hTerm (binary_eq_ok_iff.mp hBuilt) hIndexed⟩
    · exact ⟨[], [], ⟨.refl s₁, .nil⟩, rfl, .done⟩

theorem access_indexed (fuel : Nat) (x : Symbol) (span : Span) (s : ParserState) :
    Yields (access fuel x span) s
      (fun a s' => ∃ phrases es, ReadsSubscripts s phrases es s' ∧ a.array = x ∧
        IndexOf x.type es a.index a.type)
      (fun _ _ => True) := by
  cases fuel with
  | zero => exact trivial
  | succ fuel =>
    rw [access]
    -- the first subscript begins the index, and the others are added to it
    refine ((exprReads fuel).subscript s x span x.type).bind (fun _ _ _ => trivial) ?_
    rintro ⟨term, element⟩ s₁ ⟨phrase, e, hBracket, hMeans, hElement, hTerm⟩
    refine (subscripts_indexed fuel x span term element s₁).mono ?_ (fun _ _ _ => trivial)
    rintro a s' ⟨phrases, es, hReads, hArray, hIndexed⟩
    exact ⟨_, _, hReads.cons hBracket hMeans, hArray, .intro hElement hTerm hIndexed⟩

/-- **Elements lie row by row.** The index of an element that has been read is made of what stands
in its brackets, of which there are as many as dimensions at most; its type has the dimensions that
are left. Whatever integers the subscripts come to, the index comes to their row-major offset. If
each keeps within its dimension, then

* no width, product or sum in the index passes the bound on storage, so that arithmetic need not be
  exact beyond;
* all bytes of the element are bytes of the array;
* no other element with as many subscripts has a byte in common with it. -/
theorem access_row_major {fuel : Nat} {x : Symbol} {span : Span} {s s' : ParserState} {a : Access}
    (h : access fuel x span s = .ok a s') :
    ∃ (phrases : List (Phrase .bool)) (subscripts : List Expr),
      Skips s (phrases.flatMap fun phrase => bracketed phrase.tokens) s' ∧
      List.Forall₂ (fun phrase e => phrase.Means s.scope e) phrases subscripts ∧
      a.array = x ∧ IndexOf x.type subscripts a.index a.type ∧
      subscripts.length ≤ x.type.lengths.length ∧ a.type.base = x.type.base ∧
      a.type.lengths = x.type.lengths.drop subscripts.length ∧
      ∀ {Failure : Type} (I : Interpretation Int Failure) (m : Memory Int) (indices : List Int),
        List.Forall₂ (fun e i => e.eval I m = .ok i) subscripts indices →
        let offset := rowMajor x.type.base x.type.lengths indices
        (I.ExactOn (fun _ => True) → a.index.eval I m = .ok offset) ∧
        (InBounds x.type.lengths indices →
          (I.ExactOn Addressed → a.index.eval I m = .ok offset ∧
            ∀ part ∈ a.index.indexParts, ∃ v, part.eval I m = .ok v ∧ Addressed v) ∧
          0 ≤ offset ∧ offset + a.type.width ≤ x.type.width ∧
          ∀ others : List Int, InBounds x.type.lengths others →
            others.length = indices.length → others ≠ indices →
            let other := rowMajor x.type.base x.type.lengths others
            ∀ byte, offset ≤ byte → byte < offset + a.type.width →
              ¬(other ≤ byte ∧ byte < other + a.type.width)) := by
  obtain ⟨phrases, subscripts, hReads, hArray, hIndex⟩ := (access_indexed fuel x span s).of_ok h
  -- subscripts fix the type of the element, so that its dimensions are those that are left
  obtain ⟨hCount, hBase, hLengths⟩ := hIndex.type_eq
  refine ⟨phrases, subscripts, hReads.tokens, hReads.means, hArray, hIndex, hCount, hBase,
    hLengths, ?_⟩
  intro Failure I m indices hValues offset
  refine ⟨fun hExact => ?_, fun hBounds => ⟨fun hExact => ?_, ?_⟩⟩
  · -- unbounded arithmetic is exact everywhere
    exact (hIndex.eval hExact hValues (staysIn_true _ _ _ _)).1
  · -- within the array all that comes up can be an offset, so that this range is enough
    have hWhole : storage x.type.base x.type.lengths ≤ maxWidth := x.type.width_le
    exact hIndex.eval hExact hValues
      (hBounds.staysIn x.type.addressable (Int.le_refl 0) (by omega))
  · -- the width of the element is the storage under the dimensions that are left
    have hWidth : a.type.width = storage x.type.base (x.type.lengths.drop indices.length) := by
      rw [Ty.width, hBase, hLengths, hValues.length_eq]
    obtain ⟨hFrom, hTo⟩ := rowMajor_bounds x.type.base hBounds
    rw [hWidth]
    refine ⟨hFrom, hTo, ?_⟩
    intro others hOthers hLength hNe other byte hStart hStop hOther
    have hApart := rowMajor_apart x.type.base hBounds hOthers hLength hNe
    omega

/-- Arithmetic on words of 32 bits, which wraps around. A division by zero fails. It is exact where
`Interpretation.words_exactOn` says. -/
def Interpretation.words : Interpretation Int Unit where
  constant
    | .int value => value
    | .real _ => 0
    | .bool value => if value then 1 else 0
  arith
    | .add, a, b => .ok ((a + b).bmod 4294967296)
    | .sub, a, b => .ok ((a - b).bmod 4294967296)
    | .mul, a, b => .ok ((a * b).bmod 4294967296)
    | .div, a, b => if b = 0 then .error () else .ok ((a.tdiv b).bmod 4294967296)
  negate a := .ok ((-a).bmod 4294967296)
  compare
    | .equal, a, b => a = b
    | .notEqual, a, b => a ≠ b
    | .less, a, b => a < b
    | .lessOrEqual, a, b => a ≤ b
    | .greater, a, b => b < a
    | .greaterOrEqual, a, b => b ≤ a
  truth v := v ≠ 0
  truth_bool b := by cases b <;> rfl

/-- Words do not wrap around as long as they can be offsets (`Addressed`). -/
theorem Interpretation.words_exactOn : words.ExactOn Addressed where
  constant _ := rfl
  add a b h := by
    obtain ⟨hLow, hHigh⟩ := h
    rw [maxWidth] at hHigh
    show Except.ok ((a + b).bmod 4294967296) = _
    rw [Int.bmod_eq_of_le (by omega) (by omega)]
  mul a b h := by
    obtain ⟨hLow, hHigh⟩ := h
    rw [maxWidth] at hHigh
    show Except.ok ((a * b).bmod 4294967296) = _
    rw [Int.bmod_eq_of_le (by omega) (by omega)]

/-- Three rows of four integers. -/
def gridSymbol : Symbol :=
  ⟨"grid", ⟨.int, [3, 4], by simp [Addressable, storage, Scalar.width, maxWidth]⟩, 8⟩

/-- The tokens of two subscripts, to be read as those of `gridSymbol`. -/
def gridState : ParserState := .initial
  ([.mark .openSquare, .intLiteral 2, .mark .closeSquare, .mark .openSquare, .intLiteral 3,
    .mark .closeSquare].map fun token => ⟨token, .first⟩) none

/-- The element that they pick, the last one of the last row. -/
def gridElement : Access :=
  ⟨gridSymbol, .arith .add (.arith .mul (.const (.int 2)) (.const (.int 16)) .int)
    (.arith .mul (.const (.int 3)) (.const (.int 4)) .int) .int, .int⟩

/-- In words, the last element of three rows of four ends where the array does, and shares no byte
with the first one of its row. -/
theorem access_row_major_sample :
    (∃ s', access 40 gridSymbol .first gridState = .ok gridElement s') ∧
      Interpretation.words.ExactOn Addressed ∧ InBounds [3, 4] [2, 3] ∧
      gridElement.index.eval Interpretation.words ⟨fun _ => 0, fun _ _ => 0⟩ = .ok 44 ∧
      44 + Ty.int.width ≤ gridSymbol.type.width ∧
      ∀ byte : Int, 44 ≤ byte → byte < 48 → ¬(32 ≤ byte ∧ byte < 36) := by
  obtain ⟨s', hRun⟩ : ∃ s', access 40 gridSymbol .first gridState = .ok gridElement s' := ⟨_, rfl⟩
  have hBounds : InBounds [3, 4] [2, 3] := by simp [InBounds]
  obtain ⟨phrases, subscripts, -, -, -, hIndex, hCount, -, -, hElements⟩ := access_row_major hRun
  -- the index shows what the subscripts are, and there are no more of them than dimensions
  obtain rfl : subscripts = [.const (.int 2), .const (.int 3)] := by
    generalize hTotal : gridElement.index = total at hIndex
    obtain ⟨-, hFirst, hRest⟩ := hIndex
    obtain ⟨_, rfl⟩ := hFirst.eq
    cases hRest with
    | done => cases hTotal
    | next _ hTerm hSum hRest =>
      obtain ⟨_, rfl⟩ := hTerm.eq
      obtain ⟨_, rfl⟩ := hSum.eq
      cases hRest with
      | done =>
        simp only [gridElement, Expr.arith.injEq] at hTotal
        obtain ⟨-, ⟨-, rfl, -⟩, ⟨-, rfl, -⟩, -⟩ := hTotal
        rfl
      | next => simp [gridSymbol] at hCount
  obtain ⟨-, hWithin⟩ := hElements Interpretation.words ⟨fun _ => 0, fun _ _ => 0⟩ [2, 3]
    (.cons rfl (.cons rfl .nil))
  obtain ⟨hValue, -, hFits, hApart⟩ := hWithin hBounds
  have hEnd : (44 : Int) + Ty.int.width ≤ gridSymbol.type.width := hFits
  refine ⟨⟨s', hRun⟩, Interpretation.words_exactOn, hBounds,
    (hValue Interpretation.words_exactOn).1, by omega, ?_⟩
  exact hApart [2, 0] (by simp [InBounds, gridSymbol]) rfl (by simp)

end JumpCode
