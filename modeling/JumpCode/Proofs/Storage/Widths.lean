import JumpCode.Proofs.Storage.Elements
import JumpCode.Proofs.Storage.Layout

/-!
# JumpCode — widths in words of 32 bits

A type is built from the innermost dimension outwards, and each step is refused if its result could
not be addressed. Lengths are words of 32 bits and may be zero or huge, and the products that make
up a width are not checked any more once there is a type. They need not be: a type has exactly the
width that its dimensions say, and so has every type inside of it.

* `Ty.nest?` — a scalar under dimensions, built step by step;
* `Ty.nest?_eq_none_iff` — when one of the steps is refused;
* `Ty.inner?` — what subscripts lead to;
* `Ty.words` — a width as words give it, which wrap around;
* `widths_exact` — all lengths.
-/

namespace JumpCode

open JumpCode.Parser

/-! ## Types from lengths -/

/-- The scalar under dimensions of these lengths, built by `Ty.array?` from the innermost outwards.
-/
def Ty.nest? (base : Scalar) (lengths : List Nat) : Option Ty :=
  lengths.foldrM Ty.array? (.scalar base)

theorem Ty.nest?_cons (base : Scalar) (n : Nat) (lengths : List Nat) :
    nest? base (n :: lengths) = (nest? base lengths).bind (array? n) :=
  List.foldrM_cons

/-- What is built of some lengths is built over what the last of them give. -/
theorem Ty.nest?_append (base : Scalar) (outer inner : List Nat) :
    nest? base (outer ++ inner) =
      (nest? base inner).bind fun of => outer.foldrM array? of := by
  show (outer ++ inner).foldrM array? (.scalar base) = _
  rw [List.foldrM_append]
  rfl

/-- What `Ty.nest?` builds has the dimensions that it is built from, and every type is built so. -/
theorem Ty.nest?_eq_some_iff {base : Scalar} {lengths : List Nat} {t : Ty} :
    nest? base lengths = some t ↔ t.base = base ∧ t.lengths = lengths := by
  induction lengths generalizing t with
  | nil =>
    constructor
    · intro h
      obtain rfl := Option.some.inj h
      exact ⟨rfl, rfl⟩
    · rintro ⟨hBase, hLengths⟩
      exact congrArg some (Ty.eq_of_lengths hBase.symm hLengths.symm)
  | cons n lengths ih =>
    rw [nest?_cons, Option.bind_eq_some_iff]
    constructor
    · rintro ⟨of, hInner, hArray⟩
      obtain ⟨rfl, rfl⟩ := ih.mp hInner
      exact array_lengths hArray
    · rintro ⟨rfl, hLengths⟩
      obtain ⟨base, _, hFit⟩ := t
      cases hLengths
      -- the type carries the proof that no step is refused
      exact ⟨⟨base, lengths, hFit.2⟩, ih.mpr ⟨rfl, rfl⟩, dif_pos hFit.1⟩

theorem addressable_iff {base : Scalar} {lengths : List Nat} :
    Addressable base lengths ↔
      ∀ outer inner, lengths = outer ++ inner → inner.prod * base.width ≤ maxWidth := by
  constructor
  · rintro h outer inner rfl
    rw [← storage_eq_prod]
    exact Ty.width_le ⟨base, inner, h.inner⟩
  · intro h
    induction lengths with
    | nil => trivial
    | cons n lengths ih =>
      refine ⟨?_, ih fun outer inner hSplit => h (n :: outer) inner (by rw [hSplit]; rfl)⟩
      rw [storage_eq_prod]
      exact h [] _ rfl

/-- **When dimensions are refused**: when those from some place on take more storage than can be
addressed (`maxWidth`), even if a dimension in front of them is empty. -/
theorem Ty.nest?_eq_none_iff {base : Scalar} {lengths : List Nat} :
    nest? base lengths = none ↔
      ∃ outer inner, lengths = outer ++ inner ∧ maxWidth < inner.prod * base.width := by
  have hSome : (∃ t, nest? base lengths = some t) ↔ Addressable base lengths := by
    constructor
    · rintro ⟨t, h⟩
      obtain ⟨rfl, rfl⟩ := nest?_eq_some_iff.mp h
      exact t.addressable
    · intro h
      exact ⟨⟨base, lengths, h⟩, nest?_eq_some_iff.mpr ⟨rfl, rfl⟩⟩
  rw [Option.eq_none_iff_forall_ne_some, ← not_exists, hSome, addressable_iff]
  push Not
  rfl

/-! ## Types inside of types -/

/-- The type that so many subscripts lead to, each of them by `Ty.element?`, if there are dimensions
for them. -/
def Ty.inner? (t : Ty) : Nat → Option Ty
  | 0 => some t
  | k + 1 => (t.inner? k).bind element?

theorem Ty.element?_eq_some_iff {t u : Ty} :
    t.element? = some u ↔ u.base = t.base ∧ ∃ n, t.lengths = n :: u.lengths := by
  constructor
  · exact fun h => ⟨(element_base h).1, lengths_element h⟩
  · rintro ⟨hBase, n, hLengths⟩
    obtain ⟨base, lengths, hFit⟩ := t
    cases hLengths
    exact congrArg some (Ty.eq_of_lengths hBase.symm rfl)

/-- Each subscript takes the outermost dimension off. -/
theorem Ty.inner?_eq_some_iff {t u : Ty} {k : Nat} :
    t.inner? k = some u ↔
      k ≤ t.lengths.length ∧ u.base = t.base ∧ u.lengths = t.lengths.drop k := by
  induction k generalizing u with
  | zero =>
    constructor
    · intro h
      obtain rfl := Option.some.inj h
      exact ⟨Nat.zero_le _, rfl, rfl⟩
    · rintro ⟨-, hBase, hLengths⟩
      exact congrArg some (Ty.eq_of_lengths hBase hLengths).symm
  | succ k ih =>
    rw [inner?, Option.bind_eq_some_iff]
    constructor
    · rintro ⟨v, hInner, hElement⟩
      obtain ⟨-, hBase, hLengths⟩ := ih.mp hInner
      obtain ⟨hSame, n, hOuter⟩ := element?_eq_some_iff.mp hElement
      have hMore : n :: u.lengths = t.lengths.drop k := hOuter.symm.trans hLengths
      have hLength := congrArg List.length hMore
      rw [List.length_cons, List.length_drop] at hLength
      refine ⟨by omega, hSame.trans hBase, ?_⟩
      rw [← List.tail_drop, ← hMore, List.tail_cons]
    · rintro ⟨hCount, hBase, hLengths⟩
      -- there is a dimension left to take off, and what stands under it is a type
      have hSplit : t.lengths.drop k = t.lengths[k] :: u.lengths := by
        rw [hLengths, List.drop_eq_getElem_cons hCount]
      have hFit : Addressable t.base (t.lengths.drop k) :=
        Addressable.inner ((List.take_append_drop k t.lengths).symm ▸ t.addressable)
      exact ⟨⟨t.base, t.lengths.drop k, hFit⟩, ih.mpr ⟨Nat.le_of_lt hCount, rfl, rfl⟩,
        element?_eq_some_iff.mpr ⟨hBase, _, hSplit⟩⟩

/-! ## Words -/

/-- The width of a type in words of 32 bits: each product wraps around. By
`Ty.ProductsFit.toNat_words` it is `Ty.width` all the same. -/
def Ty.words (t : Ty) : UInt32 :=
  t.lengths.foldr (fun n width => .ofNat n * width) (.ofNat t.base.width)

/-- **No product wraps around** if all of them fit (`Ty.ProductsFit`). -/
theorem Ty.ProductsFit.toNat_words {t : Ty} (h : t.ProductsFit) : t.words.toNat = t.width := by
  obtain ⟨base, lengths, hAddressable⟩ := t
  show (lengths.foldr (fun n width => UInt32.ofNat n * width) (.ofNat base.width)).toNat =
    storage base lengths
  -- on the dimensions, from the innermost outwards: each product is that of a length and a width
  -- that is exact already
  induction lengths with
  | nil => cases base <;> rfl
  | cons n lengths ih =>
    have hInner := ih hAddressable.2 fun outer m inner hSplit =>
      h (n :: outer) m inner (congrArg (n :: ·) hSplit)
    obtain ⟨hLength, -, hProduct⟩ := h [] n lengths rfl
    rw [List.foldr_cons, UInt32.toNat_mul, hInner, UInt32.toNat_ofNat_of_lt' hLength]
    exact Nat.mod_eq_of_lt hProduct

/-- A width is no negative number when its word is taken for a signed one. -/
theorem Ty.ProductsFit.toInt_words {t : Ty} (h : t.ProductsFit) :
    t.words.toInt32.toInt = t.width := by
  have hWidth := t.width_le
  have hBound := two_mul_maxWidth_lt
  have hWord : t.words.toBitVec.toNat = t.width := h.toNat_words
  show t.words.toBitVec.toInt = t.width
  rw [BitVec.toInt_eq_toNat_of_lt, hWord]
  rw [hWord]
  exact Nat.lt_of_le_of_lt (Nat.mul_le_mul_left 2 hWidth) hBound

/-- A product of words, unless it is none: the first thing that is asked for before an array is
built. -/
def checkedMul (a b : UInt32) : Option UInt32 :=
  if a.toNat * b.toNat < UInt32.size then some (a * b) else none

/-- Words decide as numbers do whether an array can be addressed: `checkedMul` and the bound refuse
what `Ty.array?` does. -/
theorem Ty.ProductsFit.array?_eq_none_iff {t : Ty} (h : t.ProductsFit) {n : UInt32} :
    array? n.toNat t = none ↔ ∀ width ∈ checkedMul n t.words, maxWidth < width.toNat := by
  have hBound := two_mul_maxWidth_lt
  rw [Ty.array?_eq_none_iff, checkedMul, h.toNat_words]
  split
  · -- a product that is a word is compared with the bound as it is
    next hFits =>
    have hProduct : (n * t.words).toNat = n.toNat * t.width := by
      rw [UInt32.toNat_mul, h.toNat_words]
      exact Nat.mod_eq_of_lt hFits
    simp [hProduct]
  · next hOver =>
    simp only [Option.mem_def, reduceCtorEq, false_implies, implies_true, iff_true]
    omega

/-- The width of a type is what these dimensions say, and in words (`Ty.words`) it is the same. -/
structure Ty.IsExact (t : Ty) (base : Scalar) (lengths : List UInt32) : Prop where
  width_eq : t.width = (lengths.map UInt32.toNat).prod * base.width
  width_le : t.width ≤ maxWidth
  products : t.ProductsFit
  words : t.words.toNat = t.width
  /-- As a signed word the width is not negative. -/
  signed : 0 ≤ t.words.toInt32.toInt ∧ t.words.toInt32.toInt = t.width
  /-- One more dimension is refused exactly if the product is no word or beyond the bound. -/
  outer (n : UInt32) : Ty.array? n.toNat t = none ↔
    ∀ width ∈ checkedMul n t.words, maxWidth < width.toNat

theorem Ty.isExact {t : Ty} {base : Scalar} {lengths : List UInt32} (hBase : t.base = base)
    (hLengths : t.lengths = lengths.map UInt32.toNat) : t.IsExact base lengths := by
  have hFit : t.ProductsFit := by
    refine Ty.productsFit fun n hMem => ?_
    rw [hLengths] at hMem
    obtain ⟨word, -, rfl⟩ := List.mem_map.mp hMem
    exact word.toNat_lt
  refine ⟨?_, t.width_le, hFit, hFit.toNat_words, ⟨?_, hFit.toInt_words⟩,
    fun _ => hFit.array?_eq_none_iff⟩
  · rw [Ty.width, storage_eq_prod, hLengths, hBase]
  · rw [hFit.toInt_words]
    exact Int.natCast_nonneg _

/-- What a `subscript` that is read is scaled by: the width of the element. -/
theorem scaled_of_subscript {fuel : Nat} {x : Symbol} {span : Span} {outer element : Ty}
    {s s' : ParserState} {term : Expr}
    (h : subscript fuel x span outer s = .ok (term, element) s') :
    outer.element? = some element ∧
      ∃ index type, term = .arith .mul index (.const (.int element.width)) type := by
  obtain ⟨-, e, -, -, hElement, hTerm⟩ := ((exprReads fuel).subscript s x span outer).of_ok h
  exact ⟨hElement, e, hTerm.eq⟩

/-! ## All lengths -/

/-- **Widths are exact.** Take a scalar and any words for lengths, and build the type from the
right. A step is refused exactly if the dimensions from some place on take more storage than can be
addressed. Otherwise there is a type for each number of subscripts up to that of the dimensions, and
none of the products in its width overflows: in words it is the product of the dimensions that are
left, within the bound, also when the word is taken for a signed one. This is the constant that a
subscript which is read is scaled by. -/
theorem widths_exact (base : Scalar) (lengths : List UInt32) :
    (Ty.nest? base (lengths.map UInt32.toNat) = none ↔
      ∃ outer inner, lengths = outer ++ inner ∧
        maxWidth < (inner.map UInt32.toNat).prod * base.width) ∧
    ∀ t, Ty.nest? base (lengths.map UInt32.toNat) = some t →
      (∀ k, (t.inner? k).isSome ↔ k ≤ lengths.length) ∧
      ∀ k u, t.inner? k = some u → u.IsExact base (lengths.drop k) ∧
        ∀ fuel x span s term element s', subscript fuel x span u s = .ok (term, element) s' →
          t.inner? (k + 1) = some element ∧ element.IsExact base (lengths.drop (k + 1)) ∧
          ∃ index type,
            term = .arith .mul index (.const (.int element.words.toInt32.toInt)) type := by
  refine ⟨?_, fun t hNest => ?_⟩
  · rw [Ty.nest?_eq_none_iff]
    constructor
    · rintro ⟨outer, inner, hSplit, hOver⟩
      obtain ⟨outer, inner, rfl, rfl, rfl⟩ := List.map_eq_append_iff.mp hSplit
      exact ⟨outer, inner, rfl, hOver⟩
    · rintro ⟨outer, inner, rfl, hOver⟩
      exact ⟨_, _, List.map_append, hOver⟩
  · obtain ⟨hBase, hLengths⟩ := Ty.nest?_eq_some_iff.mp hNest
    -- each type on the way has the dimensions that are left
    have hExact {k : Nat} {u : Ty} (hInner : t.inner? k = some u) :
        u.IsExact base (lengths.drop k) := by
      obtain ⟨-, hSame, hRest⟩ := Ty.inner?_eq_some_iff.mp hInner
      refine Ty.isExact (hSame.trans hBase) ?_
      rw [hRest, hLengths, List.map_drop]
    refine ⟨fun k => ?_, fun k u hInner => ⟨hExact hInner, ?_⟩⟩
    · have hCount : t.lengths.length = lengths.length := by rw [hLengths, List.length_map]
      have hFit : Addressable t.base (t.lengths.drop k) :=
        Addressable.inner ((List.take_append_drop k t.lengths).symm ▸ t.addressable)
      rw [Option.isSome_iff_exists, ← hCount]
      constructor
      · rintro ⟨u, hInner⟩
        exact (Ty.inner?_eq_some_iff.mp hInner).1
      · exact fun hLe => ⟨⟨t.base, t.lengths.drop k, hFit⟩,
          Ty.inner?_eq_some_iff.mpr ⟨hLe, rfl, rfl⟩⟩
    · intro fuel x span s term element s' hRead
      obtain ⟨hElement, index, type, rfl⟩ := scaled_of_subscript hRead
      have hNext : t.inner? (k + 1) = some element := by rw [Ty.inner?, hInner]; exact hElement
      refine ⟨hNext, hExact hNext, index, type, ?_⟩
      rw [(hExact hNext).signed.2]

/-- In three rows of four integers, the subscript that picks a row is scaled by 16. An empty
dimension makes room for a huge one around it, but not for a huge one inside of it. -/
theorem widths_exact_sample :
    Ty.nest? .int (([3, 4] : List UInt32).map UInt32.toNat) = some gridSymbol.type ∧
    (∃ term element s',
      subscript 40 gridSymbol .first gridSymbol.type gridState = .ok (term, element) s' ∧
      element.IsExact .int [4] ∧ ∃ index type, term = .arith .mul index (.const (.int 16)) type) ∧
    Ty.nest? .int (([4294967295, 0, 3] : List UInt32).map UInt32.toNat) ≠ none ∧
    Ty.nest? .int (([0, 536870912] : List UInt32).map UInt32.toNat) = none := by
  have hGrid : Ty.nest? .int (([3, 4] : List UInt32).map UInt32.toNat) = some gridSymbol.type := rfl
  obtain ⟨-, hWidths⟩ := widths_exact .int [3, 4]
  obtain ⟨-, hInner⟩ := hWidths gridSymbol.type hGrid
  obtain ⟨-, hScaled⟩ := hInner 0 gridSymbol.type rfl
  obtain ⟨⟨term, element⟩, s', hRun⟩ : ∃ result s',
      subscript 40 gridSymbol .first gridSymbol.type gridState = .ok result s' := ⟨_, _, rfl⟩
  obtain ⟨-, hElement, index, type, rfl⟩ :=
    hScaled 40 gridSymbol .first gridState term element s' hRun
  have hWidth : element.words.toInt32.toInt = 16 := by
    rw [hElement.signed.2, hElement.width_eq]
    rfl
  have hEmpty := (widths_exact .int [0, 536870912]).1
  refine ⟨hGrid, ⟨_, element, s', hRun, hElement, index, type, by rw [hWidth]⟩, by decide,
    hEmpty.mpr ?_⟩
  exact ⟨[0], [536870912], rfl, by decide⟩

end JumpCode
