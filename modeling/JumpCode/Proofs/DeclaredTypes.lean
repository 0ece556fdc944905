import JumpCode.Proofs.Lexing.Spelling
import JumpCode.Proofs.Parsing.Dimensions
import JumpCode.Proofs.Storage.Allocation
import JumpCode.Proofs.Storage.Widths

/-!
# JumpCode — declared types

A type is written as its scalar and its lengths in brackets, and a declaration reads it back: both
with the brackets behind the scalar, as the type is written, and with the brackets behind the name.
Where the lengths give no type, both ways of writing are refused for the same dimension.

* `Side` — the two ways to declare a name under dimensions, as texts;
* `Innermost` — the dimension that is one too many, and what stands behind it;
* `Side.declares` — a type that is declared, in either way;
* `Side.refused_iff` — lengths that are refused, in either way;
* `declared_types` — all types and all lengths.
-/

namespace JumpCode

open JumpCode.Parser

/-! ## Lengths that can be written -/

/-- Integer literals can give these lengths: none of them is more than `maxInt`. -/
def Writable (lengths : List Nat) : Prop := ∀ n ∈ lengths, n ≤ maxInt

/-- A literal gives the length that it shows: `lengthOf` changes no number up to `maxInt`. -/
theorem lengthOf_of_le {n : Nat} (h : n ≤ maxInt) : lengthOf n = n := by
  unfold lengthOf
  unfold maxInt at h
  omega

theorem Writable.map_lengthOf {lengths : List Nat} (h : Writable lengths) :
    (lengths.map Int.ofNat).map lengthOf = lengths := by
  rw [List.map_map]
  have hSame : lengths.map (lengthOf ∘ Int.ofNat) = lengths.map id :=
    List.map_congr_left fun n hn => lengthOf_of_le (h n hn)
  rw [hSame, List.map_id]

/-! ## The dimension that is one too many -/

/-- With the length `n` behind `outer`, the storage of these lengths is too much for the first time,
from the right: the lengths behind it give the type `element` (`Ty.nest?`), but an array of `n` such
elements takes more than `maxWidth`. -/
structure Innermost (base : Scalar) (lengths outer : List Nat) (n : Nat) (element : Ty) :
    Prop where
  split : ∃ inner, lengths = outer ++ n :: inner ∧ Ty.nest? base inner = some element
  exceeds : maxWidth < n * element.width

namespace Innermost

variable {base : Scalar} {lengths outer outer' : List Nat} {n n' : Nat} {element element' : Ty}

theorem nest?_eq_none (h : Innermost base lengths outer n element) :
    Ty.nest? base lengths = none := by
  obtain ⟨inner, hSplit, hInner⟩ := h.split
  have hArray : Ty.array? n element = none := Ty.array?_eq_none_iff.mpr h.exceeds
  rw [hSplit, Ty.nest?_append, Ty.nest?_cons, hInner, Option.bind_some, hArray]
  rfl

/-- Of two such dimensions neither stands in front of the other. -/
theorem not_before (h : Innermost base lengths outer n element)
    (h' : Innermost base lengths outer' n' element') {more : List Nat}
    (hOuter : outer' = outer ++ more) : more = [] := by
  obtain ⟨inner, hSplit, hInner⟩ := h.split
  obtain ⟨inner', hSplit', hInner'⟩ := h'.split
  rw [hSplit, hOuter, List.append_assoc] at hSplit'
  have hRest := List.append_cancel_left hSplit'
  cases more with
  | nil => rfl
  | cons m more =>
    -- the other dimension would be one of those behind the first one, which give a type
    rw [List.cons_append] at hRest
    obtain ⟨-, rfl⟩ := List.cons.inj hRest
    have hOther : Innermost base (more ++ n' :: inner') more n' element' :=
      ⟨⟨inner', rfl, hInner'⟩, h'.exceeds⟩
    rw [hOther.nest?_eq_none] at hInner
    cases hInner

/-- **There is one such dimension**, at most: of two, neither stands in front of the other. -/
theorem unique (h : Innermost base lengths outer n element)
    (h' : Innermost base lengths outer' n' element') :
    outer = outer' ∧ n = n' ∧ element = element' := by
  obtain ⟨inner, hSplit, hInner⟩ := h.split
  obtain ⟨inner', hSplit', hInner'⟩ := h'.split
  -- one of the fronts goes on where the other one ends, but it has nothing more
  have hOuter : outer = outer' := by
    rcases List.append_eq_append_iff.mp (hSplit.symm.trans hSplit') with
      ⟨more, hMore, -⟩ | ⟨more, hMore, -⟩
    · rw [hMore, h.not_before h' hMore, List.append_nil]
    · rw [hMore, h'.not_before h hMore, List.append_nil]
  subst hOuter
  obtain ⟨rfl, rfl⟩ := List.cons.inj (List.append_cancel_left (hSplit.symm.trans hSplit'))
  exact ⟨rfl, rfl, Option.some.inj (hInner.symm.trans hInner')⟩

end Innermost

/-! ## Two ways to declare a name -/

/-- The text of a block with one declaration: what stands in front of the name, the name, and what
stands right behind it. -/
def blockOf (front name back : String) : String :=
  "\x7b " ++ front ++ " " ++ name ++ back ++ "; \x7d"

/-- Where the lengths of a declaration are written: behind the type or behind the name. The grammar
has both (`Decl`). -/
inductive Side
  | behindType
  | behindName
deriving DecidableEq, Repr

namespace Side

/-- The text of the block that declares a name under dimensions of these lengths (`blockOf`). -/
def text (side : Side) (base : Scalar) (name : String) (lengths : List Nat) : String :=
  match side with
  | behindType => blockOf (base.name ++ brackets lengths) name ""
  | behindName => blockOf base.name name (brackets lengths)

/-- The `Decl` in this block. -/
def decl (side : Side) (base : Scalar) (name : String) (lengths : List Nat) : Decl :=
  match side with
  | behindType => ⟨base, lengths.map Int.ofNat, name, [], .inr rfl⟩
  | behindName => ⟨base, [], name, lengths.map Int.ofNat, .inl rfl⟩

/-- The tokens of this block in front of the lengths. -/
def front (side : Side) (base : Scalar) (name : String) : List Token :=
  match side with
  | behindType => [.mark .openCurly, .scalar base]
  | behindName => [.mark .openCurly, .scalar base, .name name]

/-- The `Source` of this block. -/
def source (side : Side) (file : String) (base : Scalar) (name : String) (lengths : List Nat) :
    Source :=
  .ofText file (side.text base name lengths)

end Side

section Sides

variable {side : Side} {base : Scalar} {name : String} {lengths : List Nat}

/-- **The block is read as one declaration.** Its text comes to the tokens of `Side.decl` between
braces. -/
theorem Side.lexesTo (side : Side) (base : Scalar) (hName : IsName name)
    (hFits : Writable lengths) : LexesTo (side.text base name lengths).toList
      (.mark .openCurly :: ((side.decl base name lengths).tokens ++ [.mark .closeCurly])) := by
  have hEnd : LexesTo [';', ' ', '\x7d'] [.mark .semicolon, .mark .closeCurly] :=
    .mark rfl (.blank rfl (.mark rfl .nil))
  have hBlank {text : List Char} : ∀ c ∈ (' ' :: text).head?, isWordPart c = false := by
    intro c hc
    obtain rfl := Option.some.inj hc
    rfl
  have hSemicolon : ∀ c ∈ ([';', ' ', '\x7d'] : List Char).head?, isWordPart c = false := by
    intro c hc
    obtain rfl := Option.some.inj hc
    rfl
  -- each text is put together from its end
  cases side with
  | behindType =>
    have hText : LexesTo ('\x7b' :: ' ' :: (base.name.toList ++ ((brackets lengths).toList ++
        ' ' :: (name.toList ++ [';', ' ', '\x7d'])))) _ :=
      .mark rfl (.blank rfl (.scalar base (brackets_head lengths hBlank) (.brackets hFits
        (.blank rfl (hEnd.name hName hSemicolon)))))
    simpa [Side.text, Side.decl, blockOf, Decl.tokens, dimsTokens] using hText
  | behindName =>
    have hText : LexesTo ('\x7b' :: ' ' :: (base.name.toList ++ ' ' :: (name.toList ++
        ((brackets lengths).toList ++ [';', ' ', '\x7d'])))) _ :=
      .mark rfl (.blank rfl (.scalar base hBlank (.blank rfl
        (.name hName (brackets_head lengths hSemicolon) (.brackets hFits hEnd)))))
    simpa [Side.text, Side.decl, blockOf, Decl.tokens, dimsTokens] using hText

/-- Both ways give the type that is built of the lengths, and no type where `Ty.nest?` has none. -/
theorem Side.hasType_iff {t : Ty} (hFits : Writable lengths) :
    (side.decl base name lengths).HasType t ↔ Ty.nest? base lengths = some t := by
  rw [Ty.nest?_eq_some_iff]
  have hLengths : ((side.decl base name lengths).before ++
      (side.decl base name lengths).after).map lengthOf = lengths := by
    cases side with
    | behindType => exact (congrArg _ (List.append_nil _)).trans hFits.map_lengthOf
    | behindName => exact hFits.map_lengthOf
  have hBase : (side.decl base name lengths).base = base := by cases side <;> rfl
  unfold Decl.HasType
  rw [hLengths, hBase]

end Sides

/-! ## Declarations that give a type -/

/-- **A block with one declaration** is accepted if the declaration has a type (`Decl.HasType`): it
does nothing, and the name gets this type and all the storage. -/
theorem readTokens_declaration {tokens : List (Located Token)} {d : Decl} {type : Ty}
    (hTokens : tokens.map (·.value) = .mark .openCurly :: (d.tokens ++ [.mark .closeCurly]))
    (hType : d.HasType type) :
    (readTokens tokens none).outcome = .ok ⟨.null, type.width⟩ ∧
      (readTokens tokens none).symbols = [⟨d.name, type, 0⟩] := by
  have hDerived : (Clause.braces [d] .nil).tokens = tokens.map (·.value) := by
    rw [hTokens]
    simp [Clause.tokens]
  have hFits : 0 + type.width ≤ maxWidth := by
    rw [Nat.zero_add]
    exact type.width_le
  -- the block is the first one, so that its frame has no other name
  have hDeclares : Declares Scope.empty.enter 0 [d] _ _ := .cons hType hFits rfl .nil
  have hProgram : (Clause.braces [d] .nil).IsProgram ⟨.null, type.width⟩ :=
    ⟨_, .braces hDeclares .nil, Nat.zero_add _⟩
  have hRead := outcome_of_derivation hDerived trivial hProgram
  refine ⟨hRead, ?_⟩
  obtain ⟨e, hSame, -, hTiles, -⟩ := tiles_of_read hRead
  have hDecls : e.decls = [d] := by
    have hSpells := e.spells
    rw [hSame, ← hDerived] at hSpells
    exact hSpells.unique (Clause.braces [d] .nil).spells
  rw [hDecls] at hTiles
  generalize (readTokens tokens none).symbols = xs at hTiles ⊢
  have hDeclared := hTiles.declared
  cases hDeclared with
  | @cons _ x _ _ hFirst hNone =>
    cases hNone
    have hOffset : x.offset = 0 := hTiles.offset 0 x rfl
    obtain ⟨hName, hOther⟩ := hFirst
    rw [← hName, ← hOther.unique hType, ← hOffset]

/-- A `Source` is accepted and declares this `Symbol` alone. The program does nothing, and its
storage is what the type of the name takes. -/
structure Source.DeclaresOnly (s : Source) (x : Symbol) : Prop where
  outcome : s.read.outcome = .ok ⟨.null, x.type.width⟩
  symbols : s.read.symbols = [x]

section Sources

variable {side : Side} {base : Scalar} {name : String} {lengths : List Nat}

/-- Reading a block comes to what reading its tokens comes to: `readTokens`, with nothing wrong
behind them. -/
theorem Side.read_source (side : Side) (file : String) (base : Scalar) (hName : IsName name)
    (hFits : Writable lengths) :
    (side.source file base name lengths).scan.tokens.map (·.value) =
        .mark .openCurly :: ((side.decl base name lengths).tokens ++ [.mark .closeCurly]) ∧
      (side.source file base name lengths).read =
        readTokens (side.source file base name lengths).scan.tokens none := by
  obtain ⟨hTokens, hFailure⟩ := (side.lexesTo base hName hFits).scan file
  refine ⟨hTokens, ?_⟩
  show readTokens _ (side.source file base name lengths).scan.failure = _
  rw [show (side.source file base name lengths).scan.failure = none from hFailure]

/-- **A type is declared in both ways**: each block `DeclaresOnly` the name with the type that
`Ty.nest?` builds of the lengths. -/
theorem Side.declares (side : Side) (file : String) (hName : IsName name)
    (hFits : Writable lengths) {t : Ty} (h : Ty.nest? base lengths = some t) :
    (side.source file base name lengths).DeclaresOnly ⟨name, t, 0⟩ := by
  obtain ⟨hTokens, hRead⟩ := side.read_source file base hName hFits
  obtain ⟨hOutcome, hSymbols⟩ := readTokens_declaration hTokens ((hasType_iff hFits).mpr h)
  have hSame : (side.decl base name lengths).name = name := by cases side <;> rfl
  rw [hSame] at hSymbols
  exact ⟨hRead ▸ hOutcome, hRead ▸ hSymbols⟩

/-! ## Lengths that are refused -/

/-- In a source, behind tokens of these values, the literal of a number stands here. -/
def Source.HasLiteral (s : Source) (front : List Token) (n : Nat) (span : Span) : Prop :=
  ∃ before after, s.scan.tokens = before ++ ⟨.intLiteral n, span⟩ :: after ∧
    before.map (·.value) = front

theorem Source.HasLiteral.unique {s : Source} {front : List Token} {n : Nat} {span span' : Span}
    (h : s.HasLiteral front n span) (h' : s.HasLiteral front n span') : span = span' := by
  obtain ⟨before, after, hTokens, hFront⟩ := h
  obtain ⟨before', after', hTokens', hFront'⟩ := h'
  cases token_unique (hTokens.symm.trans hTokens') (hFront.trans hFront'.symm)
  rfl

/-- What stands in front of a length: `Side.front`, the lengths on its left in brackets, and its own
bracket. -/
def Side.upTo (side : Side) (base : Scalar) (name : String) (outer : List Nat) : List Token :=
  side.front base name ++ (dimsTokens (outer.map Int.ofNat) ++ [.mark .openSquare])

/-- The lengths stand on one side of the name, and there one of them is to blame (`Oversized`). -/
theorem Side.oversized {tokens : List (Located Token)} {stop : Stop}
    (h : (side.decl base name lengths).Oversized tokens [.mark .openCurly] stop) :
    Oversized tokens (side.front base name) (.scalar base) (lengths.map Int.ofNat) stop := by
  have hNone {front : List Token} (hEmpty : Oversized tokens front (.scalar base) [] stop) :
      False := by
    cases hEmpty with
    | literal outer hDims => simp at hDims
  cases side with
  | behindType => exact h.resolve_right hNone
  | behindName => exact h.resolve_left hNone

/-- Where the lengths give no type, the block is refused at the literal of the `Innermost` one that
is one too many. -/
theorem Side.exists_refused (side : Side) (file : String) (hName : IsName name)
    (hFits : Writable lengths) (hNone : Ty.nest? base lengths = none) :
    ∃ outer n element span, Innermost base lengths outer n element ∧
      (side.source file base name lengths).HasLiteral (side.upTo base name outer) n span ∧
      (side.source file base name lengths).read.outcome =
        .error (.error ⟨.semantic (.arrayTooLarge n element), span⟩) := by
  obtain ⟨hTokens, hRead⟩ := side.read_source file base hName hFits
  have hUntyped : ¬ ∃ type, (side.decl base name lengths).HasType type := by
    rintro ⟨type, hType⟩
    cases hNone.symm.trans ((hasType_iff hFits).mp hType)
  obtain ⟨stop, hOutcome, hOver⟩ := readTokens_oversized hUntyped hTokens
  have hOver := Side.oversized hOver
  rw [← hRead] at hOutcome
  -- the literals that the parser has read are the lengths that have been written
  cases hOver with
  | @literal _ _ _ element _ _ span hDims hInner hArray hPlaced hBefore =>
    obtain ⟨outer, back, rfl, rfl, hBack⟩ := List.map_eq_append_iff.mp hDims
    obtain ⟨n, inner, rfl, rfl, rfl⟩ := List.map_eq_cons_iff.mp hBack
    have hLength : lengthOf (Int.ofNat n) = n := lengthOf_of_le (hFits n (by simp))
    have hRest : Writable inner := fun m hm => hFits m (by simp [hm])
    rw [hLength] at hArray hOutcome
    have hNest : Ty.nest? base inner = some element := by
      refine Ty.nest?_eq_some_iff.mpr ⟨hInner.base, ?_⟩
      rw [hInner.lengths, hRest.map_lengthOf]
      exact List.append_nil inner
    exact ⟨outer, n, element, span, ⟨⟨inner, rfl, hNest⟩, Ty.array?_eq_none_iff.mp hArray⟩,
      ⟨_, _, hPlaced, hBefore⟩, hOutcome⟩

/-- **Which dimension is named**: the `Innermost` one that is one too many, with the type of its
elements, at its literal. There is only one such error, as `Innermost.unique` has it. -/
theorem Side.refused_iff (side : Side) (file : String) (hName : IsName name)
    (hFits : Writable lengths) {n : Nat} {element : Ty} {span : Span} :
    (side.source file base name lengths).read.outcome =
        .error (.error ⟨.semantic (.arrayTooLarge n element), span⟩) ↔
      ∃ outer, Innermost base lengths outer n element ∧
        (side.source file base name lengths).HasLiteral (side.upTo base name outer) n span := by
  constructor
  · intro hOutcome
    -- otherwise the block would have been accepted
    have hNone : Ty.nest? base lengths = none := by
      by_contra hSome
      obtain ⟨t, ht⟩ := Option.ne_none_iff_exists'.mp hSome
      cases hOutcome.symm.trans (side.declares file hName hFits ht).outcome
    obtain ⟨outer, _, _, _, hInnermost, hLiteral, hSame⟩ :=
      side.exists_refused file hName hFits hNone
    cases hOutcome.symm.trans hSame
    exact ⟨outer, hInnermost, hLiteral⟩
  · rintro ⟨outer, hInnermost, hLiteral⟩
    -- there is a dimension that is refused, and it can be no other one
    obtain ⟨_, _, _, _, hInnermost', hLiteral', hOutcome⟩ :=
      side.exists_refused file hName hFits hInnermost.nest?_eq_none
    obtain ⟨rfl, rfl, rfl⟩ := hInnermost.unique hInnermost'
    rw [hLiteral.unique hLiteral']
    exact hOutcome

end Sources

/-! ## All types -/

/-- **Declared types.** A type whose lengths can be written is written as its scalar with its
lengths in brackets, the outermost first; a block that declares a name with the type in front, and
one with the lengths behind the name, are both accepted, and both give the name this type and its
width. So types that are written alike are the same. Whatever the lengths, both blocks are refused
exactly if the lengths from some place on take more storage than can be addressed, and then both
name the innermost dimension with which this is so, and the type that those behind it give. -/
theorem declared_types (file : String) {name : String} (hName : IsName name) :
    (∀ t : Ty, Writable t.lengths →
      t.render = t.base.name ++ brackets t.lengths ∧
      (Source.ofText file (blockOf t.render name "")).DeclaresOnly ⟨name, t, 0⟩ ∧
      (Source.ofText file (blockOf t.base.name name (brackets t.lengths))).DeclaresOnly
        ⟨name, t, 0⟩) ∧
    (∀ t u : Ty, Writable t.lengths → Writable u.lengths → t.render = u.render → t = u) ∧
    ∀ (side : Side) (base : Scalar) (lengths : List Nat), Writable lengths →
      ((∃ n element span, (side.source file base name lengths).read.outcome =
          .error (.error ⟨.semantic (.arrayTooLarge n element), span⟩)) ↔
        ∃ outer inner, lengths = outer ++ inner ∧ maxWidth < inner.prod * base.width) ∧
      ∀ n element span, (side.source file base name lengths).read.outcome =
          .error (.error ⟨.semantic (.arrayTooLarge n element), span⟩) ↔
        ∃ outer, Innermost base lengths outer n element ∧
          (side.source file base name lengths).HasLiteral (side.upTo base name outer) n span := by
  have hDeclares (side : Side) {t : Ty} (hFits : Writable t.lengths) :
      (side.source file t.base name t.lengths).DeclaresOnly ⟨name, t, 0⟩ :=
    side.declares file hName hFits (Ty.nest?_eq_some_iff.mpr ⟨rfl, rfl⟩)
  refine ⟨fun t hFits => ⟨rfl, hDeclares .behindType hFits, hDeclares .behindName hFits⟩, ?_, ?_⟩
  · intro t u hFits hFits' hSame
    -- the two types are declared by one text
    have hFirst : (Source.ofText file (blockOf t.render name "")).DeclaresOnly ⟨name, t, 0⟩ :=
      hDeclares .behindType hFits
    have hSecond : (Source.ofText file (blockOf u.render name "")).DeclaresOnly ⟨name, u, 0⟩ :=
      hDeclares .behindType hFits'
    rw [← hSame] at hSecond
    cases hFirst.symbols.symm.trans hSecond.symbols
    rfl
  · intro side base lengths hFits
    refine ⟨?_, fun n element span => side.refused_iff file hName hFits⟩
    rw [← Ty.nest?_eq_none_iff]
    constructor
    · rintro ⟨n, element, span, hOutcome⟩
      obtain ⟨outer, hInnermost, -⟩ := (side.refused_iff file hName hFits).mp hOutcome
      exact hInnermost.nest?_eq_none
    · intro hNone
      obtain ⟨_, n, element, span, -, -, hOutcome⟩ := side.exists_refused file hName hFits hNone
      exact ⟨n, element, span, hOutcome⟩

/-- Three rows of four integers are declared in both ways. In the last lengths the empty dimension
would make room for everything, but the one behind it is refused before it comes to that. -/
theorem declared_types_sample :
    (∃ t : Ty, t.render = "int[3][4]" ∧ t.width = 48 ∧
      (Source.ofText "unit" "\x7b int[3][4] x; \x7d").DeclaresOnly ⟨"x", t, 0⟩ ∧
      (Source.ofText "unit" "\x7b int x[3][4]; \x7d").DeclaresOnly ⟨"x", t, 0⟩) ∧
    ∀ side : Side, ∃ element span, element.render = "int[2]" ∧
      (side.source "unit" .int "x" [0, 536870912, 2]).read.outcome =
        .error (.error ⟨.semantic (.arrayTooLarge 536870912 element), span⟩) := by
  have hWord : IsWord ['x'] := .intro (by decide) (by simp)
  have hName : IsName "x" :=
    ⟨hWord, fun k => by cases k <;> decide, fun s => by cases s <;> decide⟩
  obtain ⟨hDeclares, -, hLengths⟩ := declared_types "unit" hName
  constructor
  · have hFits : Writable gridSymbol.type.lengths := by simp [Writable, gridSymbol, maxInt]
    obtain ⟨-, hFirst, hSecond⟩ := hDeclares gridSymbol.type hFits
    exact ⟨gridSymbol.type, rfl, rfl, hFirst, hSecond⟩
  · intro side
    have hFits : Writable [0, 536870912, 2] := by simp [Writable, maxInt]
    obtain ⟨hRefused, hNamed⟩ := hLengths side .int [0, 536870912, 2] hFits
    obtain ⟨n, element, span, hOutcome⟩ :=
      hRefused.mpr ⟨[0], [536870912, 2], rfl, by decide⟩
    obtain ⟨outer, hInnermost, -⟩ := (hNamed n element span).mp hOutcome
    have hRow : Addressable .int [2] := by simp [Addressable, storage, Scalar.width, maxWidth]
    have hBlamed : Innermost .int [0, 536870912, 2] [0] 536870912 ⟨.int, [2], hRow⟩ :=
      ⟨⟨[2], rfl, rfl⟩, show maxWidth < 536870912 * 8 by decide⟩
    obtain ⟨-, rfl, rfl⟩ := hInnermost.unique hBlamed
    exact ⟨_, span, rfl, hOutcome⟩

end JumpCode
