import JumpCode.Proofs.Parsing.ExprHalting

/-!
# JumpCode — where the parser halts in declarations

A declaration is read up to its semicolon before its name is declared. So the parser either halts
inside a declaration, of which at least the semicolon has not been read; or it has read a whole one,
and only then storage and the names in the block decide whether it is refused.

* `BeginsDims`, `Decl.Begins` — beginnings of dimensions and of declarations;
* `Course` — tokens that are read off, and the symbols that the declarations among them create;
* `Refused` — a declaration that is whole but cannot be made, and why;
* `halts_decl`, `halts_decls` — one declaration, and declarations in a row.
-/

namespace JumpCode

open JumpCode.Parser

/-! ## Beginnings -/

/-- With these tokens dimensions may begin: they are in front of some `dimsTokens`. -/
def BeginsDims (ts : List Token) : Prop :=
  ∃ (ns : List Int) (more : List Token), dimsTokens ns = ts ++ more

namespace BeginsDims

variable {ts : List Token}

theorem nil : BeginsDims [] := ⟨[], [], rfl⟩

theorem whole (ns : List Int) : BeginsDims (dimsTokens ns) := ⟨ns, [], (List.append_nil _).symm⟩

theorem bracket : BeginsDims [.mark .openSquare] :=
  ⟨[0], [.intLiteral 0, .mark .closeSquare], rfl⟩

theorem length (n : Int) : BeginsDims [.mark .openSquare, .intLiteral n] :=
  ⟨[n], [.mark .closeSquare], rfl⟩

theorem cons (n : Int) (h : BeginsDims ts) : BeginsDims (bracketed [.intLiteral n] ++ ts) := by
  obtain ⟨ns, more, hTokens⟩ := h
  refine ⟨n :: ns, more, ?_⟩
  rw [dimsTokens, List.flatMap_cons, ← dimsTokens, hTokens, List.append_assoc]

end BeginsDims

namespace Decl.Begins

variable {ts : List Token}

theorem nil : Decl.Begins [] := ⟨⟨.int, [], "a", [], .inl rfl⟩, _, rfl, by simp⟩

theorem type (b : Scalar) (h : BeginsDims ts) : Decl.Begins (.scalar b :: ts) := by
  obtain ⟨ns, more, hTokens⟩ := h
  exact ⟨⟨b, ns, "a", [], .inr rfl⟩, more ++ [.name "a", .mark .semicolon],
    by simp [tokens, hTokens, show dimsTokens [] = [] from rfl], by simp⟩

/-- Dimensions may stand behind the name if there are none in front of it. -/
theorem side (b : Scalar) (text : String) (h : BeginsDims ts) :
    Decl.Begins (.scalar b :: .name text :: ts) := by
  obtain ⟨ns, more, hTokens⟩ := h
  exact ⟨⟨b, [], text, ns, .inl rfl⟩, more ++ [.mark .semicolon],
    by simp [tokens, hTokens, show dimsTokens [] = [] from rfl], by simp⟩

/-- A declaration without its semicolon. -/
theorem unended (d : Decl) :
    Decl.Begins (.scalar d.base :: (dimsTokens d.before ++ .name d.name :: dimsTokens d.after)) :=
  ⟨d, [.mark .semicolon], by simp [tokens], by simp⟩

end Decl.Begins

/-! ## Dimensions and types -/

/-- Where no bracket is next, no dimensions have been taken. -/
theorem Takes.no_dims {s s' : ParserState} {ns : List Int} (h : Takes s (dimsTokens ns) s')
    (hNot : s.tokens.head? ≠ some (.mark .openSquare)) : ns = [] := by
  cases ns with
  | nil => rfl
  | cons n ns => exact absurd (congrArg List.head? h.tokens) hNot

/-- Dimensions are read if there is a bracket; otherwise the parser can `Halt` only here. -/
theorem halts_optionalDims_of {fuel : Nat} {of : Ty} {s : ParserState}
    (hDims : Yields (dims fuel of) s
      (fun t s' => ∃ ns, Takes s (dimsTokens ns) s' ∧ t.Covers of ns) (Halt s BeginsDims)) :
    Yields (optionalDims fuel of) s
      (fun t s' => ∃ ns, Takes s (dimsTokens ns) s' ∧ t.Covers of ns)
      (Halt s fun us => BeginsDims us ∧ (s.tokens.head? ≠ some (.mark .openSquare) → us = [])) := by
  rw [optionalDims]
  refine (Takes.refl s).step (halts_atMark _ s) ⟨.nil, fun _ => rfl⟩ ?_
  rintro b s₁ ⟨rfl, hHead⟩
  split
  · next hMark =>
    refine hDims.mono (fun _ _ h => h) fun _ _ hHalt => hHalt.mono fun us h => ⟨h, fun hNot => ?_⟩
    -- the bracket has been seen, so that this is not the case without one
    exact absurd (hHead.mp hMark) hNot
  · exact ⟨[], .refl s₁, rfl, rfl⟩

theorem halts_dims (fuel : Nat) (of : Ty) (s : ParserState) :
    Yields (dims fuel of) s (fun t s' => ∃ ns, Takes s (dimsTokens ns) s' ∧ t.Covers of ns)
      (Halt s BeginsDims) := by
  induction fuel generalizing s with
  | zero => exact .exhausted s
  | succ fuel ih =>
    rw [dims]
    refine (Takes.refl s).step (halts_expect _ s) .nil fun _ s₁ hOpen => ?_
    refine hOpen.step (halts_next s₁) .bracket fun found s₂ hFound => ?_
    obtain ⟨hRest, hLast, hLength⟩ := hFound
    split
    · next n hToken =>
      rw [hToken] at hLength
      -- a length has been read, and its bracket is closed
      have hBefore : Takes s [.mark .openSquare, .intLiteral n] s₂ := hOpen.trans hLength
      refine hBefore.step (halts_expect _ s₂) (.length n) fun _ s₃ hClose => ?_
      have hFirst : Takes s (bracketed [.intLiteral n]) s₃ := hBefore.trans hClose
      dsimp only
      rw [optionalDims_bind]
      refine hFirst.bind (halts_optionalDims_of (ih s₃)) (fun us h => h.1.cons n) ?_
      rintro element s₄ ⟨ns, hMore, hBase, hLengths⟩
      have hAll : Takes s (dimsTokens (n :: ns)) s₄ := hFirst.trans hMore
      split
      · next t hArray =>
        obtain ⟨hArrayBase, hArrayLengths⟩ := array_lengths hArray
        refine ⟨n :: ns, hAll, hArrayBase.trans hBase, ?_⟩
        rw [hArrayLengths, hLengths]
        rfl
      · -- the array is too large, which shows only behind its dimensions
        exact (Halt.rule found.span s₄ id).here hAll (.whole (n :: ns))
    · exact Yields.mono (halts_fail hRest hLast hLength rfl) (fun _ _ h => h) fun _ _ hHalt =>
        hHalt.here hOpen .bracket

theorem halts_optionalDims (fuel : Nat) (of : Ty) (s : ParserState) :
    Yields (optionalDims fuel of) s
      (fun t s' => ∃ ns, Takes s (dimsTokens ns) s' ∧ t.Covers of ns)
      (Halt s fun us => BeginsDims us ∧ (s.tokens.head? ≠ some (.mark .openSquare) → us = [])) :=
  halts_optionalDims_of (halts_dims fuel of s)

theorem halts_type (fuel : Nat) (s : ParserState) :
    Yields (type fuel) s
      (fun t s' => ∃ ns, Takes s (.scalar t.base :: dimsTokens ns) s' ∧
        t.lengths = ns.map lengthOf)
      (Halt s Decl.Begins) := by
  rw [type]
  refine (Takes.refl s).step (halts_next s) .nil fun found s₁ hFound => ?_
  obtain ⟨hRest, hLast, hScalar⟩ := hFound
  split
  · next b hToken =>
    rw [hToken] at hScalar
    refine hScalar.last (halts_optionalDims fuel (.scalar b) s₁) (fun us h => .type b h.1) ?_
    rintro t s₂ ⟨ns, hDims, hBase, hLengths⟩
    refine ⟨ns, ?_, hLengths.trans (List.append_nil _)⟩
    rw [hBase]
    exact hScalar.trans hDims
  · exact Yields.mono (halts_fail hRest hLast hScalar rfl) (fun _ _ h => h) fun _ _ hHalt =>
      hHalt.here (.refl s) .nil

/-! ## Courses -/

/-- From one state to the other these tokens have been read off, and these declarations are the ones
among them. They have been laid out in storage (`LaidOut`), behind all that is taken before. -/
structure Course (s : ParserState) (ts : List Token) (ds : List Decl) (s' : ParserState) :
    Prop where
  read : ∃ located, s.rest = located ++ s'.rest ∧ located.map (·.value) = ts
  ending : s'.ending = s.ending
  laid : ∃ xs, s'.symbols = s.symbols ++ xs ∧ LaidOut s.used ds xs s'.used

namespace Course

variable {s s₁ s₂ : ParserState} {ts us : List Token} {ds es : List Decl}

theorem trans (h : Course s ts ds s₁) (h' : Course s₁ us es s₂) :
    Course s (ts ++ us) (ds ++ es) s₂ := by
  obtain ⟨located, hRest, rfl⟩ := h.read
  obtain ⟨located', hRest', rfl⟩ := h'.read
  obtain ⟨xs, hSymbols, hLaid⟩ := h.laid
  obtain ⟨ys, hSymbols', hLaid'⟩ := h'.laid
  refine ⟨⟨located ++ located', ?_, List.map_append⟩, h'.ending.trans h.ending,
    xs ++ ys, ?_, hLaid.append hLaid'⟩
  · rw [hRest, hRest', List.append_assoc]
  · rw [hSymbols', hSymbols, List.append_assoc]

theorem refl (s : ParserState) : Course s [] [] s :=
  ⟨⟨[], rfl, rfl⟩, rfl, [], (List.append_nil _).symm, .nil⟩

/-- Whatever neither reads nor declares does not matter. -/
theorem still (h : Course s ts ds s₁) (hRest : s₂.rest = s₁.rest) (hEnding : s₂.ending = s₁.ending)
    (hStill : Still s₁ s₂) : Course s ts ds s₂ := by
  obtain ⟨xs, hSymbols, hLaid⟩ := h.laid
  refine ⟨hRest ▸ h.read, hEnding.trans h.ending, xs, hStill.symbols.trans hSymbols, ?_⟩
  rw [hStill.used]
  exact hLaid

end Course

theorem Takes.course {s s' : ParserState} {ts : List Token} (h : Takes s ts s') :
    Course s ts [] s' := by
  refine ⟨h.read, h.ending, [], ?_, ?_⟩
  · rw [h.still.symbols, List.append_nil]
  · rw [h.still.used]
    exact .nil

theorem symbols_declared (s : ParserState) (text : String) (type : Ty) :
    (s.declared text type).symbols = s.symbols ++ [⟨text, type, s.used⟩] := by
  simp [ParserState.symbols, ParserState.declared, Event.symbol?]

/-- A declaration that has been read, and can be made, is laid out: its symbol is the next one of
the `Course`. -/
theorem Takes.declares {s s' : ParserState} {d : Decl} {type : Ty} (h : Takes s d.tokens s')
    (hType : d.HasType type) (hFits : s'.used + type.width ≤ maxWidth) :
    Course s d.tokens [d] (s'.declared d.name type) := by
  have hUsed := h.still.used
  refine ⟨h.read, h.ending, [⟨d.name, type, s'.used⟩], ?_, ?_⟩
  · rw [symbols_declared, h.still.symbols]
  · rw [hUsed] at hFits ⊢
    show LaidOut s.used [d] _ (s'.used + type.width)
    rw [hUsed]
    exact .cons hType hFits .nil

/-- These tokens are a `Decl`, whose name stands here. -/
structure Decl.Stands (d : Decl) (own : List (Located Token)) (span : Span) : Prop where
  name : ∃ front back, own = front ++ ⟨.name d.name, span⟩ :: back ∧
    front.map (·.value) = .scalar d.base :: dimsTokens d.before ∧
    back.map (·.value) = dimsTokens d.after ++ [.mark .semicolon]

theorem Decl.Stands.tokens {d : Decl} {own : List (Located Token)} {span : Span}
    (h : d.Stands own span) : own.map (·.value) = d.tokens := by
  obtain ⟨front, back, rfl, hFront, hBack⟩ := h.name
  rw [List.map_append, List.map_cons, hFront, hBack]
  rfl

/-- Among tokens, what stands behind tokens of certain values is one token. -/
theorem token_unique {before before' after after' : List (Located Token)} {t t' : Located Token}
    (h : before ++ t :: after = before' ++ t' :: after')
    (hValues : before.map (·.value) = before'.map (·.value)) : t = t' := by
  have hLength : before.length = before'.length := by
    have hSame := congrArg List.length hValues
    rwa [List.length_map, List.length_map] at hSame
  exact (List.cons.inj (List.append_inj h hLength).2).1

/-- A declaration has one name. -/
theorem Decl.Stands.unique {d : Decl} {own : List (Located Token)} {span span' : Span}
    (h : d.Stands own span) (h' : d.Stands own span') : span = span' := by
  obtain ⟨front, back, hOwn, hFront, -⟩ := h.name
  obtain ⟨front', back', hOwn', hFront', -⟩ := h'.name
  cases token_unique (hOwn.symm.trans hOwn') (hFront.trans hFront'.symm)
  rfl

/-- Why a declaration cannot be made: no storage is left for it, or else its name is declared in the
block already. In this order `declare` finds out. -/
def refusal (used : Nat) (name : String) (type : Ty) : SemanticError :=
  if maxWidth < used + type.width then .tooLarge name else .redeclared name

/-- A `Decl` has been read up to its end and is refused at its name, for its `refusal`. -/
structure Refused (s : ParserState) (d : Decl) (type : Ty) (stop : Stop) (s' : ParserState) :
    Prop where
  read : ∃ own span, s.rest = own ++ s'.rest ∧ d.Stands own span ∧
    stop = .error ⟨.semantic (refusal s.used d.name type), span⟩
  hasType : d.HasType type
  still : Still s s'

theorem halts_declare (name : String) (type : Ty) (span : Span) (s : ParserState) :
    Yields (declare name type span) s
      (fun _ s' => s.used + type.width ≤ maxWidth ∧ s' = s.declared name type)
      (fun stop s' => s' = s ∧ stop = .error ⟨.semantic (refusal s.used name type), span⟩) := by
  rw [declare, yields_get]
  dsimp only
  by_cases hLarge : maxWidth < s.used + type.width
  · rw [if_pos hLarge, yields_failAt_bind, refusal, if_pos hLarge]
    exact ⟨rfl, rfl⟩
  · rw [if_neg hLarge, refusal, if_neg hLarge]
    -- storage is left, so that only the name can be refused
    unfold Scope.declare?
    dsimp only
    cases hFrame : s.scope.frame.lookup? name with
    | some x => exact ⟨rfl, rfl⟩
    | none => exact ⟨Nat.not_lt.mp hLarge, rfl⟩

/-- How a parser stops at a `Place`: it halts there (`Halt`), or it refuses a declaration. -/
inductive StopsAt (s : ParserState) : Place → Stop → ParserState → Prop
  | halt {p : Place} {stop : Stop} {s' : ParserState} (h : Halt s p.Begins stop s') :
      StopsAt s p stop s'
  | refused {d : Decl} {type : Ty} {stop : Stop} {s' : ParserState}
      (h : Refused s d type stop s') : StopsAt s .decl stop s'

/-- The last steps of a declaration: behind its name and all dimensions it is ended, and then it is
made, unless it is `Refused`. -/
theorem halts_ending {s s₁ s₂ s₃ : ParserState} {d : Decl} {span : Span} {type : Ty}
    (hFront : Takes s (.scalar d.base :: dimsTokens d.before) s₁)
    (hRest : s₁.rest = ⟨.name d.name, span⟩ :: s₂.rest) (hName : Takes s₁ [.name d.name] s₂)
    (hAfter : Takes s₂ (dimsTokens d.after) s₃) (hType : d.HasType type) :
    Yields (do let _ ← expectMark .semicolon; declare d.name type span) s₃
      (fun _ s' => Course s d.tokens [d] s') (StopsAt s .decl) := by
  have hAll : Takes s (.scalar d.base :: (dimsTokens d.before ++ .name d.name ::
      dimsTokens d.after)) s₃ := by
    have h := hFront.trans (hName.trans hAfter)
    rwa [List.cons_append, List.singleton_append] at h
  refine Yields.bind (halts_expect _ s₃) (fun _ _ hHalt => .halt (hHalt.here hAll (.unended d)))
    fun _ s₄ hEnd => ?_
  have hDecl : Takes s d.tokens s₄ := by
    have h := hAll.trans hEnd
    rwa [List.cons_append, List.append_assoc, List.cons_append] at h
  refine Yields.mono (halts_declare d.name type span s₄) ?_ ?_
  · rintro - s₅ ⟨hFits, rfl⟩
    exact hDecl.declares hType hFits
  · rintro stop s₅ ⟨rfl, hStop⟩
    refine .refused ⟨?_, hType, hDecl.still⟩
    -- the name is one of the tokens that have been read
    obtain ⟨front, hBefore, hFrontTokens⟩ := hFront.read
    obtain ⟨back, hBack, hBackTokens⟩ := (hAfter.trans hEnd).read
    refine ⟨front ++ ⟨.name d.name, span⟩ :: back, span, ?_,
      ⟨front, back, rfl, hFrontTokens, hBackTokens⟩, ?_⟩
    · rw [hBefore, hRest, hBack, List.append_assoc, List.cons_append]
    · rw [hStop, hDecl.still.used]

theorem halts_decl (fuel : Nat) (s : ParserState) :
    Yields (decl fuel) s (fun _ s' => ∃ d : Decl, Course s d.tokens [d] s') (StopsAt s .decl) := by
  rw [decl]
  refine Yields.bind (halts_type fuel s) (fun _ _ hHalt => .halt hHalt) ?_
  rintro outer s₁ ⟨before, hType, hLengths⟩
  refine Yields.bind (halts_name s₁)
    (fun _ _ hHalt => .halt (hHalt.here hType (.type _ (.whole _)))) fun found s₂ hFound => ?_
  obtain ⟨hRest, hName⟩ := hFound
  have hNamed := hType.trans hName
  have hUnended : Decl.Begins ((.scalar outer.base :: dimsTokens before) ++ [.name found.value]) :=
    .unended ⟨outer.base, before, found.value, [], .inr rfl⟩
  refine Yields.bind (halts_atMark _ s₂) (fun _ _ hHalt => .halt (hHalt.here hNamed hUnended)) ?_
  rintro b s₃ ⟨rfl, hHead⟩
  dsimp only
  split
  · next hBoth =>
    -- the second bracket stays where it is
    rw [Bool.and_eq_true] at hBoth
    obtain ⟨located, hBefore, hTokens⟩ := hType.read
    rw [hRest] at hBefore
    refine .halt (.repeated hBefore (hHead.mp hBoth.1) ?_ hNamed.still)
    rw [hTokens]
    exact hUnended
  · next hSide =>
    -- dimensions on both sides have been excluded
    have hScalar (hSquare : s₃.tokens.head? = some (.mark .openSquare)) : before = [] := by
      rw [hHead.mpr hSquare, Bool.true_and] at hSide
      exact no_lengths hLengths (Bool.eq_false_iff.mpr hSide)
    refine Yields.bind (halts_optionalDims fuel outer s₃) (fun _ _ hHalt => .halt ?_) ?_
    · refine hHalt.after hNamed fun us h => ?_
      by_cases hSquare : s₃.tokens.head? = some (.mark .openSquare)
      · obtain rfl := hScalar hSquare
        exact .side _ _ h.1
      · obtain rfl := h.2 hSquare
        rwa [List.append_nil]
    rintro t s₄ ⟨after, hAfter, hBase, hMore⟩
    -- whichever side has brackets, the other one has none
    have hOneSided : before = [] ∨ after = [] := by
      by_cases hSquare : s₃.tokens.head? = some (.mark .openSquare)
      · exact .inl (hScalar hSquare)
      · exact .inr (hAfter.no_dims hSquare)
    let d : Decl := ⟨outer.base, before, found.value, after, hOneSided⟩
    have hHasType : d.HasType t := .of_sides hBase (hLengths ▸ hMore)
    have hEnding := halts_ending (d := d) hType hRest hName hAfter hHasType
    exact hEnding.mono (fun _ _ h => ⟨d, h⟩) fun _ _ h => h

/-- **Where declarations halt.** Declarations in a row are read until there are no more, or up to
one at which the parser stops (`StopsAt`). -/
theorem halts_decls (fuel : Nat) (s : ParserState) :
    Yields (decls fuel) s (fun _ s' => ∃ ds : List Decl, Course s (ds.flatMap Decl.tokens) ds s')
      (fun stop s' => ∃ ds s₁, Course s (ds.flatMap Decl.tokens) ds s₁ ∧
        StopsAt s₁ .decl stop s') := by
  induction fuel generalizing s with
  | zero => exact ⟨[], s, .refl s, .halt (.exhausted s)⟩
  | succ fuel ih =>
    rw [decls]
    refine Yields.bind (halts_peek s)
      (fun _ _ hHalt => ⟨[], s, .refl s, .halt (hHalt.here (.refl s) .nil)⟩) ?_
    rintro t s₁ ⟨rfl, -⟩
    split
    · refine Yields.bind (halts_decl fuel s₁) (fun _ _ hStops => ⟨[], s₁, .refl s₁, hStops⟩) ?_
      rintro - s₂ ⟨d, hDecl⟩
      refine (ih s₂).mono ?_ ?_
      · rintro - s₃ ⟨ds, hDecls⟩
        exact ⟨d :: ds, hDecl.trans hDecls⟩
      · rintro stop s₃ ⟨ds, s', hDecls, hStops⟩
        exact ⟨d :: ds, s', hDecl.trans hDecls, hStops⟩
    · exact ⟨[], .refl s₁⟩

end JumpCode
