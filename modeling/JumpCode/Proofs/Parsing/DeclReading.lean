import JumpCode.Proofs.Parsing.ExprReading

/-!
# JumpCode — what is read as declarations

Whatever is read as declarations has a derivation, and the declarations obey the rules: they lead
from the scope and storage before them to those behind.

* `yields_dims`, `yields_type` — the type of a declaration;
* `yields_declare` — exactly when a name is declared, and what this changes;
* `yields_decls` — declarations in a row.
-/

namespace JumpCode

open JumpCode.Parser

/-! ## What may change -/

/-- From one state to the other these tokens have been read, and the loops that were open are open
again. Scopes and storage may have changed. -/
structure Moves (s : ParserState) (ts : List Token) (s' : ParserState) : Prop where
  tokens : s.tokens = ts ++ s'.tokens
  ending : s'.ending = s.ending
  loops : s'.loops = s.loops

/-- The storage taken and the loops met so far, as a `Tally`. -/
def ParserState.tally (s : ParserState) : Tally := ⟨s.used, s.met⟩

theorem Skips.tally {s s' : ParserState} {ts : List Token} (h : Skips s ts s') :
    s'.tally = s.tally := by
  rw [ParserState.tally, h.used, h.met, ParserState.tally]

theorem Skips.moves {s s' : ParserState} {ts : List Token} (h : Skips s ts s') :
    Moves s ts s' := ⟨h.tokens, h.ending, h.loops⟩

namespace Moves

variable {s s₁ s₂ : ParserState} {ts us : List Token}

theorem refl (s : ParserState) : Moves s [] s := ⟨rfl, rfl, rfl⟩

theorem trans (h : Moves s ts s₁) (h' : Moves s₁ us s₂) : Moves s (ts ++ us) s₂ := by
  refine ⟨?_, h'.ending.trans h.ending, h'.loops.trans h.loops⟩
  rw [h.tokens, h'.tokens, List.append_assoc]

theorem length (h : Moves s ts s₁) : s.rest.length = ts.length + s₁.rest.length := by
  have hTokens := congrArg List.length h.tokens
  rw [List.length_append] at hTokens
  rwa [s.length_tokens, s₁.length_tokens] at hTokens

end Moves

theorem Faces.moves {s s' : ParserState} {ts rest : List Token} (h : Faces s (ts ++ rest))
    (hMoves : Moves s ts s') : Faces s' rest := by
  refine ⟨?_, hMoves.ending.trans h.ending⟩
  have hTokens := hMoves.tokens
  rw [h.tokens] at hTokens
  exact (List.append_cancel_left hTokens).symm

/-! ## Declarations -/

theorem array_lengths {length : Nat} {of t : Ty} (h : Ty.array? length of = some t) :
    t.base = of.base ∧ t.lengths = length :: of.lengths := by
  unfold Ty.array? at h
  split at h
  · cases h; exact ⟨rfl, rfl⟩
  · cases h

/-- A `Ty` is another one under dimensions of these lengths, the outermost first. -/
structure Ty.Covers (t of : Ty) (ns : List Int) : Prop where
  base : t.base = of.base
  lengths : t.lengths = ns.map lengthOf ++ of.lengths

/-- Dimensions over a type have been read, and the type under them `Covers` it. -/
def DimsOver (of : Ty) (s : ParserState) (t : Ty) (s' : ParserState) : Prop :=
  ∃ ns, Skips s (dimsTokens ns) s' ∧ t.Covers of ns

/-- Dimensions are read if there is a bracket, and otherwise there are none. -/
theorem yields_optionalDims_of {fuel : Nat} {of : Ty} {s : ParserState}
    (hDims : Yields (dims fuel of) s (DimsOver of s) (Short 1 fuel s)) :
    Yields (optionalDims fuel of) s
      (fun t s' => DimsOver of s t s' ∧
        (s.tokens.head? ≠ some (.mark .openSquare) → t.lengths = of.lengths))
      (Short 1 fuel s) := by
  rw [optionalDims]
  refine (yields_atMark _ s).bind (fun _ _ h => short_of_ne h.1) ?_
  rintro b s₁ ⟨rfl, hHead⟩
  split
  · next hMark =>
    refine hDims.mono ?_ (fun _ _ h => h)
    intro t s' h
    exact ⟨h, fun hNot => absurd (hHead.mp hMark) hNot⟩
  · exact ⟨⟨[], Skips.refl s₁, rfl, rfl⟩, fun _ => rfl⟩

theorem optionalDims_bind {α : Type} (fuel : Nat) (of : Ty) (f : Ty → Parser α) :
    (do if ← atMark .openSquare then dims fuel of >>= f else pure of >>= f) =
      optionalDims fuel of >>= f := by
  rw [optionalDims, bind_assoc]
  congr
  funext b
  split <;> rfl

theorem yields_dims (fuel : Nat) (of : Ty) (s : ParserState) :
    Yields (dims fuel of) s (DimsOver of s) (Short 1 fuel s) := by
  induction fuel generalizing s with
  | zero => exact short_zero s Nat.one_pos
  | succ fuel ih =>
    rw [dims]
    refine (yields_expect _ s).bind (fun _ _ h => short_of_ne h.1) fun _ s₁ hOpen => ?_
    refine (yields_next s₁).bind (fun _ _ h => short_of_ne h.1) fun found s₂ hFound => ?_
    split
    · next n hToken =>
      rw [hToken] at hFound
      refine (yields_expect _ s₂).bind (fun _ _ h => short_of_ne h.1) fun _ s₃ hClose => ?_
      have hFirst : Skips s (bracketed [.intLiteral n]) s₃ := hOpen.trans (hFound.trans hClose)
      have hLength := hFirst.length
      rw [length_bracketed] at hLength
      -- the types come from the inside out: the first length belongs to the outermost array
      dsimp only
      rw [optionalDims_bind]
      refine (yields_optionalDims_of (ih s₃)).bind (Short.caller (by omega)) ?_
      rintro element s₄ ⟨⟨ns, hMore, hBase, hLengths⟩, -⟩
      split
      · next t hArray =>
        obtain ⟨hArrayBase, hArrayLengths⟩ := array_lengths hArray
        refine ⟨n :: ns, hFirst.trans hMore, hArrayBase.trans hBase, ?_⟩
        rw [hArrayLengths, hLengths]
        rfl
      · rw [yields_failAt]
        exact short_of_ne Stop.noConfusion
    · rw [yields_fail]
      exact short_of_ne Stop.noConfusion

theorem yields_optionalDims (fuel : Nat) (of : Ty) (s : ParserState) :
    Yields (optionalDims fuel of) s
      (fun t s' => DimsOver of s t s' ∧
        (s.tokens.head? ≠ some (.mark .openSquare) → t.lengths = of.lengths))
      (Short 1 fuel s) :=
  yields_optionalDims_of (yields_dims fuel of s)

theorem yields_type (fuel : Nat) (s : ParserState) :
    Yields (type fuel) s
      (fun t s' => ∃ ns, Skips s (.scalar t.base :: dimsTokens ns) s' ∧
        t.lengths = ns.map lengthOf)
      (Short 1 fuel s) := by
  rw [type]
  refine (yields_next s).bind (fun _ _ h => short_of_ne h.1) fun found s₁ hFound => ?_
  split
  · next b hToken =>
    rw [hToken] at hFound
    have hLength := hFound.length
    refine (yields_optionalDims fuel (.scalar b) s₁).mono ?_ (Short.caller (by omega))
    rintro t s₂ ⟨⟨ns, hDims, hBase, hLengths⟩, -⟩
    refine ⟨ns, ?_, hLengths.trans (List.append_nil _)⟩
    rw [hBase]
    exact hFound.trans hDims
  · rw [yields_fail]
    exact short_of_ne Stop.noConfusion

/-- The state with a name declared behind all storage that is taken so far: its `Symbol` is in the
innermost frame. -/
def ParserState.declared (s : ParserState) (name : String) (type : Ty) : ParserState :=
  { s with
    scope := { s.scope with frame := ⟨name, type, s.used⟩ :: s.scope.frame }
    used := s.used + type.width
    log := .declared ⟨name, type, s.used⟩ :: s.log }

theorem yields_declare (name : String) (type : Ty) (span : Span) (s : ParserState) :
    Yields (declare name type span) s
      (fun _ s' => s.used + type.width ≤ maxWidth ∧ s.scope.frame.lookup? name = none ∧
        s' = s.declared name type)
      (fun stop _ => stop.IsSemantic ∧
        ¬(s.used + type.width ≤ maxWidth ∧ s.scope.frame.lookup? name = none)) := by
  rw [declare, yields_get]
  dsimp only
  split
  · next hLarge =>
    rw [yields_failAt_bind]
    exact ⟨⟨_, _, rfl⟩, fun h => absurd h.1 (Nat.not_le.mpr hLarge)⟩
  · next hFits =>
    -- storage is checked first, so that here only the name can be refused
    unfold Scope.declare?
    dsimp only
    cases hFrame : s.scope.frame.lookup? name with
    | some x =>
      rw [yields_failAt]
      exact ⟨⟨_, _, rfl⟩, fun h => by cases h.2⟩
    | none => exact ⟨Nat.not_lt.mp hFits, rfl, rfl⟩

/-- Declarations have been read, and they lead from the scope and storage of the one state to those
of the other (`Declares`). -/
structure DeclaresOn (s : ParserState) (ds : List Decl) (s' : ParserState) : Prop where
  moves : Moves s (ds.flatMap Decl.tokens) s'
  met : s'.met = s.met
  declares : Declares s.scope s.used ds s'.scope s'.used

/-- A declaration has been read up to its end, and its name has been declared. -/
theorem DeclaresOn.single {s s' : ParserState} {d : Decl} {t : Ty} (hSkips : Skips s d.tokens s')
    (hType : d.HasType t) (hFits : s'.used + t.width ≤ maxWidth)
    (hNew : s'.scope.frame.lookup? d.name = none) : DeclaresOn s [d] (s'.declared d.name t) where
  moves := by
    rw [List.flatMap_singleton]
    exact ⟨hSkips.tokens, hSkips.ending, hSkips.loops⟩
  met := hSkips.met
  declares := by
    -- reading the declaration has not touched scope and storage
    rw [hSkips.used] at hFits
    rw [hSkips.scope] at hNew
    dsimp only [ParserState.declared]
    rw [hSkips.used, hSkips.scope]
    exact .cons hType hFits hNew .nil

/-- A type that is no array has no lengths, wherever they come from. -/
theorem no_lengths {t : Ty} {ns : List Int} (hLengths : t.lengths = ns.map lengthOf)
    (hScalar : t.isArray = false) : ns = [] := by
  rwa [Ty.isArray, hLengths, Bool.not_eq_false', List.isEmpty_iff, List.map_eq_nil_iff] at hScalar

/-- The dimensions behind the name are put around those in front of it, which makes no difference:
on one side there are none. -/
theorem Decl.HasType.of_sides {d : Decl} {t : Ty} (hBase : t.base = d.base)
    (hLengths : t.lengths = d.after.map lengthOf ++ d.before.map lengthOf) :
    d.HasType t := by
  refine ⟨hBase, hLengths.trans ?_⟩
  rw [← List.map_append]
  rcases d.oneSided with hNil | hNil
  · rw [hNil, List.append_nil, List.nil_append]
  · rw [hNil, List.append_nil, List.nil_append]

theorem yields_decl (fuel : Nat) (s : ParserState) :
    Yields (decl fuel) s (fun _ s' => ∃ d, DeclaresOn s [d] s') (Short 1 fuel s) := by
  rw [decl]
  refine (yields_type fuel s).bind (fun _ _ h => h) ?_
  rintro outer s₁ ⟨before, hType, hLengths⟩
  have hLength := hType.length
  refine (yields_name s₁).bind (fun _ _ h => short_of_ne h.1) fun found s₂ hName => ?_
  refine (yields_atMark _ s₂).bind (fun _ _ h => short_of_ne h.1) ?_
  rintro b s₃ ⟨rfl, hHead⟩
  dsimp only
  split
  · rw [yields_failAt_bind]
    exact short_of_ne Stop.noConfusion
  · next hSide =>
    have hNameLength := hName.length
    refine (yields_optionalDims fuel outer s₃).bind (Short.caller (by omega)) ?_
    rintro t s₄ ⟨⟨after, hAfter, hBase, hMore⟩, hNone⟩
    refine (yields_expect _ s₄).bind (fun _ _ h => short_of_ne h.1) fun _ s₅ hEnd => ?_
    refine (yields_declare found.value t found.span s₅).mono ?_
      (fun _ _ h => short_of_ne h.1.ne_exhausted)
    rintro - s₆ ⟨hFits, hNew, rfl⟩
    -- dimensions follow the name only if none stand before it
    have hOneSided : before = [] ∨ after = [] := by
      by_cases hSquare : s₃.tokens.head? = some (.mark .openSquare)
      · left
        have hScalar : outer.isArray = false := by
          rw [hHead.mpr hSquare, Bool.true_and] at hSide
          exact Bool.eq_false_iff.mpr hSide
        exact no_lengths hLengths hScalar
      · right
        have hSame := hMore.symm.trans (hNone hSquare)
        rwa [List.append_left_eq_self, List.map_eq_nil_iff] at hSame
    let d : Decl := ⟨outer.base, before, found.value, after, hOneSided⟩
    have hSkips : Skips s d.tokens s₅ := by
      have h := hType.trans (hName.trans (hAfter.trans hEnd))
      rw [List.cons_append] at h
      exact h
    have hHasType : d.HasType t := .of_sides hBase (hLengths ▸ hMore)
    exact ⟨d, .single hSkips hHasType hFits hNew⟩

theorem Declares.append {Γ Γ₁ Γ₂ : Scope} {u u₁ u₂ : Nat} {ds es : List Decl}
    (h : Declares Γ u ds Γ₁ u₁) (h' : Declares Γ₁ u₁ es Γ₂ u₂) :
    Declares Γ u (ds ++ es) Γ₂ u₂ := by
  induction h with
  | nil => exact h'
  | cons hType hFits hNew _ ih => exact .cons hType hFits hNew (ih h')

/-- Declarations change the innermost `Frame` alone. -/
theorem Declares.outer {Γ Γ' : Scope} {u u' : Nat} {ds : List Decl} (h : Declares Γ u ds Γ' u') :
    Γ'.outer = Γ.outer := by
  induction h with
  | nil => rfl
  | cons _ _ _ _ ih => exact ih

theorem Declares.leave {Γ Γ' : Scope} {u u' : Nat} {ds : List Decl}
    (h : Declares Γ.enter u ds Γ' u') : Γ'.leave = Γ := by
  -- leaving drops the frame that the declarations have filled
  obtain ⟨frame, outer⟩ := Γ'
  obtain rfl : outer = Γ.frames := h.outer
  rfl

theorem DeclaresOn.cons {s s₁ s₂ : ParserState} {d : Decl} {ds : List Decl}
    (hFirst : DeclaresOn s [d] s₁) (hRest : DeclaresOn s₁ ds s₂) :
    DeclaresOn s (d :: ds) s₂ where
  moves := by
    have h := hFirst.moves.trans hRest.moves
    rwa [← List.flatMap_append] at h
  met := hRest.met.trans hFirst.met
  declares := hFirst.declares.append hRest.declares

theorem yields_decls (fuel : Nat) (s : ParserState) :
    Yields (decls fuel) s (fun _ s' => ∃ ds, DeclaresOn s ds s') (Short 2 fuel s) := by
  induction fuel generalizing s with
  | zero => exact short_zero s Nat.two_pos
  | succ fuel ih =>
    rw [decls]
    refine (yields_peek s).bind (fun _ _ h => short_of_ne h.1) ?_
    rintro t s₁ ⟨rfl, -⟩
    split
    · refine (yields_decl fuel s₁).bind (Short.caller (by omega)) ?_
      rintro - s₂ ⟨d, hDecl⟩
      have hLength := hDecl.moves.length
      -- a declaration is never empty: this is what pays for the next call
      have hTokens : 0 < ([d].flatMap Decl.tokens).length := by simp [Decl.tokens]
      refine (ih s₂).mono ?_ (Short.caller (by omega))
      rintro - s₃ ⟨ds, hDecls⟩
      exact ⟨d :: ds, hDecl.cons hDecls⟩
    · exact ⟨[], Moves.refl s₁, rfl, .nil⟩

end JumpCode
