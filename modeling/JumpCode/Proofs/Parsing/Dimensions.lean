import JumpCode.Proofs.Parsing.DeclHalting
import JumpCode.Proofs.Parsing.Language

/-!
# JumpCode — which dimension is refused

Dimensions are read from the left and laid over the type from the right. So where they come to more
than can be addressed, the parser is behind all of them when it refuses one, and it goes back to the
literal of this one: the first from the right with which the storage is too much, over the type that
all dimensions behind it have given.

* `Oversized` — the parser stops at the literal of such a dimension;
* `blames_dims` — dimensions in a row, by induction on them;
* `Decl.Oversized`, `blames_decl` — the dimensions of a declaration, on either side of the name;
* `readTokens_oversized` — programs that begin with a declaration without a type.
-/

namespace JumpCode

open JumpCode.Parser

/-! ## Tokens that are there, with their places -/

section Runs

variable {α : Type} {s s' : ParserState} {t : Token} {ts : List Token}
  {onOk onOk' : α → ParserState → Prop} {onStop onStop' : Stop → ParserState → Prop}

/-- What is known of a run in two ways is known of it together: `Yields` of both conditions. -/
theorem Yields.and {p : Parser α} (h : Yields p s onOk onStop) (h' : Yields p s onOk' onStop') :
    Yields p s (fun a s' => onOk a s' ∧ onOk' a s')
      (fun stop s' => onStop stop s' ∧ onStop' stop s') := by
  unfold Yields at *
  split at h
  · next hRun =>
    rw [hRun] at h'
    exact ⟨h, h'⟩
  · next hRun =>
    rw [hRun] at h'
    exact ⟨h, h'⟩

theorem Takes.skips (h : Takes s ts s') : Skips s ts s' := ⟨h.tokens, h.frame⟩

theorem Faces.takeNext {f : Located Token → Parser α} (h : Faces s (t :: ts))
    (hNext : ∀ span s', s.rest = ⟨t, span⟩ :: s'.rest → Takes s [t] s' → Faces s' ts →
      Yields (f ⟨t, span⟩) s' onOk onStop) : Yields (Parser.next >>= f) s onOk onStop := by
  refine ((yields_next s).and (halts_next s)).bind (fun _ _ hStop => ?_) fun found s' hFound => ?_
  · have hEmpty := h.tokens.symm.trans hStop.1.2
    cases hEmpty
  · obtain ⟨-, hRest, -, hTakes⟩ := hFound
    obtain ⟨token, span⟩ := found
    have hTokens := hTakes.tokens.symm.trans h.tokens
    obtain rfl : token = t := (List.cons.inj hTokens).1
    exact hNext span s' hRest hTakes (h.skip hTakes.skips)

theorem Faces.takeExpect {f : Span → Parser α} (h : Faces s (t :: ts))
    (hNext : ∀ span s', Takes s [t] s' → Faces s' ts → Yields (f span) s' onOk onStop) :
    Yields (Parser.expect t >>= f) s onOk onStop := by
  refine ((yields_expect t s).and (halts_expect t s)).bind (fun _ _ hStop => ?_)
    fun span s' hFound => ?_
  · exact absurd (congrArg List.head? h.tokens) hStop.1.2
  · exact hNext span s' hFound.2 (h.skip hFound.1)

theorem Faces.takeName {text : String} {f : Located String → Parser α}
    (h : Faces s (.name text :: ts))
    (hNext : ∀ span s', Takes s [.name text] s' → Faces s' ts →
      Yields (f ⟨text, span⟩) s' onOk onStop) : Yields (Parser.name >>= f) s onOk onStop := by
  rw [name_bind]
  exact h.takeNext fun span s' _ => hNext span s'

end Runs

/-! ## The dimension to blame -/

/-- Among these tokens, behind some others, stand dimensions over a type, and the parser stops at
the literal of one of them: the dimensions behind it give a type, but an array of such elements
cannot be addressed (`Ty.array?`). -/
inductive Oversized (tokens : List (Located Token)) (front : List Token) (of : Ty) (ns : List Int) :
    Stop → Prop
  | literal (outer : List Int) {inner : List Int} {n : Int} {element : Ty}
      {before after : List (Located Token)} {span : Span} (hDims : ns = outer ++ n :: inner)
      (hInner : element.Covers of inner) (hArray : Ty.array? (lengthOf n) element = none)
      (hTokens : tokens = before ++ ⟨.intLiteral n, span⟩ :: after)
      (hBefore : before.map (·.value) = front ++ (dimsTokens outer ++ [.mark .openSquare])) :
      Oversized tokens front of ns
        (.error ⟨.semantic (.arrayTooLarge (lengthOf n) element), span⟩)

section Blame

variable {s s₁ : ParserState} {ts front rest : List Token} {of : Ty} {ns : List Int} {stop : Stop}

/-- Tokens that have been read stand in front of those to come. -/
theorem Takes.oversized (hTakes : Takes s ts s₁) (h : Oversized s₁.rest front of ns stop) :
    Oversized s.rest (ts ++ front) of ns stop := by
  obtain ⟨located, hRest, rfl⟩ := hTakes.read
  cases h with
  | literal outer hDims hInner hArray hTokens hBefore =>
    rw [hTokens, ← List.append_assoc] at hRest
    refine .literal outer hDims hInner hArray hRest ?_
    rw [List.map_append, hBefore, List.append_assoc]

/-- The dimension to blame may stand behind another one, which is then part of what is in front. -/
theorem Oversized.cons {n : Int} (h : Oversized s.rest (bracketed [.intLiteral n]) of ns stop) :
    Oversized s.rest [] of (n :: ns) stop := by
  cases h with
  | literal outer hDims hInner hArray hTokens hBefore =>
    refine .literal (n :: outer) (congrArg (n :: ·) hDims) hInner hArray hTokens ?_
    rw [hBefore, List.nil_append, dimsTokens, dimsTokens, List.flatMap_cons, List.append_assoc]

/-- What reads dimensions where there are some reads them where there need not be any. -/
theorem blames_optionalDims_of {fuel : Nat}
    (hDims : ns ≠ [] → Yields (dims fuel of) s
      (fun t s' => Takes s (dimsTokens ns) s' ∧ t.Covers of ns)
      (fun stop _ => stop = .exhausted ∨ Oversized s.rest [] of ns stop))
    (hFaces : Faces s (dimsTokens ns ++ rest)) (hEnd : rest.head? ≠ some (.mark .openSquare)) :
    Yields (optionalDims fuel of) s (fun t s' => Takes s (dimsTokens ns) s' ∧ t.Covers of ns)
      (fun stop _ => stop = .exhausted ∨ Oversized s.rest [] of ns stop) := by
  refine hFaces.optionalDims hEnd ?_ hDims
  rintro rfl
  exact ⟨.refl s, of.covers_nil⟩

/-- **The dimension to blame.** Dimensions that are next give a type, or the parser stops at one of
them (`Oversized`). The induction is on the fuel: `dims` goes on to the dimensions behind before it
lays its own over them. -/
theorem blames_dims (fuel : Nat) (of : Ty) (hSome : ns ≠ [])
    (hFaces : Faces s (dimsTokens ns ++ rest)) (hEnd : rest.head? ≠ some (.mark .openSquare)) :
    Yields (dims fuel of) s (fun t s' => Takes s (dimsTokens ns) s' ∧ t.Covers of ns)
      (fun stop _ => stop = .exhausted ∨ Oversized s.rest [] of ns stop) := by
  induction ns generalizing fuel s with
  | nil => exact absurd rfl hSome
  | cons n ns ih =>
    cases fuel with
    | zero => exact .inl rfl
    | succ fuel =>
      have hTokens : Faces s (.mark .openSquare :: .intLiteral n :: .mark .closeSquare ::
          (dimsTokens ns ++ rest)) := hFaces
      rw [dims]
      refine hTokens.takeExpect fun _ s₁ hOpen hFaces₁ => ?_
      refine hFaces₁.takeNext fun span s₂ hLiteral hLength hFaces₂ => ?_
      refine hFaces₂.takeExpect fun _ s₃ hClose hFaces₃ => ?_
      have hFirst : Takes s (bracketed [.intLiteral n]) s₃ := hOpen.trans (hLength.trans hClose)
      dsimp only
      rw [optionalDims_bind]
      refine (blames_optionalDims_of (fun h => ih fuel h hFaces₃) hFaces₃ hEnd).bind ?_ ?_
      · -- one of the inner dimensions is refused, and the parser does not come to this one
        rintro stop - (hExhausted | hInner)
        · exact .inl hExhausted
        · refine .inr (Oversized.cons ?_)
          rw [← List.append_nil (bracketed [.intLiteral n])]
          exact hFirst.oversized hInner
      rintro element s₄ ⟨hMore, hElement⟩
      split
      · next t hArray =>
        exact ⟨hFirst.trans hMore, Ty.covers_cons_iff.mpr ⟨element, hElement, hArray⟩⟩
      · next hArray =>
        -- all inner dimensions are fine, so that the literal that was read first is to blame
        rw [yields_failAt]
        obtain ⟨before, hBefore, hOpened⟩ := hOpen.read
        exact .inr (.literal [] rfl hElement hArray (hLiteral ▸ hBefore) hOpened)

theorem blames_optionalDims (fuel : Nat) (of : Ty) (hFaces : Faces s (dimsTokens ns ++ rest))
    (hEnd : rest.head? ≠ some (.mark .openSquare)) :
    Yields (optionalDims fuel of) s (fun t s' => Takes s (dimsTokens ns) s' ∧ t.Covers of ns)
      (fun stop _ => stop = .exhausted ∨ Oversized s.rest [] of ns stop) :=
  blames_optionalDims_of (fun hSome => blames_dims fuel of hSome hFaces hEnd) hFaces hEnd

end Blame

/-! ## Declarations -/

/-- The parser refuses a `Decl` behind some tokens for one of its dimensions, on the side of the
name where they stand. -/
def Decl.Oversized (d : Decl) (tokens : List (Located Token)) (front : List Token) (stop : Stop) :
    Prop :=
  JumpCode.Oversized tokens (front ++ [.scalar d.base]) (.scalar d.base) d.before stop ∨
    JumpCode.Oversized tokens (front ++ [.scalar d.base, .name d.name]) (.scalar d.base) d.after
      stop

section Decls

variable {s : ParserState} {rest : List Token} {d : Decl}

/-- **A declaration without a type** is refused for one of its dimensions (`Decl.Oversized`). -/
theorem blames_decl (fuel : Nat) (hNone : ¬ ∃ type, d.HasType type)
    (hFaces : Faces s (d.tokens ++ rest)) :
    Yields (decl fuel) s (fun _ _ => False)
      (fun stop _ => stop = .exhausted ∨ d.Oversized s.rest [] stop) := by
  have hTokens : Faces s (.scalar d.base :: (dimsTokens d.before ++ .name d.name ::
      (dimsTokens d.after ++ .mark .semicolon :: rest))) := by
    simpa [Decl.tokens] using hFaces
  rw [decl, type, bind_assoc]
  refine hTokens.takeNext fun _ s₁ _ hScalar hFaces₁ => ?_
  refine (blames_optionalDims fuel (.scalar d.base) hFaces₁ (by simp)).bind ?_ ?_
  · rintro stop - (hExhausted | hBefore)
    · exact .inl hExhausted
    · exact .inr (.inl (hScalar.oversized hBefore))
  rintro outer s₂ ⟨hBefore, hOuter⟩
  refine (hFaces₁.skip hBefore.skips).takeName fun span s₃ hName hFaces₃ => ?_
  refine hFaces₃.atMark ?_
  -- since the type that comes before the name is one, the dimensions stand behind the name
  have hSide : d.before = [] := by
    rcases d.oneSided with hSide | hSide
    · exact hSide
    · exact absurd ⟨outer, Decl.hasType_iff.mpr ⟨outer, hOuter, hSide ▸ outer.covers_nil⟩⟩ hNone
  rw [hSide] at hBefore hOuter
  obtain rfl := hOuter.eq_of_nil
  have hScalarType : (Ty.scalar d.base).isArray = false := rfl
  dsimp only
  rw [hScalarType, Bool.and_false, if_neg Bool.false_ne_true]
  refine (blames_optionalDims fuel (.scalar d.base) hFaces₃ (by simp)).bind ?_ ?_
  · rintro stop - (hExhausted | hAfter)
    · exact .inl hExhausted
    · exact .inr (.inr ((hScalar.trans (hBefore.trans hName)).oversized hAfter))
  · rintro type s₄ ⟨-, hType⟩
    have hDecl : d.HasType type :=
      Decl.hasType_iff.mpr ⟨.scalar d.base, hSide ▸ Ty.covers_nil _, hType⟩
    exact absurd ⟨type, hDecl⟩ hNone

/-- Declarations in a row are read up to the first one without a type. -/
theorem blames_decls (fuel : Nat) (hNone : ¬ ∃ type, d.HasType type)
    (hFaces : Faces s (d.tokens ++ rest)) :
    Yields (decls fuel) s (fun _ _ => False)
      (fun stop _ => stop = .exhausted ∨ d.Oversized s.rest [] stop) := by
  cases fuel with
  | zero => exact .inl rfl
  | succ fuel =>
    rw [decls]
    refine hFaces.peek ?_
    -- a scalar is next, so that a declaration is read
    show Yields (decl fuel >>= fun _ => decls fuel) s _ _
    exact (blames_decl fuel hNone hFaces).bind (fun _ _ h => h) fun _ _ hFalse => hFalse.elim

end Decls

/-! ## Programs -/

section Programs

variable {tokens : List (Located Token)} {rest : List Token} {d : Decl}

theorem Decl.Oversized.after {s s₁ : ParserState} {ts front : List Token} {stop : Stop}
    (h : d.Oversized s₁.rest front stop) (hTakes : Takes s ts s₁) :
    d.Oversized s.rest (ts ++ front) stop := by
  unfold Decl.Oversized
  rw [List.append_assoc, List.append_assoc]
  exact h.imp hTakes.oversized hTakes.oversized

theorem program_blames (fuel : Nat) (hNone : ¬ ∃ type, d.HasType type)
    (hTokens : tokens.map (·.value) = .mark .openCurly :: (d.tokens ++ rest)) :
    Yields (program fuel) (.initial tokens none) (fun _ _ => False)
      (fun stop _ => stop = .exhausted ∨ d.Oversized tokens [.mark .openCurly] stop) := by
  have hFaces : Faces (.initial tokens none) (.mark .openCurly :: (d.tokens ++ rest)) :=
    ⟨hTokens, rfl⟩
  have hBlock : Yields (block fuel) (.initial tokens none) (fun _ _ => False)
      (fun stop _ => stop = .exhausted ∨ d.Oversized tokens [.mark .openCurly] stop) := by
    cases fuel with
    | zero => exact .inl rfl
    | succ fuel =>
      rw [block]
      refine hFaces.takeExpect fun _ s₁ hOpen hFaces₁ => ?_
      -- opening the scope leaves the tokens as they are
      have hEntered : Faces (enterScope s₁) (d.tokens ++ rest) := ⟨hFaces₁.tokens, hFaces₁.ending⟩
      have hScope : Yields (inScope do decls fuel; stmts fuel) s₁ (fun _ _ => False)
          (fun stop _ => stop = .exhausted ∨ d.Oversized s₁.rest [] stop) :=
        yields_inScope.mpr ((blames_decls fuel hNone hEntered).bind (fun _ _ h => h)
          fun _ _ hFalse => hFalse.elim)
      refine hScope.bind ?_ fun _ _ hFalse => hFalse.elim
      exact fun stop _ hStop => hStop.imp_right fun hOver => hOver.after hOpen
  -- behind the block nothing is done any more
  rw [program]
  exact hBlock.bind (fun _ _ h => h) fun _ _ hFalse => hFalse.elim

/-- **A program that begins with a declaration without a type** is refused for one of its
dimensions. -/
theorem readTokens_oversized (hNone : ¬ ∃ type, d.HasType type)
    (hTokens : tokens.map (·.value) = .mark .openCurly :: (d.tokens ++ rest)) :
    ∃ stop, (readTokens tokens none).outcome = .error stop ∧
      d.Oversized tokens [.mark .openCurly] stop := by
  rcases outcome_of_yields (program_blames _ hNone hTokens) with
    ⟨_, -, hFalse⟩ | ⟨stop, hError, hExhausted | hOver⟩
  · exact hFalse.elim
  · cases hExhausted
    exact absurd hError (readTokens_ne_exhausted tokens none)
  · exact ⟨stop, hError, hOver⟩

end Programs

end JumpCode
