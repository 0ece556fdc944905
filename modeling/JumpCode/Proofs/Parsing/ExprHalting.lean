import JumpCode.Proofs.Beginnings
import JumpCode.Proofs.Parsing.Halting

/-!
# JumpCode — where the parser halts in an expression

The functions for expressions read expressions; where they halt, an expression has begun. Both facts
follow the functions, so that they are proved together.

* `ExprHalts` — what each function reads, and what it halts in;
* `exprHalts` — all of them, by induction on the fuel.
-/

namespace JumpCode

open JumpCode.Parser

/-- A parser reads an expression of a `Rank`, or halts in one (`Halt`). -/
def HaltsIn {α : Type} (r : Rank) (p : Parser α) : Prop :=
  ∀ s, Yields p s (fun _ s' => ∃ x : Phrase r, Takes s x.tokens s') (Halt s (Phrase.Begins r))

/-- What the functions for expressions do from some fuel. Those that go on from what stands to the
left of them complete what has begun at the state `s₀`. There is one field for each function. -/
structure ExprHalts (fuel : Nat) : Prop where
  expr (l : Level) : HaltsIn l.rank (expr fuel l)
  operand (l : Level) : HaltsIn l.operandRank (operand fuel l)
  chain (l : Level) (s₀ s : ParserState) (x : Phrase l.leftRank) (a : Expr)
    (hTakes : Takes s₀ x.tokens s) :
    Yields (chain fuel l a) s (fun _ s' => ∃ y : Phrase l.rank, Takes s₀ y.tokens s')
      (Halt s₀ (Phrase.Begins l.rank))
  unary : HaltsIn .unary (unary fuel)
  factor : HaltsIn .factor (factor fuel)
  access (s₀ s : ParserState) (text : String) (x : Symbol) (span : Span)
    (hTakes : Takes s₀ [.name text] s) :
    Yields (access fuel x span) s (fun _ s' => ∃ y : Phrase .element, Takes s₀ y.tokens s')
      (Halt s₀ (Phrase.Begins .element))
  subscripts (s₀ s : ParserState) (y : Phrase .element) (x : Symbol) (span : Span) (index : Expr)
    (type : Ty) (hTakes : Takes s₀ y.tokens s) :
    Yields (subscripts fuel x span index type) s
      (fun _ s' => ∃ y : Phrase .element, Takes s₀ y.tokens s')
      (Halt s₀ (Phrase.Begins .element))
  subscript (s : ParserState) (x : Symbol) (span : Span) (outer : Ty) :
    Yields (subscript fuel x span outer) s
      (fun _ s' => ∃ i : Phrase .bool, Takes s (bracketed i.tokens) s') (Halt s BeginsBracketed)

/-- What begins an operand of a level begins an expression of the level. -/
theorem Phrase.Begins.ofOperand {l : Level} {ts : List Token} (h : Begins l.operandRank ts) :
    Begins l.rank ts := h.pass l.rank_passes

/-- What stands to the left of an operator begins an expression of the level. -/
theorem Phrase.Begins.ofLeft {l : Level} (x : Phrase l.leftRank) : Begins l.rank x.tokens := by
  obtain ⟨y, hTokens, -⟩ := x.exists_whole
  rw [← hTokens]
  exact .whole y

section Steps

variable {fuel : Nat}

theorem expr_halts (ih : ExprHalts fuel) (l : Level) : HaltsIn l.rank (expr (fuel + 1) l) := by
  intro s
  rw [expr]
  refine (Takes.refl s).bind (ih.operand l s) (fun _ h => h.ofOperand) ?_
  rintro a s₁ ⟨x, hTakes⟩
  obtain ⟨y, hTokens, -⟩ := x.exists_left
  rw [← hTokens] at hTakes
  exact ih.chain l s s₁ y a hTakes

theorem operand_halts (ih : ExprHalts fuel) (l : Level) :
    HaltsIn l.operandRank (operand (fuel + 1) l) := by
  rw [operand]
  split
  · next l' hTighter =>
    rw [Level.operandRank_of_tighter hTighter]
    exact ih.expr l'
  · next hTightest =>
    rw [Level.operandRank_of_tightest hTightest]
    exact ih.unary

theorem chain_halts (ih : ExprHalts fuel) (l : Level) (s₀ s : ParserState)
    (x : Phrase l.leftRank) (a : Expr) (hTakes : Takes s₀ x.tokens s) :
    Yields (chain (fuel + 1) l a) s (fun _ s' => ∃ y : Phrase l.rank, Takes s₀ y.tokens s')
      (Halt s₀ (Phrase.Begins l.rank)) := by
  have hLeft := Phrase.Begins.ofLeft x
  rw [chain]
  -- nothing more need come: what has been read is a left operand
  refine hTakes.step (halts_peek s) hLeft ?_
  rintro t s₁ ⟨rfl, rfl⟩
  split
  · obtain ⟨y, hTokens, -⟩ := x.exists_whole
    exact ⟨y, hTokens ▸ hTakes⟩
  · next op hOp =>
    obtain ⟨m, hHead, hOperator⟩ := Level.operatorOf_eq_some hOp
    have hJoins := Level.joins_of_operator hOperator
    refine hTakes.step (halts_next s₁) hLeft fun found s₂ hFound => ?_
    obtain ⟨-, -, hMark⟩ := hFound
    rw [hMark.head hHead] at hMark
    -- the operator is followed by an operand, and this may be followed by more
    refine (hTakes.trans hMark).bind (ih.operand l s₂) (fun us h => ?_) ?_
    · simpa using h.binary hJoins x
    rintro b s₃ ⟨y, hOperand⟩
    let joined : Phrase l.rank := .binary hJoins x y
    have hJoined : Takes s₀ joined.tokens s₃ := hTakes.trans (hMark.trans hOperand)
    refine hJoined.step (halts_check found.span s₃ fun _ => binary_not_declaring) (.whole joined) ?_
    rintro e _ rfl
    split
    · next hChains =>
      -- a level that chains takes what it has joined as its next left operand
      have hMore : ∃ z : Phrase l.leftRank, z.tokens = joined.tokens := by
        rw [Level.leftRank_of_chains hChains]
        exact ⟨joined, rfl⟩
      obtain ⟨z, hTokens⟩ := hMore
      exact ih.chain l s₀ _ z e (hTokens ▸ hJoined)
    · exact ⟨joined, hJoined⟩

theorem unary_halts (ih : ExprHalts fuel) : HaltsIn .unary (unary (fuel + 1)) := by
  intro s
  rw [unary]
  refine (Takes.refl s).step (halts_peek s) (.nil _) ?_
  rintro t s₁ ⟨rfl, rfl⟩
  split
  · next op hOp =>
    obtain ⟨m, hHead, hSign⟩ := signs_of_unaryOf hOp
    refine (Takes.refl s₁).step (halts_next s₁) (.nil _) fun found s₂ hFound => ?_
    obtain ⟨-, -, hMark⟩ := hFound
    rw [hMark.head hHead] at hMark
    refine hMark.bind (ih.unary s₂) (fun us h => h.unary hSign) ?_
    rintro a s₃ ⟨x, hOperand⟩
    have hTakes : Takes s₁ (Phrase.unary hSign x).tokens s₃ := hMark.trans hOperand
    -- the rules are asked behind the operand, at the place of the sign
    refine Yields.mono (halts_check found.span s₃ fun _ => unary_not_declaring) ?_
      fun _ _ hHalt => hHalt.here hTakes (.whole (.unary hSign x))
    rintro e _ rfl
    exact ⟨_, hTakes⟩
  · refine (Takes.refl s₁).last (ih.factor s₁) (fun us h => h.pass .unary) ?_
    rintro a s₂ ⟨x, hTakes⟩
    exact ⟨.pass .unary x, hTakes⟩

theorem factor_halts (ih : ExprHalts fuel) : HaltsIn .factor (factor (fuel + 1)) := by
  intro s
  rw [factor]
  refine (Takes.refl s).step (halts_next s) (.nil _) fun found s₁ hFound => ?_
  obtain ⟨hRest, hLast, hTakes⟩ := hFound
  split
  · next hToken =>
    rw [hToken] at hTakes
    refine hTakes.bind (ih.expr .disjunction s₁) (fun us h => h.paren) ?_
    rintro a s₂ ⟨x, hInside⟩
    have hBefore := hTakes.trans hInside
    -- the phrase inside is whole: only its parenthesis can be missing
    refine hBefore.step (halts_expect _ s₂) (Phrase.Begins.whole x).paren fun _ s₃ hClose => ?_
    exact ⟨.paren x, hTakes.trans (hInside.trans hClose)⟩
  · next value hToken =>
    rw [hToken] at hTakes
    exact ⟨.int value, hTakes⟩
  · next value hToken =>
    rw [hToken] at hTakes
    exact ⟨.real value, hTakes⟩
  · next hToken =>
    rw [hToken] at hTakes
    exact ⟨.truth true, hTakes⟩
  · next hToken =>
    rw [hToken] at hTakes
    exact ⟨.truth false, hTakes⟩
  · next text hToken =>
    rw [hToken] at hTakes
    have hName : Phrase.Begins .factor [.name text] := .whole (.name text)
    refine hTakes.step (halts_resolve text _ s₁) hName ?_
    rintro x _ rfl
    refine hTakes.step (halts_atMark _ _) hName ?_
    rintro b s₃ ⟨rfl, -⟩
    split
    · -- the element begins with the name that is behind us
      refine Yields.bind (ih.access s s₃ text x found.span hTakes)
        (fun _ _ hHalt => hHalt.mono fun us h => h.access) ?_
      rintro a s₄ ⟨y, hElement⟩
      exact ⟨.access y, hElement⟩
    · exact ⟨.name text, hTakes⟩
  · -- any other token is refused where a factor should begin
    exact Yields.mono (halts_fail hRest hLast hTakes rfl) (fun _ _ h => h) fun _ _ hHalt =>
      hHalt.here (.refl s) (.nil _)

theorem access_halts (ih : ExprHalts fuel) (s₀ s : ParserState) (text : String) (x : Symbol)
    (span : Span) (hTakes : Takes s₀ [.name text] s) :
    Yields (access (fuel + 1) x span) s (fun _ s' => ∃ y : Phrase .element, Takes s₀ y.tokens s')
      (Halt s₀ (Phrase.Begins .element)) := by
  rw [access]
  refine hTakes.bind (ih.subscript s x span x.type) (fun us h => h.element text) ?_
  rintro found s₁ ⟨i, hIndex⟩
  exact ih.subscripts s₀ s₁ (.element text i) x span found.1 found.2 (hTakes.trans hIndex)

theorem subscripts_halts (ih : ExprHalts fuel) (s₀ s : ParserState) (y : Phrase .element)
    (x : Symbol) (span : Span) (index : Expr) (type : Ty) (hTakes : Takes s₀ y.tokens s) :
    Yields (subscripts (fuel + 1) x span index type) s
      (fun _ s' => ∃ y : Phrase .element, Takes s₀ y.tokens s')
      (Halt s₀ (Phrase.Begins .element)) := by
  rw [subscripts]
  refine hTakes.step (halts_atMark _ s) (.whole y) ?_
  rintro b s₁ ⟨rfl, -⟩
  split
  · refine hTakes.bind (ih.subscript s₁ x span type) (fun us h => h.next y) ?_
    rintro found s₂ ⟨i, hIndex⟩
    have hElement : Takes s₀ (Phrase.next y i).tokens s₂ := hTakes.trans hIndex
    -- the offsets are added up before the next bracket is looked for
    refine hElement.step (halts_check span s₂ fun _ => binary_not_declaring) (.whole (.next y i)) ?_
    rintro sum _ rfl
    exact ih.subscripts s₀ _ (.next y i) x span sum found.2 hElement
  · exact ⟨y, hTakes⟩

theorem subscript_halts (ih : ExprHalts fuel) (s : ParserState) (x : Symbol) (span : Span)
    (outer : Ty) :
    Yields (subscript (fuel + 1) x span outer) s
      (fun _ s' => ∃ i : Phrase .bool, Takes s (bracketed i.tokens) s')
      (Halt s BeginsBracketed) := by
  rw [subscript]
  refine (Takes.refl s).step (halts_expect _ s) .nil fun bracket s₁ hOpen => ?_
  refine hOpen.bind (ih.expr .disjunction s₁) (fun us h => .inside h) ?_
  rintro a s₂ ⟨i, hInside⟩
  have hBefore := hOpen.trans hInside
  refine hBefore.step (halts_expect _ s₂) (.inside (.whole i)) fun _ s₃ hClose => ?_
  have hTakes : Takes s (bracketed i.tokens) s₃ := hOpen.trans (hInside.trans hClose)
  -- what the rules say of the subscript comes behind all of its tokens
  split
  · exact (Halt.rule span s₃ id).here hTakes (.whole i)
  · refine hTakes.step (halts_check bracket s₃ fun _ => binary_not_declaring) (.whole i) ?_
    rintro term _ rfl
    exact ⟨i, hTakes⟩

end Steps

/-- **Where expressions halt.** Each function for expressions reads an expression, or halts in one:
`ExprHalts` holds for all fuel, by induction. -/
theorem exprHalts (fuel : Nat) : ExprHalts fuel := by
  induction fuel with
  | zero =>
    exact {
      expr _ s := .exhausted s
      operand _ s := .exhausted s
      chain _ _ s _ _ _ := .exhausted s
      unary s := .exhausted s
      factor s := .exhausted s
      access _ s _ _ _ _ := .exhausted s
      subscripts _ s _ _ _ _ _ _ := .exhausted s
      subscript s _ _ _ := .exhausted s }
  | succ fuel ih =>
    exact {
      expr := expr_halts ih
      operand := operand_halts ih
      chain := chain_halts ih
      unary := unary_halts ih
      factor := factor_halts ih
      access := access_halts ih
      subscripts := subscripts_halts ih
      subscript := subscript_halts ih }

end JumpCode
