import JumpCode.Proofs.Parsing.Run

/-!
# JumpCode — what is read as an expression

Whatever the functions of the parser read as an expression has a derivation, whose tokens are those
that have been read, and under the declarations in force it stands for the tree that they give. If
they run out of fuel, they had less than a fixed number of calls for each token to come, and a few
more for the levels above.

* `exprReads` — both facts for all functions at once, by induction on the fuel.
-/

namespace JumpCode

open JumpCode.Parser

/-! ## Levels and ranks -/

namespace Level

/-- The `Rank` that a `Level` of precedence derives. -/
def rank : Level → Rank
  | disjunction => .bool
  | conjunction => .join
  | equality => .equality
  | relation => .rel
  | sum => .expr
  | product => .term

/-- The `Rank` of the operands of a `Level`: that of the next tighter one, or unary. -/
def operandRank : Level → Rank
  | disjunction => .join
  | conjunction => .equality
  | equality => .rel
  | relation => .expr
  | sum => .term
  | product => .unary

/-- The `Rank` of what may stand to the left of an operator of a `Level`: its own if the operators
chain, and that of its operands otherwise. -/
def leftRank : Level → Rank
  | relation => .expr
  | l => l.rank

theorem rank_passes (l : Level) : l.rank.Passes l.operandRank := by
  cases l <;> constructor

theorem operandRank_of_tighter {l l' : Level} (h : l.tighter? = some l') :
    l.operandRank = l'.rank := by
  cases l <;> cases h <;> rfl

theorem operandRank_of_tightest {l : Level} (h : l.tighter? = none) : l.operandRank = .unary := by
  cases l <;> cases h
  rfl

theorem leftRank_of_chains {l : Level} (h : l.chains = true) : l.leftRank = l.rank := by
  cases l <;> first | rfl | cases h

theorem joins_of_operator {l : Level} {m : Mark} {op : BinaryOp} (h : l.operator? m = some op) :
    l.rank.Joins l.leftRank m op l.operandRank := by
  cases l <;> cases m <;> cases h <;> constructor

theorem operator_of_joins {l : Level} {left right : Rank} {m : Mark} {op : BinaryOp}
    (h : l.rank.Joins left m op right) :
    left = l.leftRank ∧ right = l.operandRank ∧ l.operator? m = some op := by
  cases l <;> cases h <;> exact ⟨rfl, rfl, rfl⟩

theorem operatorOf_eq_some {l : Level} {t : Option Token} {op : BinaryOp}
    (h : l.operatorOf? t = some op) : ∃ m, t = some (.mark m) ∧ l.operator? m = some op := by
  unfold operatorOf? at h
  split at h
  · next m => exact ⟨m, rfl, h⟩
  · cases h

/-- How many calls deep the parser goes from a `Level` before it reads a token. -/
def depth : Level → Nat
  -- two calls for each level, and four from the tightest one on
  | disjunction => 14
  | conjunction => 12
  | equality => 10
  | relation => 8
  | sum => 6
  | product => 4

theorem depth_of_tighter {l l' : Level} (h : l.tighter? = some l') : l.depth = l'.depth + 2 := by
  cases l <;> cases h <;> rfl

theorem depth_of_tightest {l : Level} (h : l.tighter? = none) : l.depth = 4 := by
  cases l <;> cases h
  rfl

theorem depth_bounds (l : Level) : 4 ≤ l.depth ∧ l.depth ≤ 14 := by
  cases l <;> decide

end Level

/-- A level of precedence whose operators chain stands for itself to the left of its operators; for
the other level that is what its operands are. Either way it may be the whole, with the same tokens
and the same tree. -/
theorem Phrase.exists_whole {l : Level} (x : Phrase l.leftRank) :
    ∃ y : Phrase l.rank, y.tokens = x.tokens ∧ ∀ Γ a, x.Means Γ a → y.Means Γ a := by
  cases l with
  | relation => exact ⟨.pass .rel x, rfl, fun _ _ h => .pass h⟩
  | _ => exact ⟨x, rfl, fun _ _ h => h⟩

theorem Phrase.exists_left {l : Level} (x : Phrase l.operandRank) :
    ∃ y : Phrase l.leftRank, y.tokens = x.tokens ∧ ∀ Γ a, x.Means Γ a → y.Means Γ a := by
  cases l with
  | relation => exact ⟨x, rfl, fun _ _ h => h⟩
  | disjunction => exact ⟨.pass .bool x, rfl, fun _ _ h => .pass h⟩
  | conjunction => exact ⟨.pass .join x, rfl, fun _ _ h => .pass h⟩
  | equality => exact ⟨.pass .equality x, rfl, fun _ _ h => .pass h⟩
  | sum => exact ⟨.pass .expr x, rfl, fun _ _ h => .pass h⟩
  | product => exact ⟨.pass .term x, rfl, fun _ _ h => .pass h⟩

/-! ## What each function reads -/

/-- A parser that runs out of fuel had less than 16 calls for each token to come, and `cost`. Of
other reasons to stop this says nothing. -/
def Short (cost fuel : Nat) (s : ParserState) (stop : Stop) (_ : ParserState) : Prop :=
  stop = .exhausted → fuel < 16 * s.rest.length + cost

/-- A parser reads an expression of a `Rank`: a derivation of it that stands for the tree, unless it
stops, and then it is `Short` or stops for another reason. -/
def ReadsAs (r : Rank) (cost fuel : Nat) (p : Parser Expr) : Prop :=
  ∀ s, Yields p s (fun a s' => ∃ x : Phrase r, Skips s x.tokens s' ∧ x.Means s.scope a)
    (Short cost fuel s)

/-- What the functions of the parser read from some fuel. Those that go on from what stands to the
left of them complete its derivation, which begins at the state `s₀`. There is one field for each
function, so that the induction on the fuel has them all. -/
structure ExprReads (fuel : Nat) : Prop where
  expr (l : Level) : ReadsAs l.rank l.depth fuel (expr fuel l)
  operand (l : Level) : ReadsAs l.operandRank (l.depth - 1) fuel (operand fuel l)
  chain (l : Level) (s₀ s : ParserState) (x : Phrase l.leftRank) (a : Expr)
    (hSkips : Skips s₀ x.tokens s) (hMeans : x.Means s₀.scope a) :
    Yields (chain fuel l a) s
      (fun e s' => ∃ y : Phrase l.rank, Skips s₀ y.tokens s' ∧ y.Means s₀.scope e)
      (Short 1 fuel s)
  unary : ReadsAs .unary 2 fuel (unary fuel)
  factor : ReadsAs .factor 1 fuel (factor fuel)
  access (s₀ s : ParserState) (text : String) (x : Symbol) (span : Span)
    (hSkips : Skips s₀ [.name text] s) (hName : s₀.scope.lookup? text = some x) :
    Yields (access fuel x span) s
      (fun a s' => ∃ y : Phrase .element, Skips s₀ y.tokens s' ∧ y.Means s₀.scope (.ofAccess a))
      (Short 2 fuel s)
  subscripts (s₀ s : ParserState) (y : Phrase .element) (x : Symbol) (span : Span) (index : Expr)
    (type : Ty) (hSkips : Skips s₀ y.tokens s)
    (hMeans : y.Means s₀.scope (.access x index type)) :
    Yields (subscripts fuel x span index type) s
      (fun a s' => ∃ y : Phrase .element, Skips s₀ y.tokens s' ∧ y.Means s₀.scope (.ofAccess a))
      (Short 2 fuel s)
  subscript (s : ParserState) (x : Symbol) (span : Span) (outer : Ty) :
    Yields (subscript fuel x span outer) s
      (fun t s' => ∃ (i : Phrase .bool) (a : Expr), Skips s (bracketed i.tokens) s' ∧
        i.Means s.scope a ∧ outer.element? = some t.2 ∧ Scaled a t.2 t.1)
      (Short 1 fuel s)

/-- What stops for a reason of its own has not run out of fuel. -/
theorem short_of_ne {cost fuel : Nat} {s : ParserState} {stop : Stop} {s' : ParserState}
    (h : stop ≠ .exhausted) : Short cost fuel s stop s' := fun hStop => absurd hStop h

/-- A call that runs `Short` leaves its caller short, whose bound covers that of the call. -/
theorem Short.caller {cost cost' fuel fuel' : Nat} {s s' : ParserState}
    (hBound : fuel' + 16 * s.rest.length + cost ≤ fuel + 16 * s'.rest.length + cost') :
    ∀ stop t, Short cost fuel s stop t → Short cost' fuel' s' stop t := by
  intro stop t hShort hStop
  have hFuel := hShort hStop
  omega

theorem short_zero {cost : Nat} (s : ParserState) (hCost : 0 < cost) :
    Short cost 0 s .exhausted s := fun _ => Nat.lt_of_lt_of_le hCost (Nat.le_add_left _ _)

section Steps

variable {fuel : Nat}

theorem expr_reads (ih : ExprReads fuel) (l : Level) :
    ReadsAs l.rank l.depth (fuel + 1) (expr (fuel + 1) l) := by
  intro s
  have hDepth := l.depth_bounds
  rw [expr]
  refine (ih.operand l s).bind (Short.caller (by omega)) ?_
  rintro a s₁ ⟨x, hSkips, hMeans⟩
  -- the operand alone is the first thing that stands to the left
  obtain ⟨y, hTokens, hSame⟩ := x.exists_left
  rw [← hTokens] at hSkips
  have hLength := hSkips.length
  exact (ih.chain l s s₁ y a hSkips (hSame _ _ hMeans)).mono (fun _ _ h => h)
    (Short.caller (by omega))

theorem operand_reads (ih : ExprReads fuel) (l : Level) :
    ReadsAs l.operandRank (l.depth - 1) (fuel + 1) (operand (fuel + 1) l) := by
  intro s
  rw [operand]
  split
  · next l' hTighter =>
    rw [Level.operandRank_of_tighter hTighter]
    -- no token has been read, so the depth of the level pays for the call
    have hDepth := Level.depth_of_tighter hTighter
    exact (ih.expr l' s).mono (fun _ _ h => h) (Short.caller (by omega))
  · next hTightest =>
    rw [Level.operandRank_of_tightest hTightest]
    have hDepth := Level.depth_of_tightest hTightest
    exact (ih.unary s).mono (fun _ _ h => h) (Short.caller (by omega))

theorem chain_reads (ih : ExprReads fuel) (l : Level) (s₀ s : ParserState)
    (x : Phrase l.leftRank) (a : Expr) (hSkips : Skips s₀ x.tokens s)
    (hMeans : x.Means s₀.scope a) :
    Yields (chain (fuel + 1) l a) s
      (fun e s' => ∃ y : Phrase l.rank, Skips s₀ y.tokens s' ∧ y.Means s₀.scope e)
      (Short 1 (fuel + 1) s) := by
  have hDepth := l.depth_bounds
  rw [chain]
  refine (yields_peek s).bind (fun _ _ h => short_of_ne h.1) ?_
  rintro t s₁ ⟨rfl, rfl⟩
  split
  · -- no operator of this level follows: the left operand is the whole
    obtain ⟨y, hTokens, hSame⟩ := x.exists_whole
    rw [yields_pure]
    exact ⟨y, hTokens ▸ hSkips, hSame _ _ hMeans⟩
  · next op hOp =>
    obtain ⟨m, hHead, hOperator⟩ := Level.operatorOf_eq_some hOp
    refine (yields_next s₁).bind (fun _ _ h => short_of_ne h.1) fun found s₂ hFound => ?_
    rw [hFound.head hHead] at hFound
    have hLength := hFound.length_one
    refine (ih.operand l s₂).bind (Short.caller (by omega)) ?_
    rintro b s₃ ⟨y, hOperand, hRight⟩
    refine (yields_check found.span _ s₃).bind (fun _ _ h => short_of_ne h.1.ne_exhausted) ?_
    rintro e s₄ ⟨rfl, hBuilt⟩
    -- both sides have been read from the same scope: reading leaves it as it is
    have hJoined := binary_eq_ok_iff.mp hBuilt
    rw [hFound.scope, hSkips.scope] at hRight
    let joined : Phrase l.rank := .binary (Level.joins_of_operator hOperator) x y
    have hTokens : Skips s₀ joined.tokens s₄ := hSkips.trans (hFound.trans hOperand)
    have hMeaning : joined.Means s₀.scope e := .binary hMeans hRight hJoined
    split
    · next hChains =>
      -- what has been joined stands to the left of whatever follows
      have hLeft : ∃ z : Phrase l.leftRank, Skips s₀ z.tokens s₄ ∧ z.Means s₀.scope e := by
        rw [Level.leftRank_of_chains hChains]
        exact ⟨joined, hTokens, hMeaning⟩
      obtain ⟨z, hz, hzMeans⟩ := hLeft
      have hOperandLength := hOperand.length
      exact (ih.chain l s₀ s₄ z e hz hzMeans).mono (fun _ _ h => h) (Short.caller (by omega))
    · rw [yields_pure]
      exact ⟨joined, hTokens, hMeaning⟩

theorem signs_of_unaryOf {t : Option Token} {op : UnaryOp} (h : unaryOf? t = some op) :
    ∃ m, t = some (.mark m) ∧ Rank.Signs m op := by
  unfold unaryOf? at h
  split at h
  · cases h; exact ⟨_, rfl, .minus⟩
  · cases h; exact ⟨_, rfl, .not⟩
  · cases h

theorem unary_reads (ih : ExprReads fuel) :
    ReadsAs .unary 2 (fuel + 1) (unary (fuel + 1)) := by
  intro s
  rw [unary]
  refine (yields_peek s).bind (fun _ _ h => short_of_ne h.1) ?_
  rintro t s₁ ⟨rfl, rfl⟩
  split
  · next op hOp =>
    obtain ⟨m, hHead, hSign⟩ := signs_of_unaryOf hOp
    refine (yields_next s₁).bind (fun _ _ h => short_of_ne h.1) fun found s₂ hFound => ?_
    -- the sign has been seen before it is read
    rw [hFound.head hHead] at hFound
    have hLength := hFound.length_one
    refine (ih.unary s₂).bind (Short.caller (by omega)) ?_
    rintro a s₃ ⟨x, hOperand, hMeans⟩
    refine (yields_check found.span _ s₃).mono ?_ (fun _ _ h => short_of_ne h.1.ne_exhausted)
    rintro e s₄ ⟨rfl, hBuilt⟩
    rw [hFound.scope] at hMeans
    exact ⟨.unary hSign x, hFound.trans hOperand, .unary hMeans (unary_eq_ok_iff.mp hBuilt)⟩
  · refine (ih.factor s₁).mono ?_ (Short.caller (by omega))
    rintro a s₂ ⟨x, hSkips, hMeans⟩
    exact ⟨.pass .unary x, hSkips, .pass hMeans⟩

theorem factor_reads (ih : ExprReads fuel) :
    ReadsAs .factor 1 (fuel + 1) (factor (fuel + 1)) := by
  intro s
  rw [factor]
  refine (yields_next s).bind (fun _ _ h => short_of_ne h.1) fun found s₁ hFound => ?_
  have hLength := hFound.length_one
  split
  · next hToken =>
    rw [hToken] at hFound
    -- the parenthesis pays for all levels below which it starts again
    have hDepth : Level.disjunction.depth = 14 := rfl
    refine (ih.expr .disjunction s₁).bind (Short.caller (by omega)) ?_
    rintro a s₂ ⟨x, hInside, hMeans⟩
    refine (yields_expect _ s₂).bind (fun _ _ h => short_of_ne h.1) fun _ s₃ hClose => ?_
    rw [yields_pure]
    rw [hFound.scope] at hMeans
    exact ⟨.paren x, hFound.trans (hInside.trans hClose), .paren hMeans⟩
  · next value hToken =>
    rw [hToken] at hFound
    exact ⟨.int value, hFound, .int⟩
  · next value hToken =>
    rw [hToken] at hFound
    exact ⟨.real value, hFound, .real⟩
  · next hToken =>
    rw [hToken] at hFound
    exact ⟨.truth true, hFound, .truth⟩
  · next hToken =>
    rw [hToken] at hFound
    exact ⟨.truth false, hFound, .truth⟩
  · next text hToken =>
    rw [hToken] at hFound
    -- a name is a variable, unless a bracket makes it an element
    refine (yields_resolve text _ s₁).bind (fun _ _ h => short_of_ne h.1.ne_exhausted) ?_
    rintro x s₂ ⟨rfl, hName⟩
    rw [hFound.scope] at hName
    refine (yields_atMark _ s₂).bind (fun _ _ h => short_of_ne h.1) ?_
    rintro b s₃ ⟨rfl, -⟩
    split
    · refine (ih.access s s₃ text x found.span hFound hName).bind (Short.caller (by omega)) ?_
      rintro a s₄ ⟨y, hSkips, hMeans⟩
      exact ⟨.access y, hSkips, .access hMeans⟩
    · exact ⟨.name text, hFound, .name hName⟩
  · rw [yields_fail]
    exact short_of_ne Stop.noConfusion

theorem access_reads (ih : ExprReads fuel) (s₀ s : ParserState) (text : String) (x : Symbol)
    (span : Span) (hSkips : Skips s₀ [.name text] s) (hName : s₀.scope.lookup? text = some x) :
    Yields (access (fuel + 1) x span) s
      (fun a s' => ∃ y : Phrase .element, Skips s₀ y.tokens s' ∧ y.Means s₀.scope (.ofAccess a))
      (Short 2 (fuel + 1) s) := by
  rw [access]
  refine (ih.subscript s x span x.type).bind (Short.caller (by omega)) ?_
  rintro ⟨term, type⟩ s₁ ⟨i, a, hIndex, hMeans, hArray, hTerm⟩
  rw [hSkips.scope] at hMeans
  -- the brackets alone are two tokens, which pay for all that is still to come
  have hLength := hIndex.length
  rw [length_bracketed] at hLength
  exact (ih.subscripts s₀ s₁ (.element text i) x span term type (hSkips.trans hIndex)
    (.element hName hMeans hArray hTerm)).mono (fun _ _ h => h) (Short.caller (by omega))

theorem subscripts_reads (ih : ExprReads fuel) (s₀ s : ParserState) (y : Phrase .element)
    (x : Symbol) (span : Span) (index : Expr) (type : Ty) (hSkips : Skips s₀ y.tokens s)
    (hMeans : y.Means s₀.scope (.access x index type)) :
    Yields (subscripts (fuel + 1) x span index type) s
      (fun a s' => ∃ y : Phrase .element, Skips s₀ y.tokens s' ∧ y.Means s₀.scope (.ofAccess a))
      (Short 2 (fuel + 1) s) := by
  rw [subscripts]
  refine (yields_atMark _ s).bind (fun _ _ h => short_of_ne h.1) ?_
  rintro b s₁ ⟨rfl, -⟩
  split
  · refine (ih.subscript s₁ x span type).bind (Short.caller (by omega)) ?_
    rintro ⟨term, element⟩ s₂ ⟨i, a, hIndex, hInside, hArray, hTerm⟩
    refine (yields_check span _ s₂).bind (fun _ _ h => short_of_ne h.1.ne_exhausted) ?_
    rintro sum s₃ ⟨rfl, hBuilt⟩
    rw [hSkips.scope] at hInside
    have hLength := hIndex.length
    rw [length_bracketed] at hLength
    -- the offset so far and that of the new index are added up
    have hNext := Phrase.Means.next hMeans hInside hArray hTerm (binary_eq_ok_iff.mp hBuilt)
    exact (ih.subscripts s₀ s₃ (.next y i) x span sum element (hSkips.trans hIndex) hNext).mono
      (fun _ _ h => h) (Short.caller (by omega))
  · exact ⟨y, hSkips, hMeans⟩

theorem subscript_reads (ih : ExprReads fuel) (s : ParserState) (x : Symbol) (span : Span)
    (outer : Ty) :
    Yields (subscript (fuel + 1) x span outer) s
      (fun t s' => ∃ (i : Phrase .bool) (a : Expr), Skips s (bracketed i.tokens) s' ∧
        i.Means s.scope a ∧ outer.element? = some t.2 ∧ Scaled a t.2 t.1)
      (Short 1 (fuel + 1) s) := by
  rw [subscript]
  refine (yields_expect _ s).bind (fun _ _ h => short_of_ne h.1) fun bracket s₁ hOpen => ?_
  have hLength := hOpen.length_one
  -- the bracket pays for the index as a parenthesis does
  have hDepth : Level.disjunction.depth = 14 := rfl
  refine (ih.expr .disjunction s₁).bind (Short.caller (by omega)) ?_
  rintro a s₂ ⟨i, hInside, hMeans⟩
  refine (yields_expect _ s₂).bind (fun _ _ h => short_of_ne h.1) fun _ s₃ hClose => ?_
  rw [hOpen.scope] at hMeans
  split
  · rw [yields_failAt]
    exact short_of_ne Stop.noConfusion
  · next element hElement =>
    refine (yields_check bracket _ s₃).bind (fun _ _ h => short_of_ne h.1.ne_exhausted) ?_
    rintro term s₄ ⟨rfl, hBuilt⟩
    exact ⟨i, a, hOpen.trans (hInside.trans hClose), hMeans, hElement,
      binary_eq_ok_iff.mp hBuilt⟩

end Steps

/-- **What is read as an expression.** Each function of the parser reads a derivation that stands
for the tree it gives, and runs out of fuel only if it had too little for the tokens to come
(`Short`). The induction is on the fuel. -/
theorem exprReads (fuel : Nat) : ExprReads fuel := by
  induction fuel with
  | zero =>
    -- without fuel nothing is read
    exact {
      expr l s := short_zero s (by have := l.depth_bounds; omega)
      operand l s := short_zero s (by have := l.depth_bounds; omega)
      chain _ _ s _ _ _ _ := short_zero s Nat.one_pos
      unary s := short_zero s Nat.two_pos
      factor s := short_zero s Nat.one_pos
      access _ s _ _ _ _ _ := short_zero s Nat.two_pos
      subscripts _ s _ _ _ _ _ _ _ := short_zero s Nat.two_pos
      subscript s _ _ _ := short_zero s Nat.one_pos }
  | succ fuel ih =>
    exact {
      expr := expr_reads ih
      operand := operand_reads ih
      chain := chain_reads ih
      unary := unary_reads ih
      factor := factor_reads ih
      access := access_reads ih
      subscripts := subscripts_reads ih
      subscript := subscript_reads ih }

end JumpCode
