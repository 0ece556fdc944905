import JumpCode.Proofs.Determinacy
import JumpCode.Proofs.Parsing.ExprReading

/-!
# JumpCode — which expressions are accepted

The other direction: where the tokens to come begin with those of a derivation, and none follows
that would go on with it, the parser reads this derivation. It gives the tree that the derivation
stands for; if it stops for another reason than a lack of fuel, there is no such tree.

An operator that chains is met only after all that stands to its left has been read. What is known
of the levels with such operators is therefore said with a continuation (`Continues`): reading goes
on from the left operand as `chain` does. Subscripts chain in the same way (`Indexes`).

* `Phrase.complete` — expressions of all ranks, by induction on the derivation.
-/

namespace JumpCode

open JumpCode.Parser

/-! ## What follows an expression -/

namespace Rank

/-- How far a `Rank` stands above the factors. -/
def height : Rank → Nat
  | bool => 7
  | join => 6
  | equality => 5
  | rel => 4
  | expr => 3
  | term => 2
  | unary => 1
  | factor => 0
  | element => 0

/-- A token that does not go on with an expression of a `Rank`: it opens no subscript and is no
operator of this rank or a tighter one. -/
def Ends (r : Rank) (t : Option Token) : Prop :=
  t ≠ some (.mark .openSquare) ∧
    ∀ l : Level, l.rank.height ≤ r.height → l.operatorOf? t = none

theorem Ends.mono {r r' : Rank} {t : Option Token} (h : r.Ends t) (hHeight : r'.height ≤ r.height) :
    r'.Ends t := ⟨h.1, fun l hl => h.2 l (Nat.le_trans hl hHeight)⟩

theorem Passes.height {r r' : Rank} (h : r.Passes r') : r.height = r'.height + 1 := by
  cases h <;> rfl

/-- An operator goes on with its left operand alone, not with the operands above it. -/
theorem ends_of_operator {l : Level} {m : Mark} {op : BinaryOp} (h : l.operator? m = some op) :
    l.operandRank.Ends (some (.mark m)) := by
  refine ⟨?_, fun l' hTighter => ?_⟩
  · rintro ⟨⟩
    cases l <;> cases h
  · cases l <;> cases m <;> cases h <;> cases l' <;> first | rfl | simp [Level.rank,
      Level.operandRank, height] at hTighter

theorem ends_closing (r : Rank) {t : Token} (h : t ∈ [.mark .closeParen, .mark .closeSquare,
    .mark .semicolon]) : r.Ends (some t) := by
  simp only [List.mem_cons, List.not_mem_nil, or_false] at h
  rcases h with rfl | rfl | rfl <;> refine ⟨by decide, fun l _ => ?_⟩ <;> cases l <;> rfl

end Rank

/-! ## What is read of a derivation -/

/-- A derivation stands for some tree (`Phrase.Means`). -/
def Phrase.HasTree {r : Rank} (Γ : Scope) (x : Phrase r) : Prop := ∃ a, x.Means Γ a

/-- A parser reads this derivation where its tokens are next and what follows `Ends` it: it comes to
the tree that the derivation stands for. -/
def ReadsBack {r : Rank} (p : Nat → Parser Expr) (x : Phrase r) : Prop :=
  ∀ fuel s rest, Faces s (x.tokens ++ rest) → r.Ends rest.head? →
    Yields (p fuel) s (fun a s' => Skips s x.tokens s' ∧ x.Means s.scope a)
      (fun stop _ => stop.Denies (x.HasTree s.scope))

/-- Reading at a level goes through this derivation and on as `chain` does behind it. -/
def Continues {r : Rank} (l : Level) (x : Phrase r) : Prop :=
  ∀ fuel s rest onOk onStop, Faces s (x.tokens ++ rest) → l.operandRank.Ends rest.head? →
    (∀ stop s', stop.Denies (x.HasTree s.scope) → onStop stop s') →
    (∀ fuel' a s', Skips s x.tokens s' → x.Means s.scope a →
      Yields (chain fuel' l a) s' onOk onStop) →
    Yields (expr fuel l) s onOk onStop

/-- The name of the array that an element belongs to; of other phrases this is nothing. -/
def Phrase.array : {r : Rank} → Phrase r → String
  | _, .element text _ => text
  | _, .next x _ => x.array
  | _, _ => ""

/-- Behind the name of its array, reading goes through this element and on as `subscripts` does
behind it. -/
def Indexes {r : Rank} (y : Phrase r) : Prop :=
  ∀ fuel s₀ s x span rest onOk onStop, Faces s₀ (y.tokens ++ rest) →
    Skips s₀ [.name y.array] s → s₀.scope.lookup? y.array = some x →
    (∀ stop s', stop.Denies (y.HasTree s₀.scope) → onStop stop s') →
    (∀ fuel' index type s', Skips s₀ y.tokens s' → y.Means s₀.scope (.access x index type) →
      Yields (subscripts fuel' x span index type) s' onOk onStop) →
    Yields (access fuel x span) s onOk onStop

/-- All that the functions of the parser do with a derivation of some `Rank`: what the induction on
the derivation carries. -/
structure Complete {r : Rank} (x : Phrase r) : Prop where
  level (l : Level) (hRank : l.rank = r) : ReadsBack (expr · l) x
  chain (l : Level) (hRank : l.rank = r) (hChains : l.chains = true) : Continues l x
  unary (hRank : r = .unary) : ReadsBack Parser.unary x
  factor (hRank : r = .factor) : ReadsBack Parser.factor x
  element (hRank : r = .element) : Indexes x

/-! ## Levels -/

theorem Level.rank_inj {l l' : Level} (h : l.rank = l'.rank) : l = l' := by
  cases l <;> cases l' <;> first | rfl | cases h

theorem Complete.of_level {l : Level} {x : Phrase l.rank} (hLevel : ReadsBack (expr · l) x)
    (hChain : l.chains = true → Continues l x) : Complete x where
  level l' hRank := Level.rank_inj hRank ▸ hLevel
  chain l' hRank hChains := by
    obtain rfl := Level.rank_inj hRank
    exact hChain hChains
  unary hRank := by cases l <;> cases hRank
  factor hRank := by cases l <;> cases hRank
  element hRank := by cases l <;> cases hRank

theorem Complete.of_unary {x : Phrase .unary} (h : ReadsBack Parser.unary x) : Complete x where
  level l hRank := by cases l <;> cases hRank
  chain l hRank := by cases l <;> cases hRank
  unary _ := h
  factor hRank := by cases hRank
  element hRank := by cases hRank

theorem Complete.of_factor {x : Phrase .factor} (h : ReadsBack Parser.factor x) : Complete x where
  level l hRank := by cases l <;> cases hRank
  chain l hRank := by cases l <;> cases hRank
  unary hRank := by cases hRank
  factor _ := h
  element hRank := by cases hRank

theorem Complete.of_element {x : Phrase .element} (h : Indexes x) : Complete x where
  level l hRank := by cases l <;> cases hRank
  chain l hRank := by cases l <;> cases hRank
  unary hRank := by cases hRank
  factor hRank := by cases hRank
  element _ := h

/-- Operands are read by the next tighter `Level`, or as unary ones. -/
theorem Complete.operand {l : Level} {x : Phrase l.operandRank} (h : Complete x) :
    ReadsBack (operand · l) x := by
  intro fuel s rest hFaces hEnds
  cases fuel with
  | zero => exact Stop.denies_exhausted _
  | succ fuel =>
    dsimp only
    rw [Parser.operand]
    split
    · next l' hTighter =>
      exact h.level l' (Level.operandRank_of_tighter hTighter).symm fuel s rest hFaces hEnds
    · next hTightest =>
      exact h.unary (Level.operandRank_of_tightest hTightest) fuel s rest hFaces hEnds

section Chains

variable {l : Level} {s : ParserState} {ts rest : List Token} {a : Expr}
  {onOk : Expr → ParserState → Prop} {onStop : Stop → ParserState → Prop}

/-- Where no operator of its level follows, a left operand is the whole. -/
theorem chain_ends (fuel : Nat) (hFaces : Faces s ts) (hEnd : l.operatorOf? ts.head? = none)
    (hStop : onStop .exhausted s) (hNext : onOk a s) : Yields (chain fuel l a) s onOk onStop := by
  cases fuel with
  | zero => exact hStop
  | succ fuel =>
    rw [chain]
    refine hFaces.peek ?_
    rw [hEnd]
    exact hNext

/-- An operator of the level is read with its right operand, and `chain` goes on if the level
chains. -/
theorem chain_joins (fuel : Nat) {m : Mark} {op : BinaryOp} {y : Phrase l.operandRank}
    (hOp : l.operator? m = some op) (hOperand : ReadsBack (operand · l) y)
    (hFaces : Faces s (.mark m :: (y.tokens ++ rest))) (hEnds : l.operandRank.Ends rest.head?)
    (hStop : ∀ stop s', stop.Denies (∃ b e, y.Means s.scope b ∧ Binary op a b e) → onStop stop s')
    (hNext : ∀ fuel' b e s', Skips s (.mark m :: y.tokens) s' → y.Means s.scope b →
      Binary op a b e →
      Yields (if l.chains then chain fuel' l e else pure e) s' onOk onStop) :
    Yields (chain fuel l a) s onOk onStop := by
  cases fuel with
  | zero => exact hStop _ _ (Stop.denies_exhausted _)
  | succ fuel =>
    rw [chain]
    refine hFaces.peek ?_
    have hFollows : l.operatorOf? (List.head? (.mark m :: (y.tokens ++ rest))) = some op := hOp
    rw [hFollows]
    -- the operator is taken, and its right operand read behind it
    refine hFaces.next fun found s₁ _ hMark hFaces₁ => ?_
    refine (hOperand fuel s₁ rest hFaces₁ hEnds).bind ?_ ?_
    · rw [hMark.scope]
      intro stop s' hDenies
      refine hStop stop s' (hDenies.mono ?_)
      rintro ⟨b, _, hb, _⟩
      exact ⟨b, hb⟩
    rintro b s₂ ⟨hSkips, hMeans⟩
    rw [hMark.scope] at hMeans
    refine (yields_check found.span _ s₂).bind ?_ ?_
    · rintro stop s' ⟨hSemantic, hNone⟩
      refine hStop stop s' (.inr ⟨hSemantic, ?_⟩)
      rintro ⟨b', e, hb', hJoined⟩
      -- no other tree for the operand could save the operator
      rw [hMeans.unique hb'] at hNone
      exact hNone e (binary_eq_ok_iff.mpr hJoined)
    · rintro e s₃ ⟨rfl, hBuilt⟩
      exact hNext fuel b e s₃ (hMark.trans hSkips) hMeans (binary_eq_ok_iff.mp hBuilt)

end Chains

/-- Reading at a level begins with an operand. -/
theorem continues_of_operand {l : Level} {x : Phrase l.operandRank}
    (h : ReadsBack (operand · l) x) : Continues l x := by
  intro fuel s rest onOk onStop hFaces hEnds hStop hNext
  cases fuel with
  | zero => exact hStop _ _ (Stop.denies_exhausted _)
  | succ fuel =>
    rw [expr]
    refine (h fuel s rest hFaces hEnds).bind hStop ?_
    rintro a s₁ ⟨hSkips, hMeans⟩
    exact hNext fuel a s₁ hSkips hMeans

/-- What reading at a level goes through is read at this level where nothing goes on with it
(`Rank.Ends`). -/
theorem Continues.readsBack {l : Level} {x : Phrase l.rank} (h : Continues l x) :
    ReadsBack (expr · l) x := by
  intro fuel s rest hFaces hEnds
  refine h fuel s rest _ _ hFaces (hEnds.mono ?_) (fun _ _ hStop => hStop) ?_
  -- what ends the whole ends its operands
  · rw [l.rank_passes.height]
    exact Nat.le_succ _
  · intro fuel' a s' hSkips hMeans
    exact chain_ends fuel' (hFaces.skip hSkips) (hEnds.2 l (Nat.le_refl _)) (.inl rfl)
      ⟨hSkips, hMeans⟩

theorem Continues.pass {l : Level} {x : Phrase l.operandRank} {h : l.rank.Passes l.operandRank}
    (hx : Continues l x) : Continues l (.pass h x) := by
  intro fuel s rest onOk onStop hFaces hEnds hStop hNext
  refine hx fuel s rest onOk onStop hFaces hEnds ?_ ?_
  · intro stop s' hDenies
    refine hStop stop s' (hDenies.mono ?_)
    rintro ⟨e, he⟩
    -- a phrase that only passes has the trees of its operand
    exact ⟨e, Phrase.means_pass_iff.mp he⟩
  · intro fuel' a s' hSkips hMeans
    exact hNext fuel' a s' hSkips (.pass hMeans)

/-- Behind the left operand of an operator, reading goes on with the operator, and the whole is the
left operand of the next one. -/
theorem Continues.binary {l : Level} {x : Phrase l.leftRank} {y : Phrase l.operandRank} {m : Mark}
    {op : BinaryOp} {h : l.rank.Joins l.leftRank m op l.operandRank}
    (hOp : l.operator? m = some op) (hx : Continues l x) (hy : ReadsBack (operand · l) y)
    (fuel : Nat) (s : ParserState) (rest : List Token) (onOk : Expr → ParserState → Prop)
    (onStop : Stop → ParserState → Prop)
    (hFaces : Faces s ((Phrase.binary h x y).tokens ++ rest))
    (hEnds : l.operandRank.Ends rest.head?)
    (hStop : ∀ stop s', stop.Denies (Phrase.HasTree s.scope (.binary h x y)) → onStop stop s')
    (hNext : ∀ fuel' e s', Skips s (Phrase.binary h x y).tokens s' →
      (Phrase.binary h x y).Means s.scope e →
      Yields (if l.chains then chain fuel' l e else pure e) s' onOk onStop) :
    Yields (expr fuel l) s onOk onStop := by
  have hTokens : Faces s (x.tokens ++ .mark m :: (y.tokens ++ rest)) := by
    rw [Phrase.tokens, List.append_assoc] at hFaces
    exact hFaces
  -- the left operand ends before the operator, which is one of its level
  refine hx fuel s _ onOk onStop hTokens (Rank.ends_of_operator hOp) ?_ ?_
  · intro stop s' hDenies
    refine hStop stop s' (hDenies.mono ?_)
    rintro ⟨e, he⟩
    obtain ⟨a, _, ha, _, _⟩ := Phrase.means_binary_iff.mp he
    exact ⟨a, ha⟩
  intro fuel' a s₁ hLeft hMeans
  refine chain_joins fuel' hOp hy (hTokens.skip hLeft) hEnds ?_ ?_
  · rw [hLeft.scope]
    intro stop s' hDenies
    refine hStop stop s' (hDenies.mono ?_)
    rintro ⟨e, he⟩
    obtain ⟨a', b, ha, hb, hJoined⟩ := Phrase.means_binary_iff.mp he
    -- the left operand has but one tree, so the rules speak of the one that has been read
    rw [hMeans.unique ha]
    exact ⟨b, e, hb, hJoined⟩
  · rw [hLeft.scope]
    intro fuel'' b e s₂ hRight hMeansRight hJoined
    exact hNext fuel'' e s₂ (hLeft.trans hRight) (.binary hMeans hMeansRight hJoined)

/-! ## Unary operators and factors -/

/-- No unary operator begins a factor. -/
theorem Phrase.unaryOf_head {r : Rank} (x : Phrase r) (hRank : r = .factor ∨ r = .element)
    (ts : List Token) : unaryOf? (x.tokens ++ ts).head? = none := by
  induction x generalizing ts with
  | pass h _ => rcases hRank with rfl | rfl <;> cases h
  | binary h _ _ => rcases hRank with rfl | rfl <;> cases h
  | unary _ _ => rcases hRank with h | h <;> cases h
  | access x ih => exact ih (.inr rfl) ts
  | next x _ ih _ =>
    rw [Phrase.tokens, List.append_assoc]
    exact ih (.inr rfl) _
  | _ => rfl

theorem readsBack_unary_factor {h : Rank.unary.Passes .factor} {x : Phrase .factor}
    (hx : ReadsBack Parser.factor x) : ReadsBack Parser.unary (.pass h x) := by
  intro fuel s rest hFaces hEnds
  cases fuel with
  | zero => exact Stop.denies_exhausted _
  | succ fuel =>
    rw [Parser.unary]
    refine hFaces.peek ?_
    -- a factor is told from an operator by its first token
    have hHead := x.unaryOf_head (.inl rfl) rest
    rw [Phrase.tokens, hHead]
    refine (hx fuel s rest hFaces (hEnds.mono (Nat.zero_le _))).mono ?_ ?_
    · rintro a s' ⟨hSkips, hMeans⟩
      exact ⟨hSkips, .pass hMeans⟩
    · intro stop s' hDenies
      refine hDenies.mono ?_
      rintro ⟨e, he⟩
      exact ⟨e, Phrase.means_pass_iff.mp he⟩

theorem readsBack_unary {m : Mark} {op : UnaryOp} {h : Rank.Signs m op} {x : Phrase .unary}
    (hx : ReadsBack Parser.unary x) : ReadsBack Parser.unary (.unary h x) := by
  intro fuel s rest hFaces hEnds
  cases fuel with
  | zero => exact Stop.denies_exhausted _
  | succ fuel =>
    rw [Parser.unary]
    refine hFaces.peek ?_
    -- the sign is what shows first
    have hFollows : unaryOf? ((Phrase.unary h x).tokens ++ rest).head? = some op := by
      cases h <;> rfl
    rw [hFollows]
    refine Faces.next hFaces fun found s₁ _ hMark hFaces₁ => ?_
    refine (hx fuel s₁ rest hFaces₁ hEnds).bind ?_ ?_
    · rw [hMark.scope]
      intro stop s' hDenies
      refine hDenies.mono ?_
      rintro ⟨e, he⟩
      cases he with | unary ha _ => exact ⟨_, ha⟩
    rintro a s₂ ⟨hSkips, hMeans⟩
    rw [hMark.scope] at hMeans
    refine (yields_check found.span _ s₂).mono ?_ ?_
    · rintro e s₃ ⟨rfl, hBuilt⟩
      exact ⟨hMark.trans hSkips, .unary hMeans (unary_eq_ok_iff.mp hBuilt)⟩
    · rintro stop s' ⟨hSemantic, hNone⟩
      refine .inr ⟨hSemantic, ?_⟩
      rintro ⟨e, he⟩
      cases he with
      | unary ha hOp =>
        -- no other tree for the operand could save the sign
        rw [hMeans.unique ha] at hNone
        exact hNone e (unary_eq_ok_iff.mpr hOp)

theorem readsBack_paren {x : Phrase .bool} (hx : ReadsBack (expr · .disjunction) x) :
    ReadsBack Parser.factor (.paren x) := by
  intro fuel s rest hFaces _
  cases fuel with
  | zero => exact Stop.denies_exhausted _
  | succ fuel =>
    have hTokens : Faces s (.mark .openParen :: (x.tokens ++ .mark .closeParen :: rest)) := by
      rw [Phrase.tokens, parenthesized, List.cons_append, List.append_assoc] at hFaces
      exact hFaces
    rw [Parser.factor]
    refine hTokens.next fun found s₁ hValue hOpen hFaces₁ => ?_
    rw [hValue]
    -- inside of the parentheses a phrase of the lowest rank is read, up to the one that closes
    refine (hx fuel s₁ _ hFaces₁ (Rank.ends_closing _ (by simp))).bind ?_ ?_
    · rw [hOpen.scope]
      intro stop s' hDenies
      refine hDenies.mono ?_
      rintro ⟨e, he⟩
      cases he with | paren ha => exact ⟨e, ha⟩
    rintro a s₂ ⟨hSkips, hMeans⟩
    rw [hOpen.scope] at hMeans
    refine (hFaces₁.skip hSkips).expect fun _ s₃ hClose _ => ?_
    exact ⟨hOpen.trans (hSkips.trans hClose), .paren hMeans⟩

/-- A derivation of a literal, its token and its constant. -/
inductive Phrase.Literal : Phrase .factor → Token → Constant → Prop
  | int (value : Int) : Literal (.int value) (.intLiteral value) (.int value)
  | real (value : Real64) : Literal (.real value) (.realLiteral value) (.real value)
  | truth (value : Bool) : Literal (.truth value) (.keyword (truthWord value)) (.bool value)

theorem readsBack_literal {x : Phrase .factor} {t : Token} {c : Constant} (h : x.Literal t c) :
    ReadsBack Parser.factor x := by
  intro fuel s rest hFaces _
  have hTokens : x.tokens = [t] := by cases h <;> rfl
  have hMeans (Γ : Scope) : x.Means Γ (.const c) := by cases h <;> constructor
  rw [hTokens] at hFaces ⊢
  cases fuel with
  | zero => exact Stop.denies_exhausted _
  | succ fuel =>
    rw [Parser.factor]
    refine Faces.next hFaces fun found s₁ hValue hToken _ => ?_
    rw [hValue]
    -- the words for truth values are told apart by what they say
    have hRead : Skips s [t] s₁ ∧ x.Means s.scope (.const c) := ⟨hToken, hMeans _⟩
    cases h with
    | truth value => cases value <;> exact hRead
    | _ => exact hRead

/-! ## Names and elements -/

/-- Reading a name that has a declaration goes on from it. -/
theorem yields_factor_name {r : Rank} {x : Phrase r} {text : String} {fuel : Nat}
    {s : ParserState} {ts : List Token} {onOk : Expr → ParserState → Prop}
    {onStop : Stop → ParserState → Prop} (hFaces : Faces s (.name text :: ts))
    (hNamed : ∀ a, x.Means s.scope a → ∃ y, s.scope.lookup? text = some y)
    (hStop : ∀ stop s', stop.Denies (x.HasTree s.scope) → onStop stop s')
    (hNext : ∀ span y s₁, Skips s [.name text] s₁ → Faces s₁ ts → s.scope.lookup? text = some y →
      Yields (if ts.head? == some (.mark .openSquare) then
        Expr.ofAccess <$> access fuel y span else pure (.var y)) s₁ onOk onStop) :
    Yields (Parser.factor (fuel + 1)) s onOk onStop := by
  rw [Parser.factor]
  refine hFaces.next fun found s₁ hValue hName hFaces₁ => ?_
  rw [hValue]
  refine (yields_resolve text _ s₁).bind ?_ ?_
  · rintro stop s' ⟨hSemantic, hNone⟩
    rw [hName.scope] at hNone
    refine hStop stop s' (.inr ⟨hSemantic, ?_⟩)
    -- a derivation that begins with an undeclared name stands for nothing
    rintro ⟨a, ha⟩
    obtain ⟨y, hy⟩ := hNamed a ha
    cases hNone.symm.trans hy
  · rintro y s₂ ⟨rfl, hLookup⟩
    rw [hName.scope] at hLookup
    refine hFaces₁.atMark ?_
    exact hNext found.span y s₂ hName hFaces₁ hLookup

theorem readsBack_name (text : String) : ReadsBack Parser.factor (.name text) := by
  intro fuel s rest hFaces hEnds
  cases fuel with
  | zero => exact Stop.denies_exhausted _
  | succ fuel =>
    refine yields_factor_name hFaces ?_ (fun _ _ h => h) ?_
    · intro a ha
      cases ha with | name hName => exact ⟨_, hName⟩
    -- without a bracket behind it, a name is a variable
    · intro span y s₁ hName _ hLookup
      rw [if_neg (by simpa using hEnds.1)]
      exact ⟨hName, .name hLookup⟩

/-- An element begins with the name of its array and a bracket, and stands for an access to it. -/
theorem Phrase.element_tokens {r : Rank} (x : Phrase r) (hRank : r = .element) :
    ∃ ts, x.tokens = .name x.array :: .mark .openSquare :: ts := by
  induction x with
  | element text index => exact ⟨_, rfl⟩
  | next x index ih _ =>
    obtain ⟨ts, hTokens⟩ := ih rfl
    refine ⟨ts ++ bracketed index.tokens, ?_⟩
    rw [Phrase.tokens, hTokens]
    rfl
  | pass h _ _ => subst hRank; cases h
  | binary h _ _ _ _ => subst hRank; cases h
  | _ => cases hRank

theorem Phrase.Means.element_access {Γ : Scope} {r : Rank} {x : Phrase r} {a : Expr}
    (h : x.Means Γ a) (hRank : r = .element) :
    ∃ y index type, Γ.lookup? x.array = some y ∧ a = .access y index type := by
  induction h with
  | element hName _ _ _ _ => exact ⟨_, _, _, hName, rfl⟩
  | next _ _ _ _ _ ih _ =>
    obtain ⟨y, index, type, hName, hAccess⟩ := ih rfl
    cases hAccess
    exact ⟨_, _, _, hName, rfl⟩
  | @pass _ _ h => subst hRank; cases h
  | @binary _ _ _ _ _ h => subst hRank; cases h
  | _ => cases hRank

/-- One subscript is read, and comes to its term (`Scaled`) and the type of the elements. -/
theorem yields_subscript {i : Phrase .bool} (hi : ReadsBack (expr · .disjunction) i) (fuel : Nat)
    {s : ParserState} {rest : List Token} {x : Symbol} {span : Span} {outer : Ty}
    (hFaces : Faces s (bracketed i.tokens ++ rest)) :
    Yields (subscript fuel x span outer) s
      (fun t s' => ∃ a, Skips s (bracketed i.tokens) s' ∧ i.Means s.scope a ∧
        outer.element? = some t.2 ∧ Scaled a t.2 t.1)
      (fun stop _ => stop.Denies (∃ a type term,
        i.Means s.scope a ∧ outer.element? = some type ∧ Scaled a type term)) := by
  cases fuel with
  | zero => exact Stop.denies_exhausted _
  | succ fuel =>
    have hTokens : Faces s (.mark .openSquare :: (i.tokens ++ .mark .closeSquare :: rest)) := by
      rw [bracketed, List.cons_append, List.append_assoc] at hFaces
      exact hFaces
    rw [subscript]
    refine hTokens.expect fun bracket s₁ hOpen hFaces₁ => ?_
    refine (hi fuel s₁ _ hFaces₁ (Rank.ends_closing _ (by simp))).bind ?_ ?_
    · rw [hOpen.scope]
      intro stop _ hDenies
      refine hDenies.mono ?_
      rintro ⟨a, _, _, ha, _, _⟩
      exact ⟨a, ha⟩
    rintro a s₂ ⟨hSkips, hMeans⟩
    rw [hOpen.scope] at hMeans
    refine (hFaces₁.skip hSkips).expect fun _ s₃ hClose _ => ?_
    split
    · next hElement =>
      rw [yields_failAt]
      refine .inr ⟨⟨_, _, rfl⟩, ?_⟩
      rintro ⟨_, type, _, _, hArray, _⟩
      -- what is no array has no subscripts in the rules either
      cases hElement.symm.trans hArray
    · next type hElement =>
      -- the subscript is scaled, which the rules may refuse at its bracket
      refine (yields_check bracket _ s₃).bind ?_ ?_
      · rintro stop s' ⟨hSemantic, hNone⟩
        refine .inr ⟨hSemantic, ?_⟩
        rintro ⟨a', type', term, ha', hArray, hTerm⟩
        cases hMeans.unique ha'
        cases hElement.symm.trans hArray
        exact hNone term (binary_eq_ok_iff.mpr hTerm)
      · rintro term s₄ ⟨rfl, hBuilt⟩
        exact ⟨a, hOpen.trans (hSkips.trans hClose), hMeans, hElement,
          binary_eq_ok_iff.mp hBuilt⟩

theorem indexes_element {text : String} {i : Phrase .bool}
    (hi : ReadsBack (expr · .disjunction) i) : Indexes (.element text i) := by
  intro fuel s₀ s x span rest onOk onStop hFaces hName hLookup hStop hNext
  cases fuel with
  | zero => exact hStop _ _ (Stop.denies_exhausted _)
  | succ fuel =>
    rw [access]
    refine (yields_subscript hi fuel (Faces.skip hFaces hName)).bind ?_ ?_
    · rw [hName.scope]
      intro stop s' hDenies
      refine hStop stop s' (hDenies.mono ?_)
      rintro ⟨e, he⟩
      cases he with
      | element hLookup' hIndex hArray hTerm =>
        -- the name has one declaration in this scope
        cases hLookup.symm.trans hLookup'
        exact ⟨_, _, _, hIndex, hArray, hTerm⟩
    · rintro ⟨term, type⟩ s₁ ⟨a, hIndex, hMeans, hArray, hTerm⟩
      rw [hName.scope] at hMeans
      exact hNext fuel term type s₁ (hName.trans hIndex) (.element hLookup hMeans hArray hTerm)

theorem indexes_next {y : Phrase .element} {i : Phrase .bool} (hy : Indexes y)
    (hi : ReadsBack (expr · .disjunction) i) : Indexes (.next y i) := by
  intro fuel s₀ s x span rest onOk onStop hFaces hName hLookup hStop hNext
  rw [Phrase.tokens, List.append_assoc] at hFaces
  refine hy fuel s₀ s x span _ onOk onStop hFaces hName hLookup ?_ ?_
  · intro stop s' hDenies
    refine hStop stop s' (hDenies.mono ?_)
    rintro ⟨e, he⟩
    cases he with | next hOuter _ _ _ _ => exact ⟨_, hOuter⟩
  intro fuel' index type s₁ hSkips hMeans
  -- behind the element that has been read another bracket stands
  cases fuel' with
  | zero => exact hStop _ _ (Stop.denies_exhausted _)
  | succ fuel' =>
    have hFaces₁ := hFaces.skip hSkips
    rw [subscripts]
    refine hFaces₁.atMark ?_
    have hHead : (bracketed i.tokens ++ rest).head? = some (.mark .openSquare) := rfl
    rw [hHead, if_pos (beq_self_eq_true _)]
    refine (yields_subscript hi fuel' hFaces₁).bind ?_ ?_
    · rw [hSkips.scope]
      intro stop s' hDenies
      refine hStop stop s' (hDenies.mono ?_)
      rintro ⟨e, he⟩
      cases he with
      | next hOuter hInside hArray hTerm _ =>
        cases hMeans.unique hOuter
        exact ⟨_, _, _, hInside, hArray, hTerm⟩
    rintro ⟨term, element⟩ s₂ ⟨a, hIndex, hInside, hArray, hTerm⟩
    rw [hSkips.scope] at hInside
    refine (yields_check span _ s₂).bind ?_ ?_
    · rintro stop s' ⟨hSemantic, hNone⟩
      refine hStop stop s' (.inr ⟨hSemantic, ?_⟩)
      rintro ⟨e, he⟩
      cases he with
      | next hOuter hInside' hArray' hTerm' hSum =>
        -- all parts of the sum are those that have been read
        cases hMeans.unique hOuter
        cases hInside.unique hInside'
        cases hArray.symm.trans hArray'
        cases hTerm.unique hTerm'
        exact hNone _ (binary_eq_ok_iff.mpr hSum)
    · rintro sum s₃ ⟨rfl, hBuilt⟩
      exact hNext fuel' sum element s₃ (hSkips.trans hIndex)
        (.next hMeans hInside hArray hTerm (binary_eq_ok_iff.mp hBuilt))

/-- Where no bracket follows, the subscripts that have been read are all. -/
theorem Indexes.access {y : Phrase .element} (hy : Indexes y) (fuel : Nat) {s₀ s : ParserState}
    {x : Symbol} {span : Span} {rest : List Token} (hFaces : Faces s₀ (y.tokens ++ rest))
    (hName : Skips s₀ [.name y.array] s) (hLookup : s₀.scope.lookup? y.array = some x)
    (hEnd : rest.head? ≠ some (.mark .openSquare)) :
    Yields (access fuel x span) s
      (fun a s' => Skips s₀ y.tokens s' ∧ y.Means s₀.scope (.ofAccess a))
      (fun stop _ => stop.Denies (y.HasTree s₀.scope)) := by
  refine hy fuel s₀ s x span rest _ _ hFaces hName hLookup (fun _ _ h => h) ?_
  intro fuel' index type s' hSkips hMeans
  cases fuel' with
  | zero => exact Stop.denies_exhausted _
  | succ fuel' =>
    rw [subscripts]
    refine (hFaces.skip hSkips).atMark ?_
    rw [if_neg (by simpa using hEnd)]
    exact ⟨hSkips, hMeans⟩

theorem readsBack_access {x : Phrase .element} (hx : Indexes x) :
    ReadsBack Parser.factor (.access x) := by
  intro fuel s rest hFaces hEnds
  cases fuel with
  | zero => exact Stop.denies_exhausted _
  | succ fuel =>
    rw [Phrase.tokens] at hFaces ⊢
    -- an element shows by the bracket behind the name of its array
    obtain ⟨ts, hTokens⟩ := x.element_tokens rfl
    have hNamed : Faces s (.name x.array :: .mark .openSquare :: (ts ++ rest)) := by
      rw [hTokens] at hFaces
      exact hFaces
    refine yields_factor_name hNamed (x := .access x) ?_ (fun _ _ h => h) ?_
    · intro a ha
      cases ha with
      | access hx =>
        obtain ⟨y, _, _, hLookup, _⟩ := hx.element_access rfl
        exact ⟨y, hLookup⟩
    · intro span y s₁ hName _ hLookup
      have hHead : (.mark .openSquare :: (ts ++ rest)).head? = some (Token.mark .openSquare) := rfl
      rw [hHead, if_pos (beq_self_eq_true _), map_eq_pure_bind]
      refine (hx.access fuel hFaces hName hLookup hEnds.1).bind ?_ ?_
      · intro stop _ hDenies
        refine hDenies.mono ?_
        rintro ⟨e, he⟩
        cases he with | access ha => exact ⟨e, ha⟩
      · rintro a s₂ ⟨hSkips, hMeans⟩
        exact ⟨hSkips, .access hMeans⟩

/-! ## All derivations -/

theorem Rank.Passes.of_level {l : Level} {r : Rank} (h : l.rank.Passes r) :
    r = l.operandRank := by
  cases l <;> cases h <;> rfl

theorem Rank.Passes.level_or_unary {r s : Rank} (h : r.Passes s) :
    (∃ l : Level, l.rank = r) ∨ r = .unary := by
  cases h with
  | bool => exact .inl ⟨.disjunction, rfl⟩
  | join => exact .inl ⟨.conjunction, rfl⟩
  | equality => exact .inl ⟨.equality, rfl⟩
  | rel => exact .inl ⟨.relation, rfl⟩
  | expr => exact .inl ⟨.sum, rfl⟩
  | term => exact .inl ⟨.product, rfl⟩
  | unary => exact .inr rfl

theorem Rank.Joins.level {r left right : Rank} {m : Mark} {op : BinaryOp}
    (h : r.Joins left m op right) : ∃ l : Level, l.rank = r := by
  cases h with
  | or => exact ⟨.disjunction, rfl⟩
  | and => exact ⟨.conjunction, rfl⟩
  | equal | notEqual => exact ⟨.equality, rfl⟩
  | less | lessOrEqual | greater | greaterOrEqual => exact ⟨.relation, rfl⟩
  | plus | minus => exact ⟨.sum, rfl⟩
  | times | slash => exact ⟨.product, rfl⟩

theorem Complete.continues_left {l : Level} {x : Phrase l.leftRank} (hx : Complete x)
    (hChains : l.chains = false) : Continues l x := by
  cases l with
  | relation => exact continues_of_operand (l := .relation) (Complete.operand (l := .relation) hx)
  | _ => cases hChains

theorem complete_binary {l : Level} {left right : Rank} {m : Mark} {op : BinaryOp}
    {h : l.rank.Joins left m op right} {x : Phrase left} {y : Phrase right} (hx : Complete x)
    (hy : Complete y) : Complete (.binary h x y) := by
  obtain ⟨rfl, rfl, hOp⟩ := Level.operator_of_joins h
  cases hChains : l.chains with
  | true =>
    -- operators of one level in a row are read by one chain
    have hLeft : Continues l x := hx.chain l (Level.leftRank_of_chains hChains).symm hChains
    have hContinues : Continues l (.binary h x y) := by
      intro fuel s rest onOk onStop hFaces hEnds hStop hNext
      refine Continues.binary hOp hLeft hy.operand fuel s rest onOk onStop hFaces hEnds hStop ?_
      intro fuel' e s' hSkips hMeans
      rw [if_pos hChains]
      exact hNext fuel' e s' hSkips hMeans
    exact .of_level hContinues.readsBack fun _ => hContinues
  | false =>
    -- a relation has no relation to its left, and none follows it
    have hLeft : Continues l x := hx.continues_left hChains
    refine .of_level ?_ fun h => by rw [hChains] at h; cases h
    intro fuel s rest hFaces hEnds
    refine Continues.binary hOp hLeft hy.operand fuel s rest _ _ hFaces (hEnds.mono ?_)
      (fun _ _ h => h) ?_
    · rw [l.rank_passes.height]
      exact Nat.le_succ _
    · intro fuel' e s' hSkips hMeans
      rw [if_neg (by rw [hChains]; exact Bool.false_ne_true)]
      exact ⟨hSkips, hMeans⟩

/-- **Expressions are accepted.** Where the tokens of a derivation are next and nothing goes on with
it, each function of the parser for its rank reads it (`Complete`). The induction is on the
derivation. -/
theorem Phrase.complete {r : Rank} (x : Phrase r) : Complete x := by
  induction x with
  | @pass r s h x ih =>
    -- a rank above another one is read by a level, or holds unary operators
    rcases h.level_or_unary with ⟨l, rfl⟩ | rfl
    · obtain rfl := h.of_level
      have hContinues : Continues l (.pass h x) := (continues_of_operand ih.operand).pass
      exact .of_level hContinues.readsBack fun _ => hContinues
    · cases h
      exact .of_unary (readsBack_unary_factor (ih.factor rfl))
  | @binary r _ _ _ _ h x y ihx ihy =>
    obtain ⟨l, rfl⟩ := h.level
    exact complete_binary ihx ihy
  | unary h x ih => exact .of_unary (readsBack_unary (ih.unary rfl))
  | paren x ih => exact .of_factor (readsBack_paren (ih.level .disjunction rfl))
  | int value => exact .of_factor (readsBack_literal (.int value))
  | real value => exact .of_factor (readsBack_literal (.real value))
  | truth value => exact .of_factor (readsBack_literal (.truth value))
  | name text => exact .of_factor (readsBack_name text)
  | access x ih => exact .of_factor (readsBack_access (ih.element rfl))
  | element text i ih => exact .of_element (indexes_element (ih.level .disjunction rfl))
  | next y i ihy ih =>
    exact .of_element (indexes_next (ihy.element rfl) (ih.level .disjunction rfl))

end JumpCode
