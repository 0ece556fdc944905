import JumpCode.Proofs.Rules

/-!
# JumpCode — where an `else` belongs

A sequence of tokens with a derivation has one in which every `else` belongs to the nearest `if`
that could have it. If the one obeys the rules, so does the other: an `else` that moves inwards may
come into a loop, but what may stand outside of a loop may stand inside. The trees need not be the
same.

* `Clause.exists_attached` — an `else` behind a statement that is open is taken into it;
* `Clause.exists_nearest` — all of them are, from the inside out.
-/

namespace JumpCode

/-- What obeys the rules somewhere does so inside of a loop, where it may stand for another tree: a
break needs a loop, and the rest does not ask. -/
theorem Clause.Means.in_loop {Γ : Scope} {loop : Option LoopExit} {k : Kind} {x : Clause k}
    {t t' : Tally} {s : k.Tree} (h : x.Means Γ loop t s t') (exit : LoopExit) :
    ∃ s', x.Means Γ (some exit) t s' t' := by
  induction h with
  | empty => exact ⟨_, .empty⟩
  | block _ ih =>
    obtain ⟨_, h⟩ := ih
    exact ⟨_, .block h⟩
  | set hName hValue hSuits => exact ⟨_, .set hName hValue hSuits⟩
  | store hTarget hValue hSuits => exact ⟨_, .store hTarget hValue hSuits⟩
  | ifThen hTest hBool _ ih =>
    obtain ⟨_, h⟩ := ih
    exact ⟨_, .ifThen hTest hBool h⟩
  | ifElse hTest hBool _ _ ih ih' =>
    obtain ⟨_, h⟩ := ih
    obtain ⟨_, h'⟩ := ih'
    exact ⟨_, .ifElse hTest hBool h h'⟩
  -- the body of a loop has the same exit as before
  | whileLoop hTest hBool hBody => exact ⟨_, .whileLoop hTest hBool hBody⟩
  | doLoop hBody hTest hBool => exact ⟨_, .doLoop hBody hTest hBool⟩
  | leave => exact ⟨_, .leave⟩
  | nil => exact ⟨_, .nil⟩
  | cons _ _ ih ih' =>
    obtain ⟨_, h⟩ := ih
    obtain ⟨_, h'⟩ := ih'
    exact ⟨_, .cons h h'⟩
  | braces hDecls _ ih =>
    obtain ⟨_, h⟩ := ih
    exact ⟨_, .braces hDecls h⟩

/-- An `else` behind a statement that is open (`Clause.IsOpen`) belongs to it: the innermost `if` at
its end takes it. -/
theorem Clause.exists_attached {k : Kind} (x : Clause k) (hOpen : x.IsOpen)
    (hNearest : x.NearestElse) (y : Clause .stmt) (hOther : y.NearestElse) :
    ∃ z : Clause k, z.tokens = x.tokens ++ .keyword .elseWord :: y.tokens ∧ z.NearestElse ∧
      ∀ {Γ loop t s t₁ u t'}, x.Means Γ loop t s t₁ → y.Means Γ loop t₁ u t' →
        ∃ s', z.Means Γ loop t s' t' := by
  -- the statement is followed to its end, where the open `if` stands
  induction x with
  | ifThen test body ih =>
    by_cases hBody : body.IsOpen
    · obtain ⟨z, hTokens, hz, hRules⟩ := ih hBody hNearest
      refine ⟨.ifThen test z, by simp [tokens, hTokens], hz, ?_⟩
      intro Γ loop t s t₁ u t' hx hy
      cases hx with
      | ifThen hTest hBool hMeans =>
        obtain ⟨s', h⟩ := hRules hMeans hy
        exact ⟨_, .ifThen hTest hBool h⟩
    -- nothing further inwards is open: this is the nearest `if`
    · refine ⟨.ifElse test body y, by simp [tokens], ⟨hBody, hNearest, hOther⟩, ?_⟩
      intro Γ loop t s t₁ u t' hx hy
      cases hx with | ifThen hTest hBool hMeans => exact ⟨_, .ifElse hTest hBool hMeans hy⟩
  | ifElse test body otherwise _ ih =>
    obtain ⟨hClosed, hBody, hOtherwise⟩ := hNearest
    obtain ⟨z, hTokens, hz, hRules⟩ := ih hOpen hOtherwise
    refine ⟨.ifElse test body z, by simp [tokens, hTokens], ⟨hClosed, hBody, hz⟩, ?_⟩
    intro Γ loop t s t₁ u t' hx hy
    cases hx with
    | ifElse hTest hBool hMeans hMeans' =>
      obtain ⟨s', h⟩ := hRules hMeans' hy
      exact ⟨_, .ifElse hTest hBool hMeans h⟩
  | whileLoop test body ih =>
    obtain ⟨z, hTokens, hz, hRules⟩ := ih hOpen hNearest
    refine ⟨.whileLoop test z, by simp [tokens, hTokens], hz, ?_⟩
    intro Γ loop t s t₁ u t' hx hy
    cases hx with
    | whileLoop hTest hBool hMeans =>
      -- the `else` comes into the loop
      obtain ⟨u', hInside⟩ := hy.in_loop ⟨t.met⟩
      obtain ⟨s', h⟩ := hRules hMeans hInside
      exact ⟨_, .whileLoop hTest hBool h⟩
  | _ => exact hOpen.elim

/-- **Every `else` has a nearest `if`.** The tokens of a derivation have one in which each `else`
belongs to the nearest `if` (`Clause.NearestElse`), which obeys the rules if the other one does. The
induction is on the derivation. -/
theorem Clause.exists_nearest {k : Kind} (x : Clause k) :
    ∃ y : Clause k, y.tokens = x.tokens ∧ y.NearestElse ∧
      ∀ {Γ loop t s t'}, x.Means Γ loop t s t' → ∃ s', y.Means Γ loop t s' t' := by
  induction x with
  | empty => exact ⟨.empty, rfl, trivial, fun h => ⟨_, h⟩⟩
  | set target value => exact ⟨.set target value, rfl, trivial, fun h => ⟨_, h⟩⟩
  | store target value => exact ⟨.store target value, rfl, trivial, fun h => ⟨_, h⟩⟩
  | leave => exact ⟨.leave, rfl, trivial, fun h => ⟨_, h⟩⟩
  | nil => exact ⟨.nil, rfl, trivial, fun h => ⟨_, h⟩⟩
  | block b ih =>
    obtain ⟨y, hTokens, hy, hRules⟩ := ih
    refine ⟨.block y, by simp [tokens, hTokens], hy, ?_⟩
    intro Γ loop t s t' hx
    cases hx with
    | block hMeans =>
      obtain ⟨s', h⟩ := hRules hMeans
      exact ⟨_, .block h⟩
  | ifThen test body ih =>
    obtain ⟨y, hTokens, hy, hRules⟩ := ih
    refine ⟨.ifThen test y, by simp [tokens, hTokens], hy, ?_⟩
    intro Γ loop t s t' hx
    cases hx with
    | ifThen hTest hBool hMeans =>
      obtain ⟨s', h⟩ := hRules hMeans
      exact ⟨_, .ifThen hTest hBool h⟩
  | ifElse test body otherwise ih ih' =>
    obtain ⟨y, hTokens, hy, hRules⟩ := ih
    obtain ⟨z, hTokens', hz, hRules'⟩ := ih'
    -- the branches are settled first, and then who owns the `else` between them
    by_cases hOpen : y.IsOpen
    · -- the first branch is open, and takes the `else` into it
      obtain ⟨w, hAttached, hw, hRulesAttached⟩ := y.exists_attached hOpen hy z hz
      refine ⟨.ifThen test w, by simp [tokens, hAttached, hTokens, hTokens'], hw, ?_⟩
      intro Γ loop t s t' hx
      cases hx with
      | ifElse hTest hBool hMeans hMeans' =>
        obtain ⟨_, h⟩ := hRules hMeans
        obtain ⟨_, h'⟩ := hRules' hMeans'
        obtain ⟨s', hBoth⟩ := hRulesAttached h h'
        exact ⟨_, .ifThen hTest hBool hBoth⟩
    · refine ⟨.ifElse test y z, by simp [tokens, hTokens, hTokens'], ⟨hOpen, hy, hz⟩, ?_⟩
      intro Γ loop t s t' hx
      cases hx with
      | ifElse hTest hBool hMeans hMeans' =>
        obtain ⟨_, h⟩ := hRules hMeans
        obtain ⟨_, h'⟩ := hRules' hMeans'
        exact ⟨_, .ifElse hTest hBool h h'⟩
  | whileLoop test body ih =>
    obtain ⟨y, hTokens, hy, hRules⟩ := ih
    refine ⟨.whileLoop test y, by simp [tokens, hTokens], hy, ?_⟩
    intro Γ loop t s t' hx
    cases hx with
    | whileLoop hTest hBool hMeans =>
      obtain ⟨s', h⟩ := hRules hMeans
      exact ⟨_, .whileLoop hTest hBool h⟩
  | doLoop body test ih =>
    obtain ⟨y, hTokens, hy, hRules⟩ := ih
    refine ⟨.doLoop y test, by simp [tokens, hTokens], hy, ?_⟩
    intro Γ loop t s t' hx
    cases hx with
    | doLoop hMeans hTest hBool =>
      obtain ⟨s', h⟩ := hRules hMeans
      exact ⟨_, .doLoop h hTest hBool⟩
  | cons first others ih ih' =>
    obtain ⟨y, hTokens, hy, hRules⟩ := ih
    obtain ⟨z, hTokens', hz, hRules'⟩ := ih'
    refine ⟨.cons y z, by simp [tokens, hTokens, hTokens'], ⟨hy, hz⟩, ?_⟩
    intro Γ loop t s t' hx
    cases hx with
    | cons hMeans hMeans' =>
      obtain ⟨_, h⟩ := hRules hMeans
      obtain ⟨_, h'⟩ := hRules' hMeans'
      exact ⟨_, .cons h h'⟩
  | braces ds items ih =>
    obtain ⟨y, hTokens, hy, hRules⟩ := ih
    refine ⟨.braces ds y, by simp [tokens, hTokens], hy, ?_⟩
    intro Γ loop t s t' hx
    cases hx with
    | braces hDecls hMeans =>
      obtain ⟨_, h⟩ := hRules hMeans
      exact ⟨_, .braces hDecls h⟩

end JumpCode
