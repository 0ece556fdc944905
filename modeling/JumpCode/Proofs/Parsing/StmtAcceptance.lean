import JumpCode.Proofs.Parsing.ExprAcceptance
import JumpCode.Proofs.Parsing.StmtReading

/-!
# JumpCode — which statements are accepted

As for expressions: where the tokens of a derivation are next, the parser reads this derivation,
provided that every `else` in it belongs to the nearest `if` and that no `else` follows which could
belong to it as well. It stops only if its fuel is used up or the derivation breaks a rule.

* `accepts_decls` — declarations;
* `accepts_ifStmt`, `accepts_whileStmt`, `accepts_doStmt`, `accepts_breakStmt`, `accepts_set`,
  `accepts_store` — the forms of statements;
* `Clause.accepted` — statements and blocks, by induction on the derivation.
-/

namespace JumpCode

open JumpCode.Parser

/-! ## Types of declarations -/

theorem Ty.Covers.unique {t u of : Ty} {ns : List Int} (h : t.Covers of ns)
    (h' : u.Covers of ns) : t = u :=
  Ty.eq_of_lengths (h.base.trans h'.base.symm) (h.lengths.trans h'.lengths.symm)

theorem Ty.covers_nil (t : Ty) : t.Covers t [] := ⟨rfl, rfl⟩

theorem Ty.Covers.eq_of_nil {t of : Ty} (h : t.Covers of []) : t = of := h.unique of.covers_nil

/-- A type under dimensions is an array of the type under all of them but the first: `Ty.array?` is
one step of `Ty.Covers`. -/
theorem Ty.covers_cons_iff {t of : Ty} {n : Int} {ns : List Int} :
    t.Covers of (n :: ns) ↔ ∃ u, u.Covers of ns ∧ Ty.array? (lengthOf n) u = some t := by
  constructor
  · rintro ⟨hBase, hLengths⟩
    obtain ⟨base, lengths, hAddressable⟩ := t
    cases hBase
    cases hLengths
    -- what is left without the first dimension is addressable by itself
    refine ⟨⟨of.base, ns.map lengthOf ++ of.lengths, hAddressable.2⟩, ⟨rfl, rfl⟩, ?_⟩
    exact dif_pos hAddressable.1
  · rintro ⟨u, hu, hArray⟩
    obtain ⟨hBase, hLengths⟩ := array_lengths hArray
    refine ⟨hBase.trans hu.base, ?_⟩
    rw [hLengths, hu.lengths]
    rfl

/-- Since dimensions stand on one side alone, it does not matter that those behind the name are
laid over the type before it. -/
theorem Decl.hasType_iff {d : Decl} {t : Ty} :
    d.HasType t ↔
      ∃ outer : Ty, outer.Covers (.scalar d.base) d.before ∧ t.Covers outer d.after := by
  rcases d.oneSided with hNone | hNone
  · rw [hNone]
    constructor
    · rintro ⟨hBase, hLengths⟩
      rw [hNone] at hLengths
      exact ⟨.scalar d.base, Ty.covers_nil _, hBase, hLengths.trans (List.append_nil _).symm⟩
    · rintro ⟨outer, hOuter, hBase, hLengths⟩
      cases hOuter.eq_of_nil
      refine ⟨hBase, ?_⟩
      rw [hNone]
      exact hLengths.trans (List.append_nil _)
  · rw [hNone]
    constructor
    · rintro ⟨hBase, hLengths⟩
      rw [hNone, List.append_nil] at hLengths
      exact ⟨t, ⟨hBase, hLengths.trans (List.append_nil _).symm⟩, Ty.covers_nil t⟩
    · rintro ⟨outer, ⟨hBase, hLengths⟩, hAfter⟩
      cases hAfter.eq_of_nil
      refine ⟨hBase, ?_⟩
      rw [hNone, List.append_nil]
      exact hLengths.trans (List.append_nil _)

/-! ## Declarations -/

section Decls

variable {s : ParserState} {rest : List Token}

theorem dimsTokens_head {ns : List Int} (h : ns ≠ []) (ts : List Token) :
    (dimsTokens ns ++ ts).head? = some (.mark .openSquare) := by
  cases ns with
  | nil => exact absurd rfl h
  | cons n ns => rfl

/-- Where the dimensions to come are known, the token that is next tells whether there are any, and
`optionalDims` looks at no more. -/
theorem Faces.optionalDims {fuel : Nat} {of : Ty} {ns : List Int}
    {onOk : Ty → ParserState → Prop} {onStop : Stop → ParserState → Prop}
    (hFaces : Faces s (dimsTokens ns ++ rest)) (hEnd : rest.head? ≠ some (.mark .openSquare))
    (hNone : ns = [] → onOk of s) (hDims : ns ≠ [] → Yields (dims fuel of) s onOk onStop) :
    Yields (Parser.optionalDims fuel of) s onOk onStop := by
  rw [Parser.optionalDims]
  refine hFaces.atMark ?_
  by_cases hEmpty : ns = []
  · subst hEmpty
    rw [if_neg (by simpa [dimsTokens] using hEnd)]
    exact hNone rfl
  · rw [dimsTokens_head hEmpty, if_pos (beq_self_eq_true _)]
    exact hDims hEmpty

/-- What reads dimensions where there are some reads them where there need not be any. -/
theorem accepts_optionalDims_of {fuel : Nat} {of : Ty} {ns : List Int}
    (hDims : ns ≠ [] → Yields (dims fuel of) s
      (fun t s' => Skips s (dimsTokens ns) s' ∧ t.Covers of ns)
      (fun stop _ => stop.Denies (∃ t : Ty, t.Covers of ns)))
    (hFaces : Faces s (dimsTokens ns ++ rest)) (hEnd : rest.head? ≠ some (.mark .openSquare)) :
    Yields (optionalDims fuel of) s (fun t s' => Skips s (dimsTokens ns) s' ∧ t.Covers of ns)
      (fun stop _ => stop.Denies (∃ t : Ty, t.Covers of ns)) := by
  refine hFaces.optionalDims hEnd ?_ hDims
  rintro rfl
  exact ⟨Skips.refl s, of.covers_nil⟩

theorem accepts_dims (fuel : Nat) (of : Ty) {ns : List Int} (hSome : ns ≠ [])
    (hFaces : Faces s (dimsTokens ns ++ rest)) (hEnd : rest.head? ≠ some (.mark .openSquare)) :
    Yields (dims fuel of) s (fun t s' => Skips s (dimsTokens ns) s' ∧ t.Covers of ns)
      (fun stop _ => stop.Denies (∃ t : Ty, t.Covers of ns)) := by
  induction ns generalizing fuel s with
  | nil => exact absurd rfl hSome
  | cons n ns ih =>
    cases fuel with
    | zero => exact Stop.denies_exhausted _
    | succ fuel =>
      have hTokens : Faces s (.mark .openSquare :: .intLiteral n :: .mark .closeSquare ::
          (dimsTokens ns ++ rest)) := hFaces
      rw [dims]
      refine hTokens.expect fun _ s₁ hOpen hFaces₁ => ?_
      refine hFaces₁.next fun found s₂ hValue hLength hFaces₂ => ?_
      rw [hValue]
      refine hFaces₂.expect fun _ s₃ hClose hFaces₃ => ?_
      -- the inner dimensions are read before the array is made
      have hFirst : Skips s (bracketed [.intLiteral n]) s₃ := hOpen.trans (hLength.trans hClose)
      dsimp only
      rw [optionalDims_bind]
      refine (accepts_optionalDims_of (fun h => ih fuel h hFaces₃) hFaces₃ hEnd).bind ?_ ?_
      · intro stop _ hDenies
        refine hDenies.mono ?_
        rintro ⟨t, ht⟩
        obtain ⟨u, hu, _⟩ := Ty.covers_cons_iff.mp ht
        exact ⟨u, hu⟩
      rintro u s₄ ⟨hMore, hu⟩
      split
      · next t hArray => exact ⟨hFirst.trans hMore, Ty.covers_cons_iff.mpr ⟨u, hu, hArray⟩⟩
      · next hArray =>
        rw [yields_failAt]
        refine .inr ⟨⟨_, _, rfl⟩, ?_⟩
        rintro ⟨t, ht⟩
        obtain ⟨u', hu', hArray'⟩ := Ty.covers_cons_iff.mp ht
        -- the parser has the only type there can be for the inner dimensions
        cases hu.unique hu'
        cases hArray.symm.trans hArray'

theorem accepts_optionalDims (fuel : Nat) (of : Ty) {ns : List Int}
    (hFaces : Faces s (dimsTokens ns ++ rest)) (hEnd : rest.head? ≠ some (.mark .openSquare)) :
    Yields (optionalDims fuel of) s (fun t s' => Skips s (dimsTokens ns) s' ∧ t.Covers of ns)
      (fun stop _ => stop.Denies (∃ t : Ty, t.Covers of ns)) :=
  accepts_optionalDims_of (fun hSome => accepts_dims fuel of hSome hFaces hEnd) hFaces hEnd

theorem accepts_type (fuel : Nat) {b : Scalar} {ns : List Int}
    (hFaces : Faces s (.scalar b :: (dimsTokens ns ++ rest)))
    (hEnd : rest.head? ≠ some (.mark .openSquare)) :
    Yields (type fuel) s
      (fun t s' => Skips s (.scalar b :: dimsTokens ns) s' ∧ t.Covers (.scalar b) ns)
      (fun stop _ => stop.Denies (∃ t : Ty, t.Covers (.scalar b) ns)) := by
  rw [type]
  refine hFaces.next fun found s₁ hValue hScalar hFaces₁ => ?_
  rw [hValue]
  refine (accepts_optionalDims fuel (.scalar b) hFaces₁ hEnd).mono ?_ (fun _ _ h => h)
  rintro t s₂ ⟨hDims, ht⟩
  exact ⟨hScalar.trans hDims, ht⟩

/-- Declarations obey the rules where a parser stands: `Declares` leads from its scope and storage
to others. -/
def ParserState.CanDeclare (s : ParserState) (ds : List Decl) : Prop :=
  ∃ Γ used, Declares s.scope s.used ds Γ used

theorem canDeclare_singleton {d : Decl} (h : s.CanDeclare [d]) :
    ∃ t, d.HasType t ∧ s.used + t.width ≤ maxWidth ∧ s.scope.frame.lookup? d.name = none := by
  obtain ⟨_, _, hDeclares⟩ := h
  cases hDeclares with | cons hType hFits hNew _ => exact ⟨_, hType, hFits, hNew⟩

theorem accepts_decl (fuel : Nat) {d : Decl} (hFaces : Faces s (d.tokens ++ rest)) :
    Yields (decl fuel) s (fun _ s' => DeclaresOn s [d] s')
      (fun stop _ => stop.Denies (s.CanDeclare [d])) := by
  have hTokens : Faces s (.scalar d.base :: (dimsTokens d.before ++ .name d.name ::
      (dimsTokens d.after ++ .mark .semicolon :: rest))) := by
    simpa [Decl.tokens] using hFaces
  rw [decl]
  refine (accepts_type fuel hTokens (by simp)).bind ?_ ?_
  · intro stop _ hDenies
    refine hDenies.mono fun h => ?_
    obtain ⟨t, hType, _⟩ := canDeclare_singleton h
    obtain ⟨outer, hOuter, _⟩ := Decl.hasType_iff.mp hType
    exact ⟨outer, hOuter⟩
  rintro outer s₁ ⟨hScalar, hOuter⟩
  -- with the type read, the name is next
  have hFaces₁ : Faces s₁ (.name d.name :: (dimsTokens d.after ++ .mark .semicolon :: rest)) := by
    rw [← List.cons_append] at hTokens
    exact hTokens.skip hScalar
  refine hFaces₁.name fun found s₂ hText hName hFaces₂ => ?_
  refine hFaces₂.atMark ?_
  -- dimensions stand on one side, so that there is no complaint about them
  have hOneSided : ¬((dimsTokens d.after ++ .mark .semicolon :: rest).head? ==
      some (.mark .openSquare) && outer.isArray) = true := by
    rcases d.oneSided with hNone | hNone
    · rw [hNone] at hOuter
      rw [hOuter.eq_of_nil]
      simp [Ty.isArray, Ty.scalar]
    · simp [hNone, dimsTokens]
  dsimp only
  rw [if_neg hOneSided]
  refine (accepts_optionalDims fuel outer hFaces₂ (by simp)).bind ?_ ?_
  · intro stop _ hDenies
    refine hDenies.mono fun h => ?_
    obtain ⟨t, hType, _⟩ := canDeclare_singleton h
    obtain ⟨outer', hOuter', ht⟩ := Decl.hasType_iff.mp hType
    -- the type before the name is the one that the parser has read
    cases hOuter.unique hOuter'
    exact ⟨t, ht⟩
  rintro t s₃ ⟨hAfter, ht⟩
  have hType : d.HasType t := Decl.hasType_iff.mpr ⟨outer, hOuter, ht⟩
  refine (hFaces₂.skip hAfter).expect fun _ s₄ hEnd _ => ?_
  have hSkips : Skips s d.tokens s₄ := by
    have h := hScalar.trans (hName.trans (hAfter.trans hEnd))
    rw [List.cons_append] at h
    exact h
  rw [hText]
  refine (yields_declare d.name t found.span s₄).mono ?_ ?_
  · rintro - s₅ ⟨hFits, hNew, rfl⟩
    exact .single hSkips hType hFits hNew
  · rintro stop _ ⟨hSemantic, hRefused⟩
    -- the refusal is that of the only type that the declaration can give
    refine .inr ⟨hSemantic, fun h => hRefused ?_⟩
    obtain ⟨t', hType', hFits, hNew⟩ := canDeclare_singleton h
    cases hType.unique hType'
    rw [hSkips.used, hSkips.scope]
    exact ⟨hFits, hNew⟩

theorem Declares.split {Γ Γ₂ : Scope} {u u₂ : Nat} {d : Decl} {ds : List Decl}
    (h : Declares Γ u (d :: ds) Γ₂ u₂) :
    ∃ Γ₁ u₁, Declares Γ u [d] Γ₁ u₁ ∧ Declares Γ₁ u₁ ds Γ₂ u₂ := by
  cases h with
  | cons hType hFits hNew hRest => exact ⟨_, _, .cons hType hFits hNew .nil, hRest⟩

theorem accepts_decls (fuel : Nat) {ds : List Decl}
    (hFaces : Faces s (ds.flatMap Decl.tokens ++ rest))
    (hEnd : ∀ b, rest.head? ≠ some (.scalar b)) :
    Yields (decls fuel) s (fun _ s' => DeclaresOn s ds s')
      (fun stop _ => stop.Denies (s.CanDeclare ds)) := by
  induction ds generalizing fuel s with
  | nil =>
    cases fuel with
    | zero => exact Stop.denies_exhausted _
    | succ fuel =>
      rw [decls]
      refine hFaces.peek ?_
      split
      · next b hHead => exact absurd hHead (hEnd b)
      · exact ⟨Moves.refl s, rfl, .nil⟩
  | cons d ds ih =>
    cases fuel with
    | zero => exact Stop.denies_exhausted _
    | succ fuel =>
      rw [List.flatMap_cons, List.append_assoc] at hFaces
      rw [decls]
      refine hFaces.peek ?_
      show Yields (decl fuel >>= fun _ => decls fuel) s _ _
      refine (accepts_decl fuel hFaces).bind ?_ ?_
      · -- what is denied to the first declaration is denied to all of them
        intro stop _ hDenies
        refine hDenies.mono ?_
        rintro ⟨_, _, hDeclares⟩
        obtain ⟨_, _, hFirst, _⟩ := hDeclares.split
        exact ⟨_, _, hFirst⟩
      rintro - s₁ hFirst
      have hTokens := hFirst.moves
      rw [List.flatMap_singleton] at hTokens
      refine (ih fuel (hFaces.moves hTokens)).mono ?_ ?_
      · intro _ s₂ hRest
        exact hFirst.cons hRest
      · intro stop _ hDenies
        refine hDenies.mono ?_
        rintro ⟨_, _, hDeclares⟩
        obtain ⟨_, _, hFirst', hRest⟩ := hDeclares.split
        -- declarations in a row determine the scope in which the next one stands
        obtain ⟨rfl, rfl⟩ := hFirst.declares.unique hFirst'
        exact ⟨_, _, hRest⟩

end Decls

/-! ## Forms of statements -/

/-- A condition has a tree, which is a truth value. -/
def Phrase.IsCondition (Γ : Scope) (test : Phrase .bool) : Prop :=
  ∃ c, test.Means Γ c ∧ c.type = .bool

/-- A derivation stands for some tree (`Clause.Means`), in this scope and loop and behind this
storage and these loops. -/
def Clause.HasTree {k : Kind} (Γ : Scope) (loop : Option LoopExit) (t : Tally) (x : Clause k) :
    Prop :=
  ∃ s t', x.Means Γ loop t s t'

namespace Clause.HasTree

variable {Γ : Scope} {loop : Option LoopExit} {t : Tally} {test value : Phrase .bool}
  {x y : Clause .stmt}

theorem of_set {target : String} (h : (Clause.set target value).HasTree Γ loop t) :
    ∃ x a, Γ.lookup? target = some x ∧ value.Means Γ a ∧ SuitsVariable x.type a.type := by
  obtain ⟨_, _, hMeans⟩ := h
  cases hMeans with | set hName hValue hSuits => exact ⟨_, _, hName, hValue, hSuits⟩

theorem of_store {target : Phrase .element} (h : (Clause.store target value).HasTree Γ loop t) :
    ∃ x index type a, target.Means Γ (.access x index type) ∧ value.Means Γ a ∧
      SuitsElement type a.type := by
  obtain ⟨_, _, hMeans⟩ := h
  cases hMeans with | store hTarget hValue hSuits => exact ⟨_, _, _, _, hTarget, hValue, hSuits⟩

theorem of_leave (h : Clause.leave.HasTree Γ loop t) : loop ≠ none := by
  obtain ⟨_, _, hMeans⟩ := h
  cases hMeans
  exact Option.some_ne_none _

theorem of_block {b : Clause .block} (h : (Clause.block b).HasTree Γ loop t) :
    b.HasTree Γ loop t := by
  obtain ⟨_, _, hMeans⟩ := h
  cases hMeans with | block hBlock => exact ⟨_, _, hBlock⟩

theorem of_ifThen (h : (Clause.ifThen test x).HasTree Γ loop t) :
    test.IsCondition Γ ∧ x.HasTree Γ loop t := by
  obtain ⟨_, _, hMeans⟩ := h
  cases hMeans with | ifThen hTest hBool hBody => exact ⟨⟨_, hTest, hBool⟩, _, _, hBody⟩

theorem of_ifElse (h : (Clause.ifElse test x y).HasTree Γ loop t) :
    test.IsCondition Γ ∧ ∃ s t', x.Means Γ loop t s t' ∧ y.HasTree Γ loop t' := by
  obtain ⟨_, _, hMeans⟩ := h
  cases hMeans with
  | ifElse hTest hBool hBody hOtherwise =>
    exact ⟨⟨_, hTest, hBool⟩, _, _, hBody, _, _, hOtherwise⟩

theorem of_whileLoop (h : (Clause.whileLoop test x).HasTree Γ loop t) :
    test.IsCondition Γ ∧ x.HasTree Γ (some ⟨t.met⟩) { t with met := t.met + 1 } := by
  obtain ⟨_, _, hMeans⟩ := h
  cases hMeans with | whileLoop hTest hBool hBody => exact ⟨⟨_, hTest, hBool⟩, _, _, hBody⟩

theorem of_doLoop (h : (Clause.doLoop x test).HasTree Γ loop t) :
    x.HasTree Γ (some ⟨t.met⟩) { t with met := t.met + 1 } ∧ test.IsCondition Γ := by
  obtain ⟨_, _, hMeans⟩ := h
  cases hMeans with | doLoop hBody hTest hBool => exact ⟨⟨_, _, hBody⟩, _, hTest, hBool⟩

theorem of_cons {xs : Clause .stmts} (h : (Clause.cons x xs).HasTree Γ loop t) :
    ∃ s t', x.Means Γ loop t s t' ∧ xs.HasTree Γ loop t' := by
  obtain ⟨_, _, hMeans⟩ := h
  cases hMeans with | cons hFirst hOthers => exact ⟨_, _, hFirst, _, _, hOthers⟩

theorem of_braces {ds : List Decl} {xs : Clause .stmts}
    (h : (Clause.braces ds xs).HasTree Γ loop t) :
    ∃ Γ' used, Declares Γ.enter t.used ds Γ' used ∧
      xs.HasTree Γ' loop { t with used := used } := by
  obtain ⟨_, _, hMeans⟩ := h
  cases hMeans with | braces hDecls hItems => exact ⟨_, _, hDecls, _, _, hItems⟩

end Clause.HasTree

/-- What follows a derivation does not go on with it: no `else` follows one that `IsOpen`, and
statements in a row are followed by the brace that ends them. -/
def Clause.EndsBefore {k : Kind} (x : Clause k) (t : Option Token) : Prop :=
  match k with
  | .stmt => x.IsOpen → t ≠ some (.keyword .elseWord)
  | .stmts => t = some (.mark .closeCurly)
  | .block => True

/-- A parser reads this derivation where its tokens are next: it `Builds` the tree, or stops and
`Denies` that there is one. -/
def Clause.AcceptedBy {k : Kind} (x : Clause k) (p : Parser k.Tree) : Prop :=
  ∀ s rest, Faces s (x.tokens ++ rest) → x.EndsBefore rest.head? →
    Yields p s (fun t s' => Builds s x t s')
      (fun stop _ => stop.Denies (x.HasTree s.scope s.loops.head? s.tally))

section Forms

variable {fuel : Nat} {s : ParserState} {rest : List Token} {test value : Phrase .bool}
  {x y : Clause .stmt} {body : Parser Stmt}

theorem accepts_condition (construct : Construct) (span : Span)
    (hFaces : Faces s (parenthesized test.tokens ++ rest)) :
    Yields (condition fuel construct span) s
      (fun c s' => Skips s (parenthesized test.tokens) s' ∧ test.Means s.scope c ∧ c.type = .bool)
      (fun stop _ => stop.Denies (test.IsCondition s.scope)) := by
  have hTokens : Faces s (.mark .openParen :: (test.tokens ++ .mark .closeParen :: rest)) := by
    rw [parenthesized, List.cons_append, List.append_assoc] at hFaces
    exact hFaces
  rw [condition]
  refine hTokens.expect fun _ s₁ hOpen hFaces₁ => ?_
  refine (test.complete.level .disjunction rfl fuel s₁ _ hFaces₁
    (Rank.ends_closing _ (by simp))).bind ?_ ?_
  · rw [hOpen.scope]
    intro stop _ hDenies
    refine hDenies.mono ?_
    rintro ⟨c, hc, _⟩
    exact ⟨c, hc⟩
  rintro c s₂ ⟨hTest, hMeans⟩
  rw [hOpen.scope] at hMeans
  refine (hFaces₁.skip hTest).expect fun _ s₃ hClose _ => ?_
  split
  · next hBool => exact ⟨hOpen.trans (hTest.trans hClose), hMeans, hBool⟩
  · next hBool =>
    rw [yields_failAt]
    -- the tree that has been read is the only one, and it is no truth value
    refine .inr ⟨⟨_, _, rfl⟩, ?_⟩
    rintro ⟨c', hc', hBool'⟩
    cases hMeans.unique hc'
    exact hBool hBool'

theorem accepts_set {target : String} : (Clause.set target value).AcceptedBy (assignment fuel) := by
  intro s rest hFaces _
  have hTokens : Faces s (.name target :: .mark .assign :: (value.tokens ++
      .mark .semicolon :: rest)) := by
    simpa [Clause.tokens] using hFaces
  rw [assignment]
  refine hTokens.name fun found s₁ hText hName hFaces₁ => ?_
  rw [hText]
  refine (yields_resolve target _ s₁).bind ?_ ?_
  · rintro stop _ ⟨hSemantic, hNone⟩
    rw [hName.scope] at hNone
    refine .inr ⟨hSemantic, ?_⟩
    intro h
    obtain ⟨_, _, hLookup, _⟩ := h.of_set
    cases hNone.symm.trans hLookup
  rintro x s₂ ⟨rfl, hLookup⟩
  rw [hName.scope] at hLookup
  -- an assignment to a variable is told from one to an element by the mark behind the name
  refine hFaces₁.atMark ?_
  rw [List.head?_cons, beq_self_eq_true]
  dsimp only
  rw [if_pos rfl]
  refine hFaces₁.expect fun sign s₃ hSign hFaces₃ => ?_
  refine (value.complete.level .disjunction rfl fuel s₃ _ hFaces₃
    (Rank.ends_closing _ (by simp))).bind ?_ ?_
  · rw [hSign.scope, hName.scope]
    intro stop _ hDenies
    refine hDenies.mono fun h => ?_
    obtain ⟨_, a, _, hValue, _⟩ := h.of_set
    exact ⟨a, hValue⟩
  rintro a s₄ ⟨hValue, hMeans⟩
  rw [hSign.scope, hName.scope] at hMeans
  split
  · next hSuits =>
    rw [pure_bind]
    refine (hFaces₃.skip hValue).expect fun _ s₅ hEnd _ => ?_
    have hSkips := hName.trans (hSign.trans (hValue.trans hEnd))
    exact .of_skips hSkips (.set hLookup hMeans (assignable_iff.mp hSuits))
  · next hSuits =>
    rw [yields_failAt_bind]
    refine .inr ⟨⟨_, _, rfl⟩, ?_⟩
    intro h
    obtain ⟨_, _, hLookup', hValue', hSuits'⟩ := h.of_set
    -- the rules would find the same variable and the same value
    cases hLookup.symm.trans hLookup'
    cases hMeans.unique hValue'
    exact hSuits (assignable_iff.mpr hSuits')

theorem accepts_store {target : Phrase .element} :
    (Clause.store target value).AcceptedBy (assignment fuel) := by
  intro s rest hFaces _
  have hTarget : Faces s (target.tokens ++ .mark .assign :: (value.tokens ++
      .mark .semicolon :: rest)) := by
    simpa [Clause.tokens] using hFaces
  -- an element begins with the name of its array and a bracket
  obtain ⟨ts, hElement⟩ := target.element_tokens rfl
  have hTokens : Faces s (.name target.array :: .mark .openSquare :: (ts ++
      .mark .assign :: (value.tokens ++ .mark .semicolon :: rest))) := by
    rw [hElement] at hTarget
    exact hTarget
  rw [assignment]
  refine hTokens.name fun found s₁ hText hName hFaces₁ => ?_
  rw [hText]
  refine (yields_resolve target.array _ s₁).bind ?_ ?_
  · rintro stop _ ⟨hSemantic, hNone⟩
    rw [hName.scope] at hNone
    refine .inr ⟨hSemantic, ?_⟩
    intro h
    obtain ⟨_, _, _, _, hElement, _⟩ := h.of_store
    obtain ⟨_, _, _, hLookup, _⟩ := hElement.element_access rfl
    cases hNone.symm.trans hLookup
  rintro x s₂ ⟨rfl, hLookup⟩
  rw [hName.scope] at hLookup
  -- a bracket is not the sign, so that an element is read from the name on
  refine hFaces₁.atMark ?_
  have hNot : (some (Token.mark .openSquare) == some (.mark .assign)) = false := rfl
  rw [List.head?_cons, hNot]
  dsimp only
  rw [if_neg Bool.false_ne_true]
  refine ((target.complete.element rfl).access fuel hTarget hName hLookup (by simp)).bind ?_ ?_
  · intro stop _ hDenies
    refine hDenies.mono fun h => ?_
    obtain ⟨_, _, _, _, hElement, _⟩ := h.of_store
    exact ⟨_, hElement⟩
  rintro ⟨y, index, type⟩ s₃ ⟨hSkips, hElement⟩
  -- from here on as for a variable
  have hFaces₃ := hTarget.skip hSkips
  refine hFaces₃.expect fun sign s₄ hSign hFaces₄ => ?_
  refine (value.complete.level .disjunction rfl fuel s₄ _ hFaces₄
    (Rank.ends_closing _ (by simp))).bind ?_ ?_
  · rw [hSign.scope, hSkips.scope]
    intro stop _ hDenies
    refine hDenies.mono fun h => ?_
    obtain ⟨_, _, _, a, _, hValue, _⟩ := h.of_store
    exact ⟨a, hValue⟩
  rintro a s₅ ⟨hValue, hMeans⟩
  rw [hSign.scope, hSkips.scope] at hMeans
  split
  · next hSuits =>
    rw [pure_bind]
    refine (hFaces₄.skip hValue).expect fun _ s₆ hEnd _ => ?_
    have hRead := hSkips.trans (hSign.trans (hValue.trans hEnd))
    exact .of_skips hRead (.store hElement hMeans (storable_iff.mp hSuits))
  · next hSuits =>
    rw [yields_failAt_bind]
    refine .inr ⟨⟨_, _, rfl⟩, ?_⟩
    intro h
    obtain ⟨_, _, _, _, hElement', hValue', hSuits'⟩ := h.of_store
    -- the rules would find the same element and the same value
    cases hElement.unique hElement'
    cases hMeans.unique hValue'
    exact hSuits (storable_iff.mpr hSuits')

theorem accepts_breakStmt : Clause.leave.AcceptedBy breakStmt := by
  intro s rest hFaces _
  rw [breakStmt]
  refine Faces.expect hFaces fun _ s₁ hWord hFaces₁ => ?_
  rw [yields_get]
  split
  · next hLoops =>
    rw [yields_failAt]
    -- outside of all loops the rules refuse a break as well
    refine .inr ⟨⟨_, _, rfl⟩, fun h => h.of_leave ?_⟩
    rw [← hWord.loops, hLoops]
    rfl
  · next exit others hLoops =>
    refine Faces.expect hFaces₁ fun _ s₂ hEnd _ => ?_
    refine .of_skips (hWord.trans hEnd) ?_
    rw [← hWord.loops, hLoops]
    exact .leave

/-- Reading a conditional goes on behind its first branch. -/
theorem accepts_ifStmt {onOk : Stmt → ParserState → Prop} {onStop : Stop → ParserState → Prop}
    (hBody : x.AcceptedBy body)
    (hFaces : Faces s (.keyword .ifWord :: (parenthesized test.tokens ++ (x.tokens ++ rest))))
    (hEnds : x.EndsBefore rest.head?)
    (hStop : ∀ stop s', stop.Denies (test.IsCondition s.scope ∧
      x.HasTree s.scope s.loops.head? s.tally) → onStop stop s')
    (hNext : ∀ c t s₁ s₂, Skips s (.keyword .ifWord :: parenthesized test.tokens) s₁ →
      test.Means s.scope c → c.type = .bool → Builds s₁ x t s₂ → Faces s₂ rest →
      Yields (if rest.head? == some (.keyword .elseWord) then
        next >>= fun _ => body >>= fun u => pure (.ifElse c t u) else pure (.ifThen c t))
        s₂ onOk onStop) :
    Yields (ifStmt fuel body) s onOk onStop := by
  rw [ifStmt]
  refine hFaces.expect fun span s₁ hIf hFaces₁ => ?_
  refine (accepts_condition _ span hFaces₁).bind ?_ ?_
  · rw [hIf.scope]
    intro stop s' hDenies
    -- whatever the condition or the branch is denied, the statement is
    exact hStop stop s' (hDenies.mono And.left)
  rintro c s₂ ⟨hTest, hMeans, hBool⟩
  rw [hIf.scope] at hMeans
  have hHead := hIf.trans hTest
  have hFaces₂ := hFaces₁.skip hTest
  refine (hBody s₂ rest hFaces₂ hEnds).bind ?_ ?_
  · rw [hHead.scope, hHead.loops, hHead.tally]
    intro stop s' hDenies
    exact hStop stop s' (hDenies.mono And.right)
  intro t s₃ hx
  have hFaces₃ := hFaces₂.moves hx.moves
  exact hFaces₃.peek (hNext c t s₂ s₃ hHead hMeans hBool hx hFaces₃)

theorem accepts_ifThen (hBody : x.AcceptedBy body) :
    (Clause.ifThen test x).AcceptedBy (ifStmt fuel body) := by
  intro s rest hFaces hEnds
  have hTokens :
      Faces s (.keyword .ifWord :: (parenthesized test.tokens ++ (x.tokens ++ rest))) := by
    simpa [Clause.tokens] using hFaces
  have hElse : rest.head? ≠ some (.keyword .elseWord) := hEnds trivial
  refine accepts_ifStmt hBody hTokens (fun _ => hElse) ?_ ?_
  · intro stop _ hDenies
    exact hDenies.mono Clause.HasTree.of_ifThen
  · intro c t s₁ s₂ hHead hMeans hBool hx _
    rw [if_neg (by simpa using hElse)]
    exact .ifThen hHead hMeans hBool hx

theorem accepts_ifElse (hClosed : ¬x.IsOpen) (hBody : x.AcceptedBy body)
    (hOtherwise : y.AcceptedBy body) : (Clause.ifElse test x y).AcceptedBy (ifStmt fuel body) := by
  intro s rest hFaces hEnds
  have hTokens : Faces s (.keyword .ifWord :: (parenthesized test.tokens ++ (x.tokens ++
      .keyword .elseWord :: (y.tokens ++ rest)))) := by
    simpa [Clause.tokens] using hFaces
  refine accepts_ifStmt hBody hTokens (fun hOpen => absurd hOpen hClosed) ?_ ?_
  · intro stop _ hDenies
    refine hDenies.mono fun h => ?_
    obtain ⟨hTest, s', t', hBody, _⟩ := h.of_ifElse
    exact ⟨hTest, s', t', hBody⟩
  intro c t s₁ s₂ hHead hMeans hBool hx hFaces₂
  rw [List.head?_cons, beq_self_eq_true, if_pos rfl]
  refine hFaces₂.next fun _ s₃ _ hElse hFaces₃ => ?_
  refine (hOtherwise s₃ rest hFaces₃ hEnds).bind ?_ ?_
  · intro stop _ hDenies
    refine hDenies.mono fun h => ?_
    obtain ⟨_, t₁, t₁', hBody, hOther⟩ := h.of_ifElse
    -- the second branch is judged behind the first one, as the rules judge it
    have hBuilt := hx.means
    rw [hHead.scope, hHead.loops, hHead.tally] at hBuilt
    obtain ⟨-, rfl⟩ := hBuilt.unique hBody
    rwa [hElse.scope, hElse.loops, hElse.tally, hx.scope, hHead.scope, hx.moves.loops,
      hHead.loops]
  · intro u s₄ hy
    exact .ifElse hHead hMeans hBool hx hElse hy

/-- The body of a loop is read as a statement inside of the loop. -/
theorem accepts_loopBody (hBody : x.AcceptedBy body) (hFaces : Faces s (x.tokens ++ rest))
    (hEnds : x.EndsBefore rest.head?) :
    Yields (inLoop ⟨s.met⟩ body) { s with met := s.met + 1 } (fun t s' => BuildsBody s x t s')
      (fun stop _ => stop.Denies
        (x.HasTree s.scope (some ⟨s.met⟩) { s.tally with met := s.met + 1 })) := by
  rw [yields_inLoop]
  -- entering the loop does not touch the tokens
  have hInside : Faces (enterLoop ⟨s.met⟩ { s with met := s.met + 1 }) (x.tokens ++ rest) :=
    ⟨hFaces.tokens, hFaces.ending⟩
  refine (hBody _ rest hInside hEnds).mono ?_ (fun _ _ h => h)
  intro t s' hx
  exact hx.leaveLoop

theorem accepts_whileStmt (hBody : x.AcceptedBy body) :
    (Clause.whileLoop test x).AcceptedBy (whileStmt fuel body) := by
  intro s rest hFaces hEnds
  have hTokens : Faces s (.keyword .whileWord ::
      (parenthesized test.tokens ++ (x.tokens ++ rest))) := by
    simpa [Clause.tokens] using hFaces
  rw [whileStmt]
  refine hTokens.expect fun span s₁ hWhile hFaces₁ => ?_
  refine (accepts_condition _ span hFaces₁).bind ?_ ?_
  · rw [hWhile.scope]
    intro stop _ hDenies
    exact hDenies.mono fun h => h.of_whileLoop.1
  rintro c s₂ ⟨hTest, hMeans, hBool⟩
  rw [hWhile.scope] at hMeans
  have hHead := hWhile.trans hTest
  -- the loop takes the next number, which the rules give it too
  rw [yields_newExit]
  refine (accepts_loopBody hBody (hFaces₁.skip hTest) hEnds).bind ?_ ?_
  · rw [hHead.scope, hHead.tally, hHead.met]
    intro stop _ hDenies
    exact hDenies.mono fun h => h.of_whileLoop.2
  intro t s₃ hx
  exact .whileLoop hHead hMeans hBool hx

theorem accepts_doStmt (hBody : x.AcceptedBy body) :
    (Clause.doLoop x test).AcceptedBy (doStmt fuel body) := by
  intro s rest hFaces _
  have hTokens : Faces s (.keyword .doWord :: (x.tokens ++ .keyword .whileWord ::
      (parenthesized test.tokens ++ .mark .semicolon :: rest))) := by
    simpa [Clause.tokens] using hFaces
  rw [doStmt]
  refine hTokens.expect fun _ s₁ hDo hFaces₁ => ?_
  rw [yields_newExit]
  -- the body is read before the condition, whose keyword ends it
  refine (accepts_loopBody hBody hFaces₁ (fun _ => by simp)).bind ?_ ?_
  · rw [hDo.scope, hDo.tally, hDo.met]
    intro stop _ hDenies
    exact hDenies.mono fun h => h.of_doLoop.1
  intro t s₂ hx
  refine (hFaces₁.moves hx.moves).expect fun span s₃ hWhile hFaces₃ => ?_
  refine (accepts_condition _ span hFaces₃).bind ?_ ?_
  · rw [hWhile.scope, hx.scope, hDo.scope]
    intro stop _ hDenies
    exact hDenies.mono fun h => h.of_doLoop.2
  rintro c s₄ ⟨hTest, hMeans, hBool⟩
  rw [hWhile.scope] at hMeans
  refine (hFaces₃.skip hTest).expect fun _ s₅ hEnd _ => ?_
  exact .doLoop hDo hx (hWhile.trans (hTest.trans hEnd)) hMeans hBool

end Forms

/-! ## First tokens -/

/-- A token begins a statement, and so neither a declaration nor the end of a block. -/
def Token.BeginsStmt : Token → Prop
  | .mark .semicolon | .mark .openCurly | .name _ => True
  | .keyword .ifWord | .keyword .whileWord | .keyword .doWord | .keyword .breakWord => True
  | _ => False

theorem Clause.head_tokens (x : Clause .stmt) : ∃ t ts, x.tokens = t :: ts ∧ t.BeginsStmt := by
  cases x with
  | block b => cases b; exact ⟨_, _, rfl, trivial⟩
  | store target value =>
    obtain ⟨ts, hTokens⟩ := target.element_tokens rfl
    refine ⟨.name target.array, (Clause.store target value).tokens.tail, ?_, trivial⟩
    rw [Clause.tokens, hTokens]
    rfl
  | _ => exact ⟨_, _, rfl, trivial⟩

/-- Behind the declarations of a block there is a statement or its end. -/
theorem Clause.head_stmts (xs : Clause .stmts) {rest : List Token}
    (hEnd : rest.head? = some (.mark .closeCurly)) :
    ∃ t, (xs.tokens ++ rest).head? = some t ∧ (t = .mark .closeCurly ∨ t.BeginsStmt) := by
  cases xs with
  | nil => exact ⟨_, hEnd, .inl rfl⟩
  | cons first others =>
    -- a list that is not empty begins as its first statement does
    obtain ⟨t, ts, hTokens, hBegins⟩ := first.head_tokens
    refine ⟨t, ?_, .inr hBegins⟩
    rw [Clause.tokens, hTokens]
    rfl

/-! ## All derivations -/

/-- What reads a `Kind` of derivation: `stmt`, `stmts` or `block`. -/
def Kind.reader : (k : Kind) → Nat → Parser k.Tree
  | .stmt => Parser.stmt
  | .stmts => Parser.stmts
  | .block => Parser.block

theorem accepts_cons {first : Clause .stmt} {others : Clause .stmts} {fuel : Nat}
    (hFirst : first.AcceptedBy (stmt fuel)) (hOthers : others.AcceptedBy (stmts fuel)) :
    (Clause.cons first others).AcceptedBy (stmts (fuel + 1)) := by
  intro s rest hFaces hEnds
  rw [Clause.tokens, List.append_assoc] at hFaces
  obtain ⟨t, ts, hHead, hBegins⟩ := first.head_tokens
  have hToken : (first.tokens ++ (others.tokens ++ rest)).head? = some t := by
    rw [hHead]
    rfl
  rw [stmts]
  refine hFaces.peek ?_
  rw [hToken]
  split
  · next hNone => cases hNone
  · next hClose =>
    cases hClose
    exact hBegins.elim
  -- no `else` stands between two statements
  · have hFollows : first.EndsBefore (others.tokens ++ rest).head? := by
      obtain ⟨t', hNext, hCases⟩ := others.head_stmts hEnds
      rintro - hElse
      cases hNext.symm.trans hElse
      rcases hCases with hClose | hBegins'
      · cases hClose
      · exact hBegins'
    -- the statement that is first is judged alone, and the others behind it
    refine (hFirst s _ hFaces hFollows).bind ?_ ?_
    · intro stop _ hDenies
      refine hDenies.mono fun h => ?_
      obtain ⟨u, t', hMeans, _⟩ := h.of_cons
      exact ⟨u, t', hMeans⟩
    intro u s₁ hx
    refine (hOthers s₁ rest (hFaces.moves hx.moves) hEnds).bind ?_ ?_
    · intro stop _ hDenies
      refine hDenies.mono fun h => ?_
      obtain ⟨u', t', hMeans, hTree⟩ := h.of_cons
      -- the others are judged with the tally behind the first statement
      obtain ⟨-, rfl⟩ := hx.means.unique hMeans
      rwa [hx.scope, hx.moves.loops]
    · intro us s₂ hy
      exact .cons hx hy

theorem accepts_braces {ds : List Decl} {items : Clause .stmts} {fuel : Nat}
    (hItems : items.AcceptedBy (stmts fuel)) :
    (Clause.braces ds items).AcceptedBy (block (fuel + 1)) := by
  intro s rest hFaces _
  have hTokens : Faces s (.mark .openCurly :: (ds.flatMap Decl.tokens ++ (items.tokens ++
      .mark .closeCurly :: rest))) := by
    simpa [Clause.tokens] using hFaces
  rw [block]
  refine hTokens.expect fun _ s₁ hOpen hFaces₁ => ?_
  -- the parts of a block are read in a scope of their own, which is left behind them
  have hInside : Yields (inScope (decls fuel >>= fun _ => stmts fuel)) s₁
      (fun ts s' => ∃ s₂ s₃, DeclaresOn (enterScope s₁) ds s₂ ∧ Builds s₂ items ts s₃ ∧
        s' = leaveScope s₃ ∧ Faces s' (.mark .closeCurly :: rest))
      (fun stop _ => stop.Denies
        ((Clause.braces ds items).HasTree s.scope s.loops.head? s.tally)) := by
    rw [yields_inScope]
    have hEnter : Faces (enterScope s₁) (ds.flatMap Decl.tokens ++ (items.tokens ++
        .mark .closeCurly :: rest)) := ⟨hFaces₁.tokens, hFaces₁.ending⟩
    have hScope : (enterScope s₁).scope = s.scope.enter := congrArg Scope.enter hOpen.scope
    have hUsed : (enterScope s₁).used = s.used := hOpen.used
    -- the declarations end where a statement begins
    have hNoScalar (b : Scalar) :
        (items.tokens ++ .mark .closeCurly :: rest).head? ≠ some (.scalar b) := by
      have hClosing : (Token.mark .closeCurly :: rest).head? = some (.mark .closeCurly) := rfl
      obtain ⟨t, hNext, hCases⟩ := items.head_stmts hClosing
      intro hScalar
      cases hNext.symm.trans hScalar
      rcases hCases with hClose | hBegins
      · cases hClose
      · exact hBegins
    refine (accepts_decls fuel hEnter hNoScalar).bind ?_ ?_
    · intro stop _ hDenies
      refine hDenies.mono fun h => ?_
      obtain ⟨Γ', used, hDeclares, _⟩ := h.of_braces
      refine ⟨Γ', used, ?_⟩
      rw [hScope, hUsed]
      exact hDeclares
    rintro - s₂ hDecls
    have hFaces₂ := hEnter.moves hDecls.moves
    refine (hItems s₂ _ hFaces₂ rfl).mono ?_ ?_
    · intro ts s₃ hx
      have hFaces₃ := hFaces₂.moves hx.moves
      exact ⟨s₂, s₃, hDecls, hx, rfl, hFaces₃.tokens, hFaces₃.ending⟩
    · intro stop _ hDenies
      refine hDenies.mono fun h => ?_
      obtain ⟨Γ', used, hDeclares, hTree⟩ := h.of_braces
      have hDeclared := hDecls.declares
      rw [hScope, hUsed] at hDeclared
      -- the declarations have led where the rules lead
      obtain ⟨rfl, rfl⟩ := hDeclared.unique hDeclares
      have hLoops : s₂.loops = s.loops := hDecls.moves.loops.trans hOpen.loops
      have hMet : s₂.met = s.met := hDecls.met.trans hOpen.met
      rw [hLoops, ParserState.tally, hMet]
      exact hTree
  refine hInside.bind (fun _ _ h => h) ?_
  rintro ts - ⟨s₂, s₃, hDecls, hx, rfl, hFaces₃⟩
  refine hFaces₃.expect fun _ s₄ hClose _ => ?_
  exact .braces hOpen hDecls hx hClose

/-- A statement is accepted with any fuel if it is with some. -/
theorem acceptedBy_stmt {x : Clause .stmt}
    (h : ∀ fuel s rest, Faces s (x.tokens ++ rest) → x.EndsBefore rest.head? →
      Yields (stmt (fuel + 1)) s (fun t s' => Builds s x t s')
        (fun stop _ => stop.Denies (x.HasTree s.scope s.loops.head? s.tally))) (fuel : Nat) :
    x.AcceptedBy (stmt fuel) := by
  intro s rest hFaces hEnds
  cases fuel with
  | zero => exact Stop.denies_exhausted _
  | succ fuel => exact h fuel s rest hFaces hEnds

/-- **Statements are accepted.** Where the tokens of a derivation are next, and every `else` in it
and behind it belongs to the nearest `if`, the parser reads this derivation (`Clause.AcceptedBy`).
The induction is on the derivation. -/
theorem Clause.accepted {k : Kind} (x : Clause k) (hNearest : x.NearestElse) (fuel : Nat) :
    x.AcceptedBy (k.reader fuel) := by
  induction x generalizing fuel with
  -- each list, each block and each statement costs one unit of fuel
  | nil =>
    intro s rest hFaces hEnds
    cases fuel with
    | zero => exact Stop.denies_exhausted _
    | succ fuel =>
      have hRest : Faces s rest := hFaces
      have hHead : rest.head? = some (.mark .closeCurly) := hEnds
      rw [Kind.reader, stmts]
      refine hRest.peek ?_
      rw [hHead]
      exact .nil s
  | cons first others ihFirst ihOthers =>
    cases fuel with
    | zero => intro s rest _ _; exact Stop.denies_exhausted _
    | succ fuel => exact accepts_cons (ihFirst hNearest.1 fuel) (ihOthers hNearest.2 fuel)
  | braces ds items ih =>
    cases fuel with
    | zero => intro s rest _ _; exact Stop.denies_exhausted _
    | succ fuel => exact accepts_braces (ih hNearest fuel)
  -- the first token of a statement says which form it has
  | empty =>
    refine acceptedBy_stmt (fun fuel s rest hFaces _ => ?_) fuel
    rw [stmt]
    refine hFaces.peek (Faces.next hFaces fun _ s₁ _ hEmpty _ => ?_)
    exact .of_skips hEmpty .empty
  | block b ih =>
    refine acceptedBy_stmt (fun fuel s rest hFaces _ => ?_) fuel
    rw [stmt]
    refine hFaces.peek ?_
    have hBlock := ih hNearest fuel s rest hFaces trivial
    cases b with
    | braces ds items =>
      refine Yields.mono hBlock ?_ ?_
      · intro t s' hx
        exact ⟨hx.moves, hx.scope, .block hx.means⟩
      · intro stop _ hDenies
        exact hDenies.mono Clause.HasTree.of_block
  | set target value =>
    refine acceptedBy_stmt (fun fuel s rest hFaces hEnds => ?_) fuel
    rw [stmt]
    refine hFaces.peek ?_
    exact accepts_set s rest hFaces hEnds
  | store target value =>
    refine acceptedBy_stmt (fun fuel s rest hFaces hEnds => ?_) fuel
    -- an element begins with a name, as a variable does
    obtain ⟨ts, hTokens⟩ := target.element_tokens rfl
    have hHead : ((Clause.store target value).tokens ++ rest).head? =
        some (.name target.array) := by
      rw [Clause.tokens, hTokens]
      rfl
    rw [stmt]
    refine hFaces.peek ?_
    rw [hHead]
    exact accepts_store s rest hFaces hEnds
  | ifThen test body ih =>
    refine acceptedBy_stmt (fun fuel s rest hFaces hEnds => ?_) fuel
    rw [stmt]
    refine hFaces.peek ?_
    exact accepts_ifThen (ih hNearest fuel) s rest hFaces hEnds
  | ifElse test body otherwise ihBody ihOtherwise =>
    -- the first branch is not open, so the `else` is its own
    obtain ⟨hClosed, hNearestBody, hNearestOtherwise⟩ := hNearest
    refine acceptedBy_stmt (fun fuel s rest hFaces hEnds => ?_) fuel
    rw [stmt]
    refine hFaces.peek ?_
    exact accepts_ifElse hClosed (ihBody hNearestBody fuel) (ihOtherwise hNearestOtherwise fuel)
      s rest hFaces hEnds
  | whileLoop test body ih =>
    refine acceptedBy_stmt (fun fuel s rest hFaces hEnds => ?_) fuel
    rw [stmt]
    refine hFaces.peek ?_
    exact accepts_whileStmt (ih hNearest fuel) s rest hFaces hEnds
  | doLoop body test ih =>
    refine acceptedBy_stmt (fun fuel s rest hFaces hEnds => ?_) fuel
    rw [stmt]
    refine hFaces.peek ?_
    exact accepts_doStmt (ih hNearest fuel) s rest hFaces hEnds
  | leave =>
    refine acceptedBy_stmt (fun fuel s rest hFaces hEnds => ?_) fuel
    rw [stmt]
    refine hFaces.peek ?_
    exact accepts_breakStmt s rest hFaces hEnds

end JumpCode
