import JumpCode.Parser.Stmt
import JumpCode.Proofs.Parsing.DeclReading

/-!
# JumpCode — what is read as statements

As for expressions: whatever is read as statements has a derivation, which obeys the rules and
stands for the tree that the parser gives. Blocks and loops are closed again behind it, and an
`else` that could follow a statement has been read as part of it.

* `Builds` — a derivation has been read and stands for a tree, with one law for each form;
* `yields_ifStmt`, `yields_whileStmt`, `yields_doStmt`, `yields_breakStmt`, `yields_assignment` —
  the forms of statements, each for any way to read the statements inside;
* `stmtReads` — statements and blocks, by induction on the fuel.
-/

namespace JumpCode

open JumpCode.Parser

/-! ## What is built -/

/-- The tokens of a derivation have been read, which obeys the rules and stands for these trees
(`Clause.Means`). The scope is the one before. -/
structure Builds {k : Kind} (s : ParserState) (x : Clause k) (t : k.Tree) (s' : ParserState) :
    Prop where
  moves : Moves s x.tokens s'
  scope : s'.scope = s.scope
  means : x.Means s.scope s.loops.head? s.tally t s'.tally

/-- The body of a loop has been read as a statement inside of the loop, which is closed again. -/
structure BuildsBody (s : ParserState) (x : Clause .stmt) (t : Stmt) (s' : ParserState) :
    Prop where
  moves : Moves s x.tokens s'
  scope : s'.scope = s.scope
  means : x.Means s.scope (some ⟨s.met⟩) { s.tally with met := s.met + 1 } t s'.tally

namespace Builds

variable {s s₁ s₂ s₃ s₄ : ParserState} {test : Phrase .bool} {c : Expr} {x y : Clause .stmt}
  {t u : Stmt}

/-- Statements without parts. -/
theorem of_skips (hSkips : Skips s x.tokens s₁)
    (hMeans : x.Means s.scope s.loops.head? s.tally t s.tally) : Builds s x t s₁ where
  moves := hSkips.moves
  scope := hSkips.scope
  means := hSkips.tally ▸ hMeans

theorem ifThen (hHead : Skips s (.keyword .ifWord :: parenthesized test.tokens) s₁)
    (hTest : test.Means s.scope c) (hBool : c.type = .bool) (hBody : Builds s₁ x t s₂) :
    Builds s (.ifThen test x) (.ifThen c t) s₂ where
  moves := hHead.moves.trans hBody.moves
  scope := hBody.scope.trans hHead.scope
  means := by
    have hMeans := hBody.means
    rw [hHead.scope, hHead.loops, hHead.tally] at hMeans
    exact .ifThen hTest hBool hMeans

theorem ifElse (hHead : Skips s (.keyword .ifWord :: parenthesized test.tokens) s₁)
    (hTest : test.Means s.scope c) (hBool : c.type = .bool) (hBody : Builds s₁ x t s₂)
    (hElse : Skips s₂ [.keyword .elseWord] s₃) (hOtherwise : Builds s₃ y u s₄) :
    Builds s (.ifElse test x y) (.ifElse c t u) s₄ where
  moves := hHead.moves.trans (hBody.moves.trans (hElse.moves.trans hOtherwise.moves))
  scope := by rw [hOtherwise.scope, hElse.scope, hBody.scope, hHead.scope]
  means := by
    have hMeans := hBody.means
    rw [hHead.scope, hHead.loops, hHead.tally] at hMeans
    -- the other branch starts where the first one has left the tally
    have hOther := hOtherwise.means
    rw [hElse.scope, hElse.loops, hElse.tally, hBody.scope, hHead.scope, hBody.moves.loops,
      hHead.loops] at hOther
    exact .ifElse hTest hBool hMeans hOther

theorem whileLoop (hHead : Skips s (.keyword .whileWord :: parenthesized test.tokens) s₁)
    (hTest : test.Means s.scope c) (hBool : c.type = .bool) (hBody : BuildsBody s₁ x t s₂) :
    Builds s (.whileLoop test x) (.whileLoop ⟨s₁.met⟩ c t) s₂ where
  moves := hHead.moves.trans hBody.moves
  scope := hBody.scope.trans hHead.scope
  means := by
    have hMeans := hBody.means
    rw [hHead.scope, hHead.tally, hHead.met] at hMeans
    rw [hHead.met]
    exact .whileLoop hTest hBool hMeans

theorem doLoop (hDo : Skips s [.keyword .doWord] s₁) (hBody : BuildsBody s₁ x t s₂)
    (hTail : Skips s₂ (.keyword .whileWord :: (parenthesized test.tokens ++ [.mark .semicolon])) s₃)
    (hTest : test.Means s₂.scope c) (hBool : c.type = .bool) :
    Builds s (.doLoop x test) (.doLoop ⟨s₁.met⟩ t c) s₃ where
  moves := hDo.moves.trans (hBody.moves.trans hTail.moves)
  scope := by rw [hTail.scope, hBody.scope, hDo.scope]
  means := by
    have hMeans := hBody.means
    rw [hDo.scope, hDo.tally, hDo.met] at hMeans
    -- the condition stands outside of the scopes of the body
    rw [hBody.scope, hDo.scope] at hTest
    rw [hTail.tally, hDo.met]
    exact .doLoop hMeans hTest hBool

theorem nil (s : ParserState) : Builds s .nil ([] : List Stmt) s := ⟨Moves.refl s, rfl, .nil⟩

theorem cons {xs : Clause .stmts} {ts : List Stmt} (hFirst : Builds s x t s₁)
    (hOthers : Builds s₁ xs ts s₂) : Builds s (.cons x xs) (t :: ts) s₂ where
  moves := hFirst.moves.trans hOthers.moves
  scope := hOthers.scope.trans hFirst.scope
  means := by
    have hMeans := hOthers.means
    rw [hFirst.scope, hFirst.moves.loops] at hMeans
    exact .cons hFirst.means hMeans

/-- What stands between braces is read in a scope of its own, which is left again. -/
theorem braces {ds : List Decl} {xs : Clause .stmts} {ts : List Stmt}
    (hOpen : Skips s [.mark .openCurly] s₁) (hDecls : DeclaresOn (enterScope s₁) ds s₂)
    (hItems : Builds s₂ xs ts s₃) (hClose : Skips (leaveScope s₃) [.mark .closeCurly] s₄) :
    Builds s (.braces ds xs) (.sequence ts) s₄ where
  moves := by
    -- entering and leaving read no token
    have hEnter : Moves s [.mark .openCurly] (enterScope s₁) :=
      ⟨hOpen.tokens, hOpen.ending, hOpen.loops⟩
    have hLeave : Moves s₃ [.mark .closeCurly] s₄ := ⟨hClose.tokens, hClose.ending, hClose.loops⟩
    exact hEnter.trans (hDecls.moves.trans (hItems.moves.trans hLeave))
  scope := by
    -- what the declarations have added is dropped with the frame
    have hScope : s₄.scope = s₃.scope.leave := hClose.scope
    rw [hScope, hItems.scope, hDecls.declares.leave, hOpen.scope]
  means := by
    have hDeclares : Declares s₁.scope.enter s₁.used ds s₂.scope s₂.used := hDecls.declares
    rw [hOpen.scope, hOpen.used] at hDeclares
    have hLoops : s₂.loops = s₁.loops := hDecls.moves.loops
    have hMet : s₂.met = s₁.met := hDecls.met
    have hMeans := hItems.means
    rw [hLoops, hOpen.loops, ParserState.tally, hMet, hOpen.met] at hMeans
    -- storage is not given back
    have hTally : s₄.tally = s₃.tally := hClose.tally
    rw [hTally]
    exact .braces hDeclares hMeans

end Builds

/-- The loop around its body is closed behind it. -/
theorem Builds.leaveLoop {s s' : ParserState} {x : Clause .stmt} {t : Stmt}
    (h : Builds (enterLoop ⟨s.met⟩ { s with met := s.met + 1 }) x t s') :
    BuildsBody s x t (leaveLoop s') where
  moves := by
    refine ⟨h.moves.tokens, h.moves.ending, ?_⟩
    -- the body leaves the loops as they were, with this one on top
    show s'.loops.tail = s.loops
    rw [h.moves.loops]
    rfl
  scope := h.scope
  means := h.means

/-! ## What is read -/

/-- A derivation has been read (`Builds`) in which every `else` belongs to the nearest `if`, also in
view of what follows it. -/
structure StmtOn {k : Kind} (s : ParserState) (x : Clause k) (t : k.Tree) (s' : ParserState) :
    Prop extends Builds s x t s' where
  nearest : x.NearestElse
  closed : x.IsOpen → s'.tokens.head? ≠ some (.keyword .elseWord)

/-- A parser reads a statement (`StmtOn`), or it stops, and then it is `Short` of fuel or has
another reason. -/
def ReadsStmt (cost fuel : Nat) (p : Parser Stmt) : Prop :=
  ∀ s, Yields p s (fun t s' => ∃ x : Clause .stmt, StmtOn s x t s') (Short cost fuel s)

section Forms

variable {fuel : Nat}

/-! ## Conditions -/

theorem yields_condition (construct : Construct) (span : Span) (s : ParserState) :
    Yields (condition fuel construct span) s
      (fun c s' => ∃ x : Phrase .bool, Skips s (parenthesized x.tokens) s' ∧
        x.Means s.scope c ∧ c.type = .bool)
      (Short 1 fuel s) := by
  rw [condition]
  refine (yields_expect _ s).bind (fun _ _ h => short_of_ne h.1) fun _ s₁ hOpen => ?_
  have hDepth : Level.disjunction.depth = 14 := rfl
  have hLength := hOpen.length_one
  refine ((exprReads fuel).expr .disjunction s₁).bind (Short.caller (by omega)) ?_
  rintro c s₂ ⟨x, hInside, hMeans⟩
  refine (yields_expect _ s₂).bind (fun _ _ h => short_of_ne h.1) fun _ s₃ hClose => ?_
  rw [hOpen.scope] at hMeans
  split
  · next hBool => exact ⟨x, hOpen.trans (hInside.trans hClose), hMeans, hBool⟩
  · rw [yields_failAt]
    exact short_of_ne Stop.noConfusion

/-! ## Assignments and breaks -/

theorem assignable_iff {target value : Ty} :
    assignable target value = true ↔ SuitsVariable target value := by
  simp [assignable, SuitsVariable]

theorem storable_iff {target value : Ty} :
    storable target value = true ↔ SuitsElement target value := by
  simp [storable, SuitsElement, and_assoc]

theorem yields_assignment : ReadsStmt 1 fuel (assignment fuel) := by
  intro s
  have hDepth : Level.disjunction.depth = 14 := rfl
  rw [assignment]
  refine (yields_name s).bind (fun _ _ h => short_of_ne h.1) fun found s₁ hName => ?_
  have hLength := hName.length_one
  refine (yields_resolve _ _ s₁).bind (fun _ _ h => short_of_ne h.1.ne_exhausted) ?_
  rintro x s₂ ⟨rfl, hLookup⟩
  rw [hName.scope] at hLookup
  refine (yields_atMark _ s₂).bind (fun _ _ h => short_of_ne h.1) ?_
  rintro b s₃ ⟨rfl, -⟩
  dsimp only
  split
  · -- a variable
    refine (yields_expect _ s₃).bind (fun _ _ h => short_of_ne h.1) fun sign s₄ hSign => ?_
    have hSignLength := hSign.length
    refine ((exprReads fuel).expr .disjunction s₄).bind (Short.caller (by omega)) ?_
    rintro a s₅ ⟨value, hValue, hMeans⟩
    rw [hSign.scope, hName.scope] at hMeans
    split
    · next hSuits =>
      rw [pure_bind]
      refine (yields_expect _ s₅).bind (fun _ _ h => short_of_ne h.1) fun _ s₆ hEnd => ?_
      refine ⟨.set found.value value, .of_skips ?_ ?_, trivial, fun h => h.elim⟩
      · exact hName.trans (hSign.trans (hValue.trans hEnd))
      · exact .set hLookup hMeans (assignable_iff.mp hSuits)
    · rw [yields_failAt_bind]
      exact short_of_ne Stop.noConfusion
  · -- an element of an array
    -- the name is behind us, but the element begins with it
    refine ((exprReads fuel).access s s₃ found.value x found.span hName hLookup).bind
      (Short.caller (by omega)) ?_
    rintro target s₄ ⟨y, hTarget, hElement⟩
    refine (yields_expect _ s₄).bind (fun _ _ h => short_of_ne h.1) fun sign s₅ hSign => ?_
    have hTargetLength := hTarget.length
    have hTokens := y.length_tokens_pos
    have hSignLength := hSign.length_one
    refine ((exprReads fuel).expr .disjunction s₅).bind (Short.caller (by omega)) ?_
    rintro a s₆ ⟨value, hValue, hMeans⟩
    rw [hSign.scope, hTarget.scope] at hMeans
    split
    · next hSuits =>
      rw [pure_bind]
      refine (yields_expect _ s₆).bind (fun _ _ h => short_of_ne h.1) fun _ s₇ hEnd => ?_
      refine ⟨.store y value, .of_skips ?_ ?_, trivial, fun h => h.elim⟩
      · exact hTarget.trans (hSign.trans (hValue.trans hEnd))
      · exact .store hElement hMeans (storable_iff.mp hSuits)
    · rw [yields_failAt_bind]
      exact short_of_ne Stop.noConfusion

theorem yields_breakStmt : ReadsStmt 1 fuel breakStmt := by
  intro s
  rw [breakStmt]
  refine (yields_expect _ s).bind (fun _ _ h => short_of_ne h.1) fun _ s₁ hWord => ?_
  rw [yields_get]
  split
  · rw [yields_failAt]
    exact short_of_ne Stop.noConfusion
  · next exit others hLoops =>
    refine (yields_expect _ s₁).bind (fun _ _ h => short_of_ne h.1) fun _ s₂ hEnd => ?_
    refine ⟨.leave, .of_skips (hWord.trans hEnd) ?_, trivial, fun h => h.elim⟩
    rw [← hWord.loops, hLoops]
    exact .leave

/-! ## Conditionals and loops -/

theorem yields_ifStmt {body : Parser Stmt} (hBody : ReadsStmt 2 fuel body) :
    ReadsStmt 1 fuel (ifStmt fuel body) := by
  intro s
  rw [ifStmt]
  refine (yields_expect _ s).bind (fun _ _ h => short_of_ne h.1) fun span s₁ hIf => ?_
  have hLength := hIf.length_one
  refine (yields_condition _ span s₁).bind (Short.caller (by omega)) ?_
  rintro c s₂ ⟨test, hTest, hMeans, hBool⟩
  have hHead := hIf.trans hTest
  have hHeadLength := hTest.length
  rw [hIf.scope] at hMeans
  refine (hBody s₂).bind (Short.caller (by omega)) ?_
  rintro t s₃ ⟨x, hx⟩
  have hBodyLength := hx.moves.length
  refine (yields_peek s₃).bind (fun _ _ h => short_of_ne h.1) ?_
  rintro t' s₄ ⟨rfl, rfl⟩
  split
  · next hElse =>
    -- what follows decides whether the statement inside could have taken the else
    rw [beq_iff_eq] at hElse
    refine (yields_next s₄).bind (fun _ _ h => short_of_ne h.1) fun found s₅ hFound => ?_
    rw [hFound.head hElse] at hFound
    -- an else is never left over: it belongs to this conditional
    have hElseLength := hFound.length
    refine (hBody s₅).bind (Short.caller (by omega)) ?_
    rintro t₂ s₆ ⟨y, hy⟩
    exact ⟨.ifElse test x y, .ifElse hHead hMeans hBool hx.toBuilds hFound hy.toBuilds,
      ⟨fun hOpen => hx.closed hOpen hElse, hx.nearest, hy.nearest⟩, hy.closed⟩
  · next hElse =>
    rw [beq_iff_eq] at hElse
    exact ⟨.ifThen test x, .ifThen hHead hMeans hBool hx.toBuilds, hx.nearest, fun _ => hElse⟩

/-- The body of a loop has been read in the same sense as `StmtOn`. -/
structure BodyOn (s : ParserState) (x : Clause .stmt) (t : Stmt) (s' : ParserState) :
    Prop extends BuildsBody s x t s' where
  nearest : x.NearestElse
  closed : x.IsOpen → s'.tokens.head? ≠ some (.keyword .elseWord)

theorem yields_loopBody {body : Parser Stmt} (hBody : ReadsStmt 2 fuel body) (s : ParserState) :
    Yields (inLoop ⟨s.met⟩ body) { s with met := s.met + 1 }
      (fun t s' => ∃ x, BodyOn s x t s') (Short 2 fuel s) := by
  rw [yields_inLoop]
  refine (hBody _).mono ?_ (fun _ _ h => h)
  rintro t s' ⟨x, hx⟩
  exact ⟨x, hx.toBuilds.leaveLoop, hx.nearest, hx.closed⟩

theorem yields_whileStmt {body : Parser Stmt} (hBody : ReadsStmt 2 fuel body) :
    ReadsStmt 1 fuel (whileStmt fuel body) := by
  intro s
  rw [whileStmt]
  refine (yields_expect _ s).bind (fun _ _ h => short_of_ne h.1) fun span s₁ hWhile => ?_
  have hLength := hWhile.length_one
  refine (yields_condition _ span s₁).bind (Short.caller (by omega)) ?_
  rintro c s₂ ⟨test, hTest, hMeans, hBool⟩
  have hHead := hWhile.trans hTest
  have hHeadLength := hTest.length
  rw [hWhile.scope] at hMeans
  rw [yields_newExit]
  refine (yields_loopBody hBody s₂).bind (Short.caller (by omega)) ?_
  rintro t s₃ ⟨x, hx⟩
  exact ⟨.whileLoop test x, .whileLoop hHead hMeans hBool hx.toBuildsBody, hx.nearest, hx.closed⟩

theorem yields_doStmt {body : Parser Stmt} (hBody : ReadsStmt 2 fuel body) :
    ReadsStmt 1 fuel (doStmt fuel body) := by
  intro s
  rw [doStmt]
  refine (yields_expect _ s).bind (fun _ _ h => short_of_ne h.1) fun _ s₁ hDo => ?_
  have hLength := hDo.length_one
  -- the exit is made before the body, and the condition is read outside of the loop
  rw [yields_newExit]
  refine (yields_loopBody hBody s₁).bind (Short.caller (by omega)) ?_
  rintro t s₂ ⟨x, hx⟩
  have hBodyLength := hx.moves.length
  refine (yields_expect _ s₂).bind (fun _ _ h => short_of_ne h.1) fun span s₃ hWhile => ?_
  have hWhileLength := hWhile.length
  refine (yields_condition _ span s₃).bind (Short.caller (by omega)) ?_
  rintro c s₄ ⟨test, hTest, hMeans, hBool⟩
  refine (yields_expect _ s₄).bind (fun _ _ h => short_of_ne h.1) fun _ s₅ hEnd => ?_
  rw [hWhile.scope] at hMeans
  exact ⟨.doLoop x test, .doLoop hDo hx.toBuildsBody (hWhile.trans (hTest.trans hEnd)) hMeans hBool,
    hx.nearest, fun h => h.elim⟩

end Forms

/-! ## Statements and blocks -/

/-- What the functions for statements read from some fuel. -/
structure StmtReads (fuel : Nat) : Prop where
  stmt : ReadsStmt 2 fuel (stmt fuel)
  stmts (s : ParserState) :
    Yields (stmts fuel) s (fun ts s' => ∃ x : Clause .stmts, StmtOn s x ts s') (Short 3 fuel s)
  block (s : ParserState) :
    Yields (block fuel) s (fun t s' => ∃ x : Clause .block, StmtOn s x t s') (Short 1 fuel s)

section Steps

variable {fuel : Nat}

/-- What reads a statement with some fuel to spare reads one with one call more. -/
theorem ReadsStmt.call {p : Parser Stmt} (h : ReadsStmt 1 fuel p) (s : ParserState) :
    Yields p s (fun t s' => ∃ x : Clause .stmt, StmtOn s x t s') (Short 2 (fuel + 1) s) :=
  (h s).mono (fun _ _ h => h) (Short.caller (by omega))

theorem stmt_reads (ih : StmtReads fuel) : ReadsStmt 2 (fuel + 1) (stmt (fuel + 1)) := by
  intro s
  rw [stmt]
  refine (yields_peek s).bind (fun _ _ h => short_of_ne h.1) ?_
  rintro t s₁ ⟨rfl, rfl⟩
  split
  · next hHead =>
    refine (yields_next s₁).bind (fun _ _ h => short_of_ne h.1) fun found s₂ hFound => ?_
    rw [hFound.head hHead] at hFound
    exact ⟨.empty, .of_skips hFound .empty, trivial, fun h => h.elim⟩
  · refine (ih.block s₁).mono ?_ (Short.caller (by omega))
    rintro t s₂ ⟨x, hx⟩
    exact ⟨.block x, ⟨hx.moves, hx.scope, .block hx.means⟩, hx.nearest, fun h => h.elim⟩
  · exact (yields_ifStmt ih.stmt).call s₁
  · exact (yields_whileStmt ih.stmt).call s₁
  · exact (yields_doStmt ih.stmt).call s₁
  · exact yields_breakStmt.call s₁
  · exact yields_assignment.call s₁

theorem stmts_reads (ih : StmtReads fuel) (s : ParserState) :
    Yields (stmts (fuel + 1)) s (fun ts s' => ∃ x : Clause .stmts, StmtOn s x ts s')
      (Short 3 (fuel + 1) s) := by
  have hNil (s : ParserState) : StmtOn s .nil ([] : List Stmt) s :=
    ⟨.nil s, trivial, fun h => h.elim⟩
  rw [stmts]
  refine (yields_peek s).bind (fun _ _ h => short_of_ne h.1) ?_
  rintro t s₁ ⟨rfl, rfl⟩
  split
  · exact ⟨.nil, hNil s₁⟩
  · exact ⟨.nil, hNil s₁⟩
  · refine (ih.stmt s₁).bind (Short.caller (by omega)) ?_
    rintro t s₂ ⟨x, hx⟩
    have hLength := hx.moves.length
    -- a statement is never empty, so that the rest can pay for the others
    have hTokens := x.length_tokens_pos
    refine (ih.stmts s₂).bind (Short.caller (by omega)) ?_
    rintro ts s₃ ⟨y, hy⟩
    exact ⟨.cons x y, .cons hx.toBuilds hy.toBuilds, ⟨hx.nearest, hy.nearest⟩, fun h => h.elim⟩

theorem block_reads (ih : StmtReads fuel) (s : ParserState) :
    Yields (block (fuel + 1)) s (fun t s' => ∃ x : Clause .block, StmtOn s x t s')
      (Short 1 (fuel + 1) s) := by
  rw [block]
  refine (yields_expect _ s).bind (fun _ _ h => short_of_ne h.1) fun _ s₁ hOpen => ?_
  have hLength := hOpen.length_one
  have hInside : Yields (inScope (decls fuel >>= fun _ => stmts fuel)) s₁
      (fun ts s' => ∃ (ds : List Decl) (x : Clause .stmts) (s₂ s₃ : ParserState),
        DeclaresOn (enterScope s₁) ds s₂ ∧ StmtOn s₂ x ts s₃ ∧ s' = leaveScope s₃)
      (Short 1 (fuel + 1) s) := by
    rw [yields_inScope]
    have hRest : (enterScope s₁).rest = s₁.rest := rfl
    rw [← hRest] at hLength
    refine (yields_decls fuel (enterScope s₁)).bind (Short.caller (by omega)) ?_
    rintro - s₂ ⟨ds, hDecls⟩
    have hDeclsLength := hDecls.moves.length
    refine (ih.stmts s₂).mono ?_ (Short.caller (by omega))
    rintro ts s₃ ⟨x, hx⟩
    exact ⟨ds, x, s₂, s₃, hDecls, hx, rfl⟩
  refine hInside.bind (fun _ _ h => h) ?_
  rintro ts - ⟨ds, x, s₂, s₃, hDecls, hx, rfl⟩
  refine (yields_expect _ (leaveScope s₃)).bind (fun _ _ h => short_of_ne h.1) ?_
  intro _ s₄ hClose
  exact ⟨.braces ds x, .braces hOpen hDecls hx.toBuilds hClose, hx.nearest, fun h => h.elim⟩

end Steps

/-- **What is read as statements.** Each function of the parser reads a derivation that obeys the
rules and stands for the tree it gives, and runs out of fuel only if it had too little for the
tokens to come (`Short`). The induction is on the fuel. -/
theorem stmtReads (fuel : Nat) : StmtReads fuel := by
  induction fuel with
  | zero =>
    exact {
      stmt s := short_zero s Nat.two_pos
      stmts s := short_zero s (Nat.succ_pos 2)
      block s := short_zero s Nat.one_pos }
  | succ fuel ih =>
    exact {
      stmt := stmt_reads ih
      stmts := stmts_reads ih
      block := block_reads ih }

end JumpCode
