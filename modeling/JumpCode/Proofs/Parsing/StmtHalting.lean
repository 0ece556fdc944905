import JumpCode.Proofs.Parsing.DeclHalting

/-!
# JumpCode — where the parser halts in statements

A program is read along a way: through blocks that are open, behind statements and declarations that
are complete. Wherever the parser stops, the tokens that it has read lead to a place in a program,
and behind them something has begun that may stand at this place.

* `BeginsParenthesized`, `Place.begins_stmts` and so on — beginnings of statements;
* `StopsWithin` — a way, and how the parser stops at its end;
* `StopsIn` — a parser reads a clause, or stops within one;
* `stops_ifStmt`, `stops_whileStmt`, `stops_doStmt` — the forms of statements, for any way to read
  those inside;
* `stmtStops`, `program_stops` — statements and blocks by induction on the fuel, and programs.
-/

namespace JumpCode

open JumpCode.Parser

/-! ## Beginnings -/

/-- With these tokens an expression in parentheses may begin. -/
def BeginsParenthesized (ts : List Token) : Prop :=
  ∃ (x : Phrase .bool) (more : List Token), parenthesized x.tokens = ts ++ more

namespace BeginsParenthesized

variable {ts : List Token}

theorem nil : BeginsParenthesized [] := ⟨.shortest _, _, (List.nil_append _).symm⟩

theorem whole (x : Phrase .bool) : BeginsParenthesized (parenthesized x.tokens) :=
  ⟨x, [], (List.append_nil _).symm⟩

theorem inside (h : Phrase.Begins .bool ts) : BeginsParenthesized (.mark .openParen :: ts) := by
  obtain ⟨x, more, hTokens⟩ := h
  exact ⟨x, more ++ [.mark .closeParen], by simp [parenthesized, hTokens]⟩

theorem undeclaring (h : BeginsParenthesized ts) : Undeclaring ts := by
  obtain ⟨x, more, hTokens⟩ := h
  have hAll : Undeclaring (parenthesized x.tokens) := by simp [parenthesized, x.undeclaring]
  rw [hTokens, undeclaring_append] at hAll
  exact hAll.1

end BeginsParenthesized

/-- With these tokens a statement may begin, up to its first declaration: they begin what stands at
the `Place` of a statement. -/
abbrev BeginsStmt (ts : List Token) : Prop := (Place.clause .stmt).Begins ts

namespace BeginsStmt

variable {ts : List Token}

theorem nil : BeginsStmt [] := ⟨⟨_, .empty, rfl⟩, undeclaring_nil⟩

theorem ifHead (h : BeginsParenthesized ts) : BeginsStmt (.keyword .ifWord :: ts) := by
  obtain ⟨x, more, hTokens⟩ := h
  exact ⟨⟨more ++ [.mark .semicolon], .ifThen x .empty, by simp [Clause.tokens, hTokens]⟩,
    by simp [BeginsParenthesized.undeclaring ⟨x, more, hTokens⟩]⟩

theorem whileHead (h : BeginsParenthesized ts) : BeginsStmt (.keyword .whileWord :: ts) := by
  obtain ⟨x, more, hTokens⟩ := h
  exact ⟨⟨more ++ [.mark .semicolon], .whileLoop x .empty, by simp [Clause.tokens, hTokens]⟩,
    by simp [BeginsParenthesized.undeclaring ⟨x, more, hTokens⟩]⟩

theorem breakWord : BeginsStmt [.keyword .breakWord] :=
  ⟨⟨[.mark .semicolon], .leave, rfl⟩, by simp⟩

theorem name (text : String) : BeginsStmt [.name text] :=
  ⟨⟨_, .set text (.shortest _), rfl⟩, by simp⟩

theorem set (text : String) (h : Phrase.Begins .bool ts) :
    BeginsStmt (.name text :: .mark .assign :: ts) := by
  obtain ⟨x, more, hTokens⟩ := h
  exact ⟨⟨more ++ [.mark .semicolon], .set text x, by simp [Clause.tokens, hTokens]⟩,
    by simp [Phrase.Begins.undeclaring ⟨x, more, hTokens⟩]⟩

theorem target (h : Phrase.Begins .element ts) : BeginsStmt ts := by
  obtain ⟨y, more, hTokens⟩ := h
  refine ⟨⟨more ++ .mark .assign :: ((Phrase.shortest .bool).tokens ++ [.mark .semicolon]),
    .store y (.shortest _), ?_⟩, Phrase.Begins.undeclaring ⟨y, more, hTokens⟩⟩
  simp [Clause.tokens, hTokens]

theorem store (y : Phrase .element) (h : Phrase.Begins .bool ts) :
    BeginsStmt (y.tokens ++ .mark .assign :: ts) := by
  obtain ⟨x, more, hTokens⟩ := h
  exact ⟨⟨more ++ [.mark .semicolon], .store y x, by simp [Clause.tokens, hTokens]⟩,
    by simp [y.undeclaring, Phrase.Begins.undeclaring ⟨x, more, hTokens⟩]⟩

end BeginsStmt

namespace Place

/-- Nothing that is required where something is complete has begun. -/
theorem begins_behind : Begins .behind [] := ⟨⟨[], rfl⟩, undeclaring_nil⟩

theorem begins_close : Begins .close [] := ⟨⟨_, rfl⟩, undeclaring_nil⟩

theorem begins_block : Begins (.clause .block) [] := ⟨⟨_, .braces [] .nil, rfl⟩, undeclaring_nil⟩

theorem begins_stmts : Begins (.clause .stmts) [] := ⟨⟨[], .nil, rfl⟩, undeclaring_nil⟩

theorem begins_condition : Begins .condition [] := ⟨⟨_, .shortest _, rfl⟩, undeclaring_nil⟩

theorem begins_test {ts : List Token} (h : BeginsParenthesized ts) :
    Begins .condition (.keyword .whileWord :: ts) := by
  obtain ⟨x, more, hTokens⟩ := h
  exact ⟨⟨more ++ [.mark .semicolon], x, by simp [hTokens]⟩,
    by simp [BeginsParenthesized.undeclaring ⟨x, more, hTokens⟩]⟩

end Place

/-! ## Ways through a program -/

/-- An `Event` that declares nothing leaves storage and symbols as they are. -/
theorem Still.of_event {s s' : ParserState} {e : Event} (hEvent : e.symbol? = none)
    (hLog : s'.log = e :: s.log) (hUsed : s'.used = s.used) : Still s s' := by
  refine ⟨?_, hUsed⟩
  rw [ParserState.symbols, hLog, List.reverse_cons, List.filterMap_append, ParserState.symbols]
  simp [hEvent]

/-- Behind a halt the blocks and loops that were open are closed, which makes no difference. -/
theorem Halt.left {s s' s'' : ParserState} {V : List Token → Prop} {stop : Stop}
    (h : Halt s V stop s') (hRest : s''.rest = s'.rest) (hStill : Still s' s'') :
    Halt s V stop s'' := by
  cases h with
  | exhausted => exact .exhausted s''
  | found hRead hBegins hFound hSame =>
    exact .found (hRest ▸ hRead) hBegins hFound (hSame.trans hStill)
  | atEnd hEnd hRead hBegins hSame =>
    exact .atEnd hEnd (hRest.trans hRead) hBegins (hSame.trans hStill)
  | repeated hRead hNext hBegins hSame =>
    refine .repeated (hRest ▸ hRead) ?_ hBegins (hSame.trans hStill)
    rw [ParserState.tokens, hRest]
    exact hNext
  | semantic hRead hBegins hOther hSame =>
    exact .semantic (hRest ▸ hRead) hBegins hOther (hSame.trans hStill)

theorem StopsAt.left {s s' s'' : ParserState} {p : Place} {stop : Stop} (h : StopsAt s p stop s')
    (hRest : s''.rest = s'.rest) (hStill : Still s' s'') : StopsAt s p stop s'' := by
  cases h with
  | halt h => exact .halt (h.left hRest hStill)
  | refused h =>
    obtain ⟨hRead, hType, hSame⟩ := h
    exact .refused ⟨hRest ▸ hRead, hType, hSame.trans hStill⟩

/-- A parser stops somewhere in a `Clause`: some tokens have led it to a `Place` (`Clause.Leads`),
and there it stops (`StopsAt`). -/
inductive StopsWithin (k : Kind) (s : ParserState) (stop : Stop) (s' : ParserState) : Prop
  | intro {p : Place} {ts : List Token} {ds : List Decl} {s₁ : ParserState}
      (hLeads : Clause.Leads k p ts ds) (hCourse : Course s ts ds s₁)
      (hStops : StopsAt s₁ p stop s')

/-- A parser reads a `Clause` of a kind, or stops within one (`StopsWithin`). -/
def StopsIn {α : Type} (k : Kind) (p : Parser α) : Prop :=
  ∀ s, Yields p s (fun _ s' => ∃ x : Clause k, Course s x.tokens x.decls s') (StopsWithin k s)

section Ways

variable {s s₁ s' s'' : ParserState} {k k' : Kind} {p : Place} {ts : List Token} {ds : List Decl}
  {stop : Stop}

/-- What stops within a part stops within the whole. -/
theorem StopsWithin.after (h : StopsWithin k s₁ stop s') (hCourse : Course s ts ds s₁)
    (hPart : ∀ {p w es}, Clause.Leads k p w es → Clause.Leads k' p (ts ++ w) (ds ++ es)) :
    StopsWithin k' s stop s' := by
  obtain ⟨hLeads, hInside, hStops⟩ := h
  exact ⟨hPart hLeads, hCourse.trans hInside, hStops⟩

theorem StopsWithin.left (h : StopsWithin k s stop s') (hRest : s''.rest = s'.rest)
    (hStill : Still s' s'') : StopsWithin k s stop s'' := by
  obtain ⟨hLeads, hCourse, hStops⟩ := h
  exact ⟨hLeads, hCourse, hStops.left hRest hStill⟩

/-- What halts at the end of a way stops within the clause. -/
theorem Halt.within {V : List Token → Prop} (h : Halt s₁ V stop s') (hCourse : Course s ts ds s₁)
    (hLeads : Clause.Leads k p ts ds) (hBegins : ∀ us, V us → p.Begins us) :
    StopsWithin k s stop s' := ⟨hLeads, hCourse, .halt (h.mono hBegins)⟩

/-- What halts before it reads anything stops within the clause. -/
theorem Halt.at (h : Halt s₁ (· = []) stop s') (hCourse : Course s ts ds s₁)
    (hLeads : Clause.Leads k p ts ds) (hBegins : p.Begins []) : StopsWithin k s stop s' := by
  refine h.within hCourse hLeads ?_
  rintro us rfl
  exact hBegins

/-- A parser that halts at once, if it does, at the end of a way: what it has not begun may still
stand there. -/
theorem Course.step {α β : Type} {q : Parser α} {f : α → Parser β} {mid : α → ParserState → Prop}
    {onOk : β → ParserState → Prop} (hCourse : Course s ts ds s₁)
    (h : Yields q s₁ mid (Halt s₁ (· = []))) (hLeads : Clause.Leads k p ts ds)
    (hBegins : p.Begins [])
    (hNext : ∀ a s₂, mid a s₂ → Yields (f a) s₂ onOk (StopsWithin k s)) :
    Yields (q >>= f) s₁ onOk (StopsWithin k s) :=
  Yields.bind h (fun _ _ hHalt => hHalt.at hCourse hLeads hBegins) hNext

end Ways

section Forms

variable {fuel : Nat}

/-! ## Assignments and breaks -/

theorem halts_condition (construct : Construct) (span : Span) (s : ParserState) :
    Yields (condition fuel construct span) s
      (fun _ s' => ∃ x : Phrase .bool, Takes s (parenthesized x.tokens) s')
      (Halt s BeginsParenthesized) := by
  rw [condition]
  refine (Takes.refl s).step (halts_expect _ s) .nil fun _ s₁ hOpen => ?_
  refine hOpen.bind ((exprHalts fuel).expr .disjunction s₁) (fun us h => .inside h) ?_
  rintro c s₂ ⟨x, hInside⟩
  have hBefore := hOpen.trans hInside
  refine hBefore.step (halts_expect _ s₂) (.inside (.whole x)) fun _ s₃ hClose => ?_
  have hTakes : Takes s (parenthesized x.tokens) s₃ := hOpen.trans (hInside.trans hClose)
  split
  · exact ⟨x, hTakes⟩
  · exact (Halt.rule span s₃ id).here hTakes (.whole x)

/-- A statement without parts has been read, or the parser halts in it (`Halt`). -/
def HaltsInSimple (p : Parser Stmt) : Prop :=
  ∀ s, Yields p s (fun _ s' => ∃ x : Clause .stmt, Takes s x.tokens s' ∧ x.decls = [])
    (Halt s BeginsStmt)

theorem HaltsInSimple.stops {p : Parser Stmt} (h : HaltsInSimple p) : StopsIn .stmt p := by
  intro s
  refine (h s).mono ?_ fun _ _ hHalt => hHalt.within (.refl s) (.here .stmt) fun _ h => h
  rintro t s' ⟨x, hTakes, hDecls⟩
  exact ⟨x, hDecls ▸ hTakes.course⟩

theorem halts_assignment : HaltsInSimple (assignment fuel) := by
  intro s
  rw [assignment]
  refine (Takes.refl s).step (halts_name s) .nil fun found s₁ hFound => ?_
  obtain ⟨-, hName⟩ := hFound
  -- the type of the name decides between the two forms, before any bracket is seen
  refine hName.step (halts_resolve _ _ s₁) (.name _) ?_
  rintro x s₂ rfl
  refine hName.step (halts_atMark _ s₂) (.name _) ?_
  rintro b s₃ ⟨rfl, -⟩
  dsimp only
  split
  · -- a variable
    refine hName.step (halts_expect _ s₃) (.name _) fun sign s₄ hSign => ?_
    have hTarget : Takes s [.name found.value, .mark .assign] s₄ := hName.trans hSign
    refine hTarget.bind ((exprHalts fuel).expr .disjunction s₄) (fun us h => .set _ h) ?_
    rintro a s₅ ⟨value, hValue⟩
    have hUnended := hTarget.trans hValue
    split
    · rw [pure_bind]
      refine hUnended.step (halts_expect _ s₅) (.set _ (.whole value)) fun _ s₆ hEnd => ?_
      exact ⟨.set found.value value, hTarget.trans (hValue.trans hEnd), rfl⟩
    · rw [yields_failAt_bind]
      exact (Halt.rule sign s₅ id).here hUnended (.set _ (.whole value))
  · -- an element of an array, which begins with the name that is behind us
    refine Yields.bind ((exprHalts fuel).access s s₃ found.value x found.span hName)
      (fun _ _ hHalt => hHalt.mono fun us h => .target h) ?_
    rintro target s₄ ⟨y, hElement⟩
    refine hElement.step (halts_expect _ s₄) (.target (.whole y)) fun sign s₅ hSign => ?_
    have hTarget := hElement.trans hSign
    -- behind the sign there is a value, as there is for a variable
    refine hTarget.bind ((exprHalts fuel).expr .disjunction s₅) (fun us h => ?_) ?_
    · simpa using BeginsStmt.store y h
    rintro a s₆ ⟨value, hValue⟩
    have hUnended : Takes s (y.tokens ++ .mark .assign :: value.tokens) s₆ :=
      hElement.trans (hSign.trans hValue)
    split
    · rw [pure_bind]
      refine hUnended.step (halts_expect _ s₆) (.store y (.whole value)) fun _ s₇ hEnd => ?_
      exact ⟨.store y value, hElement.trans (hSign.trans (hValue.trans hEnd)), rfl⟩
    · rw [yields_failAt_bind]
      exact (Halt.rule sign s₆ id).here hUnended (.store y (.whole value))

theorem halts_breakStmt : HaltsInSimple breakStmt := by
  intro s
  rw [breakStmt]
  refine (Takes.refl s).step (halts_expect _ s) .nil fun span s₁ hWord => ?_
  rw [yields_get]
  split
  · rw [yields_failAt]
    exact (Halt.rule span s₁ id).here hWord .breakWord
  · refine hWord.step (halts_expect _ s₁) .breakWord fun _ s₂ hEnd => ?_
    exact ⟨.leave, hWord.trans hEnd, rfl⟩

/-! ## Conditionals and loops -/

theorem stops_ifStmt {body : Parser Stmt} (hBody : StopsIn .stmt body) :
    StopsIn .stmt (ifStmt fuel body) := by
  intro s
  rw [ifStmt]
  refine (Course.refl s).step (halts_expect _ s) (.here .stmt) BeginsStmt.nil fun span s₁ hIf => ?_
  refine Yields.bind (halts_condition _ span s₁) (fun _ _ hHalt => ?_) ?_
  · -- a halt in the condition is one in the statement itself: no part has been read yet
    exact (hHalt.after hIf fun us h => BeginsStmt.ifHead h).within (.refl s) (.here .stmt)
      fun _ h => h
  rintro c s₂ ⟨test, hTest⟩
  have hHead := (hIf.trans hTest).course
  refine Yields.bind (hBody s₂) (fun _ _ h => h.after hHead (.ifThen test)) ?_
  rintro t s₃ ⟨x, hx⟩
  have hThen : Course s (Clause.ifThen test x).tokens (Clause.ifThen test x).decls s₃ :=
    hHead.trans hx
  -- one token decides whether the statement ends here, so nothing is begun when it is looked at
  refine hThen.step (halts_peek s₃) (.behind _) Place.begins_behind ?_
  rintro t' s₄ ⟨rfl, rfl⟩
  split
  · next hElse =>
    rw [beq_iff_eq] at hElse
    refine hThen.step (halts_next s₄) (.behind _) Place.begins_behind fun found s₅ hFound => ?_
    obtain ⟨-, -, hWord⟩ := hFound
    rw [hWord.head hElse] at hWord
    have hBoth := hHead.trans (hx.trans hWord.course)
    refine Yields.bind (hBody s₅) (fun _ _ h => h.after hBoth fun hLeads => ?_) ?_
    · simpa using hLeads.ifElse test x
    rintro t₂ s₆ ⟨y, hy⟩
    refine ⟨.ifElse test x y, ?_⟩
    simpa [Clause.tokens] using hBoth.trans hy
  · exact ⟨.ifThen test x, hThen⟩

/-- A loop is opened and closed around its body. -/
theorem stops_loopBody {body : Parser Stmt} (hBody : StopsIn .stmt body) (s : ParserState) :
    Yields (inLoop ⟨s.met⟩ body) { s with met := s.met + 1 }
      (fun _ s' => ∃ x : Clause .stmt, Course s x.tokens x.decls s') (StopsWithin .stmt s) := by
  have hEnter : Course s [] [] (enterLoop ⟨s.met⟩ { s with met := s.met + 1 }) :=
    (Course.refl s).still rfl rfl (.of_event rfl rfl rfl)
  have hLeave (s' : ParserState) : Still s' (leaveLoop s') := .of_event rfl rfl rfl
  -- the loop is left wherever its body stops
  rw [yields_inLoop]
  refine (hBody _).mono ?_ fun _ s' h => (h.after hEnter fun hLeads => hLeads).left rfl (hLeave s')
  rintro t s' ⟨x, hx⟩
  exact ⟨x, (hEnter.trans hx).still rfl rfl (hLeave s')⟩

theorem stops_whileStmt {body : Parser Stmt} (hBody : StopsIn .stmt body) :
    StopsIn .stmt (whileStmt fuel body) := by
  intro s
  rw [whileStmt]
  refine (Course.refl s).step (halts_expect _ s) (.here .stmt) BeginsStmt.nil
    fun span s₁ hWhile => ?_
  refine Yields.bind (halts_condition _ span s₁) (fun _ _ hHalt => ?_) ?_
  · exact (hHalt.after hWhile fun us h => BeginsStmt.whileHead h).within (.refl s) (.here .stmt)
      fun _ h => h
  rintro c s₂ ⟨test, hTest⟩
  have hHead := (hWhile.trans hTest).course
  rw [yields_newExit]
  refine Yields.bind (stops_loopBody hBody s₂) (fun _ _ h => h.after hHead (.whileLoop test)) ?_
  rintro t s₃ ⟨x, hx⟩
  exact ⟨.whileLoop test x, hHead.trans hx⟩

theorem stops_doStmt {body : Parser Stmt} (hBody : StopsIn .stmt body) :
    StopsIn .stmt (doStmt fuel body) := by
  intro s
  rw [doStmt]
  refine (Course.refl s).step (halts_expect _ s) (.here .stmt) BeginsStmt.nil fun _ s₁ hDo => ?_
  have hHead := hDo.course
  rw [yields_newExit]
  refine Yields.bind (stops_loopBody hBody s₁) (fun _ _ h => h.after hHead .doLoop) ?_
  rintro t s₂ ⟨x, hx⟩
  -- behind the body there is a place of its own for the condition
  have hBefore := hHead.trans hx
  have hLeads := Clause.Leads.condition x
  refine hBefore.step (halts_expect _ s₂) hLeads Place.begins_condition fun span s₃ hWhile => ?_
  refine Yields.bind (halts_condition _ span s₃) (fun _ _ hHalt => ?_) ?_
  · exact (hHalt.after hWhile fun us h => Place.begins_test h).within hBefore hLeads fun _ h => h
  rintro c s₄ ⟨test, hTest⟩
  -- the condition is part of the statement, not of its body
  have hTail := hWhile.trans hTest
  refine Yields.bind (halts_expect _ s₄) (fun _ _ hHalt => ?_) fun _ s₅ hEnd => ?_
  · exact (hHalt.here hTail (Place.begins_test (.whole test))).within hBefore hLeads fun _ h => h
  refine ⟨.doLoop x test, ?_⟩
  simpa [Clause.tokens] using hBefore.trans (hTail.trans hEnd).course

end Forms

/-! ## Statements and blocks -/

/-- What the functions for statements do from some fuel: each `StopsIn` its kind. -/
structure StmtStops (fuel : Nat) : Prop where
  stmt : StopsIn .stmt (stmt fuel)
  stmts : StopsIn .stmts (stmts fuel)
  block : StopsIn .block (block fuel)

section Steps

variable {fuel : Nat}

theorem stmt_stops (ih : StmtStops fuel) : StopsIn .stmt (stmt (fuel + 1)) := by
  intro s
  rw [stmt]
  refine (Course.refl s).step (halts_peek s) (.here .stmt) BeginsStmt.nil ?_
  rintro t s₁ ⟨rfl, rfl⟩
  split
  · next hHead =>
    refine (Course.refl s₁).step (halts_next s₁) (.here .stmt) BeginsStmt.nil
      fun found s₂ hFound => ?_
    obtain ⟨-, -, hMark⟩ := hFound
    rw [hMark.head hHead] at hMark
    exact ⟨.empty, hMark.course⟩
  · refine (ih.block s₁).mono ?_ fun _ _ h => h.after (.refl s₁) .block
    rintro t s₂ ⟨x, hx⟩
    exact ⟨.block x, hx⟩
  · exact stops_ifStmt ih.stmt s₁
  · exact stops_whileStmt ih.stmt s₁
  · exact stops_doStmt ih.stmt s₁
  · exact halts_breakStmt.stops s₁
  · exact halts_assignment.stops s₁

theorem stmts_stops (ih : StmtStops fuel) : StopsIn .stmts (stmts (fuel + 1)) := by
  intro s
  rw [stmts]
  refine (Course.refl s).step (halts_peek s) (.here .stmts) Place.begins_stmts ?_
  rintro t s₁ ⟨rfl, rfl⟩
  split
  · exact ⟨.nil, .refl s₁⟩
  · exact ⟨.nil, .refl s₁⟩
  · refine Yields.bind (ih.stmt s₁) (fun _ _ h => h.after (.refl s₁) .first) ?_
    rintro t s₂ ⟨x, hx⟩
    refine Yields.bind (ih.stmts s₂) (fun _ _ h => h.after hx (.later x)) ?_
    rintro ts s₃ ⟨y, hy⟩
    exact ⟨.cons x y, hx.trans hy⟩

theorem block_stops (ih : StmtStops fuel) : StopsIn .block (block (fuel + 1)) := by
  intro s
  rw [block]
  refine (Course.refl s).step (halts_expect _ s) (.here .block) Place.begins_block
    fun _ s₁ hOpen => ?_
  have hEnter : Course s [.mark .openCurly] [] (enterScope s₁) :=
    hOpen.course.still rfl rfl (.of_event rfl rfl rfl)
  have hLeave (s' : ParserState) : Still s' (leaveScope s') := .of_event rfl rfl rfl
  -- wherever it stops inside, the block is left, which reads and declares nothing
  have hInside : Yields (inScope (decls fuel >>= fun _ => stmts fuel)) s₁
      (fun _ s' => ∃ (ds : List Decl) (x : Clause .stmts),
        Course s (.mark .openCurly :: (ds.flatMap Decl.tokens ++ x.tokens)) (ds ++ x.decls) s')
      (StopsWithin .block s) := by
    rw [yields_inScope]
    refine Yields.bind (halts_decls fuel (enterScope s₁)) ?_ ?_
    · rintro stop s' ⟨ds, s₂, hDecls, hStops⟩
      exact ⟨.decls ds, hEnter.trans hDecls, hStops.left rfl (hLeave s')⟩
    rintro - s₂ ⟨ds, hDecls⟩
    have hBefore := hEnter.trans hDecls
    refine (ih.stmts s₂).mono ?_ fun _ s' h => (h.after hBefore (.items ds)).left rfl (hLeave s')
    rintro ts s₃ ⟨x, hx⟩
    exact ⟨ds, x, (hBefore.trans hx).still rfl rfl (hLeave s₃)⟩
  refine hInside.bind (fun _ _ h => h) ?_
  rintro ts s₂ ⟨ds, x, hItems⟩
  refine hItems.step (halts_expect _ s₂) (.close ds x) Place.begins_close fun _ s₃ hClose => ?_
  refine ⟨.braces ds x, ?_⟩
  simpa [Clause.tokens] using hItems.trans hClose.course

end Steps

/-- **Where statements stop.** Each function for statements reads what it is for, or stops within
it. The induction is on the fuel. -/
theorem stmtStops (fuel : Nat) : StmtStops fuel := by
  induction fuel with
  | zero =>
    exact {
      stmt s := (Halt.exhausted s).at (.refl s) (.here .stmt) BeginsStmt.nil
      stmts s := (Halt.exhausted s).at (.refl s) (.here .stmts) Place.begins_stmts
      block s := (Halt.exhausted s).at (.refl s) (.here .block) Place.begins_block }
  | succ fuel ih =>
    exact {
      stmt := stmt_stops ih
      stmts := stmts_stops ih
      block := block_stops ih }

/-- **Where programs stop.** A program is read up to the end of the tokens, or the parser stops
within one (`StopsWithin`). The storage of a program is what its declarations take. -/
theorem program_stops (fuel : Nat) (s : ParserState) :
    Yields (program fuel) s
      (fun p s' => s'.rest = [] ∧ p.width = s'.used ∧
        ∃ x : Clause .block, Course s x.tokens x.decls s')
      (StopsWithin .block s) := by
  rw [program]
  refine Yields.bind ((stmtStops fuel).block s) (fun _ _ h => h) ?_
  rintro body s₁ ⟨x, hx⟩
  refine hx.step (halts_peek s₁) (.behind x) Place.begins_behind ?_
  rintro t s₂ ⟨rfl, rfl⟩
  split
  · -- whatever stands behind the block is refused
    refine hx.step (halts_next s₂) (.behind x) Place.begins_behind fun found s₃ hFound => ?_
    obtain ⟨hRest, hLast, hTakes⟩ := hFound
    have hFail : Yields (fail (.trailingInput found.value)) s₃ (fun (_ : Unit) _ => False)
        (Halt s₂ (· = [])) := halts_fail hRest hLast hTakes rfl
    rw [yields_fail] at hFail
    exact hFail.at hx (.behind x) Place.begins_behind
  · next hEnd =>
    rw [yields_get, yields_pure]
    refine ⟨?_, rfl, x, hx⟩
    simpa [ParserState.tokens] using hEnd

end JumpCode
