import JumpCode.Proofs.Storage.Declarations

/-!
# JumpCode — beginnings of programs

When the parser stops, the tokens in front of it are the beginning of something: of an expression,
of a declaration, of a program. What they are the beginning of can always be completed.

* `Phrase.Begins` — beginnings of expressions, with one law for each form;
* `Place` — what may be next somewhere in a program;
* `Clause.Leads` — a way from the start of a statement to a place inside of it;
* `Clause.Leads.complete` — whatever may stand at a place is part of a whole statement.
-/

namespace JumpCode

/-! ## Expressions -/

/-- With these tokens an expression of a rank may begin: some `Phrase` has them in front. -/
def Phrase.Begins (r : Rank) (ts : List Token) : Prop :=
  ∃ (x : Phrase r) (more : List Token), x.tokens = ts ++ more

/-- An expression of each rank, of no more tokens than it needs, for completing what has begun. -/
def Phrase.shortest : (r : Rank) → Phrase r
  | .bool => .pass .bool (.pass .join (.pass .equality (.pass .rel (.pass .expr (.pass .term
      (.pass .unary (.int 0)))))))
  | .join => .pass .join (.pass .equality (.pass .rel (.pass .expr (.pass .term
      (.pass .unary (.int 0))))))
  | .equality => .pass .equality (.pass .rel (.pass .expr (.pass .term (.pass .unary (.int 0)))))
  | .rel => .pass .rel (.pass .expr (.pass .term (.pass .unary (.int 0))))
  | .expr => .pass .expr (.pass .term (.pass .unary (.int 0)))
  | .term => .pass .term (.pass .unary (.int 0))
  | .unary => .pass .unary (.int 0)
  | .factor => .int 0
  | .element => .element "a" (.pass .bool (.pass .join (.pass .equality (.pass .rel (.pass .expr
      (.pass .term (.pass .unary (.int 0))))))))

namespace Phrase.Begins

variable {r s left right : Rank} {ts : List Token}

theorem nil (r : Rank) : Begins r [] := ⟨.shortest r, _, (List.nil_append _).symm⟩

theorem whole (x : Phrase r) : Begins r x.tokens := ⟨x, [], (List.append_nil _).symm⟩

/-- What begins an expression of a rank begins one of every looser rank too (`Rank.Passes`). -/
theorem pass (hPasses : r.Passes s) (h : Begins s ts) : Begins r ts := by
  obtain ⟨x, more, hTokens⟩ := h
  exact ⟨.pass hPasses x, more, hTokens⟩

/-- Behind a left operand and its operator, what begins the right operand goes on with the whole. -/
theorem binary {m : Mark} {op : BinaryOp} (hJoins : r.Joins left m op right) (x : Phrase left)
    (h : Begins right ts) : Begins r (x.tokens ++ .mark m :: ts) := by
  obtain ⟨y, more, hTokens⟩ := h
  exact ⟨.binary hJoins x y, more, by simp [tokens, hTokens]⟩

/-- Behind a unary operator, what begins its operand goes on with the whole. -/
theorem unary {m : Mark} {op : UnaryOp} (hSign : Rank.Signs m op) (h : Begins .unary ts) :
    Begins .unary (.mark m :: ts) := by
  obtain ⟨x, more, hTokens⟩ := h
  exact ⟨.unary hSign x, more, by simp [tokens, hTokens]⟩

/-- Behind a parenthesis, what begins an expression goes on with a factor. -/
theorem paren (h : Begins .bool ts) : Begins .factor (.mark .openParen :: ts) := by
  obtain ⟨x, more, hTokens⟩ := h
  exact ⟨.paren x, more ++ [.mark .closeParen], by simp [tokens, parenthesized, hTokens]⟩

/-- What begins an element of an array begins a factor. -/
theorem access (h : Begins .element ts) : Begins .factor ts := by
  obtain ⟨x, more, hTokens⟩ := h
  exact ⟨.access x, more, hTokens⟩

/-- What begins an expression does not begin a declaration: expressions are `Undeclaring`. -/
theorem undeclaring (h : Begins r ts) : Undeclaring ts := by
  obtain ⟨x, more, hTokens⟩ := h
  have hAll := x.undeclaring
  rw [hTokens, undeclaring_append] at hAll
  exact hAll.1

end Phrase.Begins

/-- With these tokens an expression in brackets may begin: they are in front of `bracketed` tokens.
-/
def BeginsBracketed (ts : List Token) : Prop :=
  ∃ (x : Phrase .bool) (more : List Token), bracketed x.tokens = ts ++ more

theorem BeginsBracketed.element {ts : List Token} (h : BeginsBracketed ts) (text : String) :
    Phrase.Begins .element (.name text :: ts) := by
  obtain ⟨x, more, hTokens⟩ := h
  exact ⟨.element text x, more, by simp [Phrase.tokens, hTokens]⟩

theorem BeginsBracketed.next {ts : List Token} (h : BeginsBracketed ts) (y : Phrase .element) :
    Phrase.Begins .element (y.tokens ++ ts) := by
  obtain ⟨x, more, hTokens⟩ := h
  exact ⟨.next y x, more, by simp [Phrase.tokens, hTokens]⟩

theorem BeginsBracketed.inside {ts : List Token} (h : Phrase.Begins .bool ts) :
    BeginsBracketed (.mark .openSquare :: ts) := by
  obtain ⟨x, more, hTokens⟩ := h
  exact ⟨x, more ++ [.mark .closeSquare], by simp [bracketed, hTokens]⟩

theorem BeginsBracketed.nil : BeginsBracketed [] := ⟨.shortest _, _, (List.nil_append _).symm⟩

theorem BeginsBracketed.whole (x : Phrase .bool) : BeginsBracketed (bracketed x.tokens) :=
  ⟨x, [], (List.append_nil _).symm⟩

/-! ## Declarations -/

/-- With these tokens a `Decl` may begin, and at least one more is missing. -/
def Decl.Begins (ts : List Token) : Prop :=
  ∃ (d : Decl) (more : List Token), d.tokens = ts ++ more ∧ more ≠ []

/-! ## Places -/

/-- What may be next somewhere in a program, which the tokens in front decide (`Clause.Leads`). -/
inductive Place
  /-- A statement, statements, or a block. -/
  | clause (k : Kind)
  /-- A declaration. -/
  | decl
  /-- The end of a block. -/
  | close
  /-- The condition of a loop whose body comes first. -/
  | condition
  /-- Nothing: something is complete. -/
  | behind
deriving DecidableEq

/-- The tokens that may stand at a `Place`: all of what belongs there. -/
def Place.Fits : Place → List Token → Prop
  | clause k, ts => ∃ x : Clause k, x.tokens = ts
  | decl, ts => ∃ d : Decl, d.tokens = ts
  | close, ts => ts = [.mark .closeCurly]
  | condition, ts => ∃ test : Phrase .bool,
    ts = .keyword .whileWord :: (parenthesized test.tokens ++ [.mark .semicolon])
  | behind, ts => ts = []

/-- With these tokens it may begin what stands at a `Place`: a part of a declaration, or tokens
among which none begins (`Undeclaring`). -/
def Place.Begins : Place → List Token → Prop
  | decl, ts => Decl.Begins ts
  | p, ts => (∃ more, p.Fits (ts ++ more)) ∧ Undeclaring ts

/-- From the start of a `Clause` these tokens lead to a `Place` inside of it, and these declarations
are complete. There is one rule for each part of a form that the way may go into. -/
inductive Clause.Leads : Kind → Place → List Token → List Decl → Prop
  | here (k : Kind) : Leads k (.clause k) [] []
  | behind {k : Kind} (x : Clause k) : Leads k .behind x.tokens x.decls
  | decls (ds : List Decl) :
      Leads .block .decl (.mark .openCurly :: ds.flatMap Decl.tokens) ds
  | items {p : Place} {ts : List Token} {es : List Decl} (ds : List Decl)
      (h : Leads .stmts p ts es) :
      Leads .block p (.mark .openCurly :: (ds.flatMap Decl.tokens ++ ts)) (ds ++ es)
  | close (ds : List Decl) (items : Clause .stmts) :
      Leads .block .close (.mark .openCurly :: (ds.flatMap Decl.tokens ++ items.tokens))
        (ds ++ items.decls)
  | first {p : Place} {ts : List Token} {ds : List Decl} (h : Leads .stmt p ts ds) :
      Leads .stmts p ts ds
  | later {p : Place} {ts : List Token} {ds : List Decl} (x : Clause .stmt)
      (h : Leads .stmts p ts ds) : Leads .stmts p (x.tokens ++ ts) (x.decls ++ ds)
  | block {p : Place} {ts : List Token} {ds : List Decl} (h : Leads .block p ts ds) :
      Leads .stmt p ts ds
  | ifThen {p : Place} {ts : List Token} {ds : List Decl} (test : Phrase .bool)
      (h : Leads .stmt p ts ds) :
      Leads .stmt p (.keyword .ifWord :: (parenthesized test.tokens ++ ts)) ds
  | ifElse {p : Place} {ts : List Token} {ds : List Decl} (test : Phrase .bool)
      (body : Clause .stmt) (h : Leads .stmt p ts ds) :
      Leads .stmt p (.keyword .ifWord :: (parenthesized test.tokens ++
        (body.tokens ++ .keyword .elseWord :: ts))) (body.decls ++ ds)
  | whileLoop {p : Place} {ts : List Token} {ds : List Decl} (test : Phrase .bool)
      (h : Leads .stmt p ts ds) :
      Leads .stmt p (.keyword .whileWord :: (parenthesized test.tokens ++ ts)) ds
  | doLoop {p : Place} {ts : List Token} {ds : List Decl} (h : Leads .stmt p ts ds) :
      Leads .stmt p (.keyword .doWord :: ts) ds
  | condition (body : Clause .stmt) :
      Leads .stmt .condition (.keyword .doWord :: body.tokens) body.decls

/-- The declarations that are complete on the way are those that its tokens spell (`Spells`). -/
theorem Clause.Leads.spells {k : Kind} {p : Place} {ts : List Token} {ds : List Decl}
    (h : Leads k p ts ds) : Spells ts ds := by
  have hHead (word : Keyword) (test : Phrase .bool) :
      Undeclaring (.keyword word :: parenthesized test.tokens) := by
    simp [parenthesized, test.undeclaring]
  induction h with
  | here => exact .nil
  | behind x => exact x.spells
  | decls ds => exact .other (by simp) (.ofDecls ds)
  | items ds _ ih => exact .other (by simp) ((Spells.ofDecls ds).append ih)
  | close ds items => exact .other (by simp) ((Spells.ofDecls ds).append items.spells)
  | first _ ih => exact ih
  | later x _ ih => exact x.spells.append ih
  | block _ ih => exact ih
  | ifThen test _ ih => exact .cons_append (.keyword .ifWord :: _) ih (hHead _ test)
  | ifElse test body _ ih =>
    exact .cons_append (.keyword .ifWord :: _)
      (body.spells.append (.other (by simp) ih)) (hHead _ test)
  | whileLoop test _ ih => exact .cons_append (.keyword .whileWord :: _) ih (hHead _ test)
  | doLoop _ ih => exact .other (by simp) ih
  | condition body => exact .other (by simp) body.spells

/-- **What may stand at a place is part of a whole**, with all that leads to the place in front:
tokens of which `Place.Fits` holds are followed up to a `Clause`. -/
theorem Clause.Leads.complete {k : Kind} {p : Place} {ts : List Token} {ds : List Decl}
    (h : Leads k p ts ds) {us : List Token} (hFits : p.Fits us) :
    ∃ (x : Clause k) (more : List Token), x.tokens = ts ++ (us ++ more) := by
  -- each step of the way leaves room for a shortest end
  induction h with
  | here k =>
    obtain ⟨x, rfl⟩ := hFits
    exact ⟨x, [], by simp⟩
  | behind x =>
    obtain rfl : us = [] := hFits
    exact ⟨x, [], by simp⟩
  | decls ds =>
    obtain ⟨d, rfl⟩ := hFits
    exact ⟨.braces (ds ++ [d]) .nil, [.mark .closeCurly], by simp [tokens]⟩
  | items ds _ ih =>
    obtain ⟨x, more, hTokens⟩ := ih hFits
    exact ⟨.braces ds x, more ++ [.mark .closeCurly], by simp [tokens, hTokens]⟩
  | close ds items =>
    obtain rfl : us = [.mark .closeCurly] := hFits
    exact ⟨.braces ds items, [], by simp [tokens]⟩
  | first _ ih =>
    obtain ⟨x, more, hTokens⟩ := ih hFits
    exact ⟨.cons x .nil, more, by simp [tokens, hTokens]⟩
  | later x _ ih =>
    obtain ⟨y, more, hTokens⟩ := ih hFits
    exact ⟨.cons x y, more, by simp [tokens, hTokens]⟩
  | block _ ih =>
    obtain ⟨x, more, hTokens⟩ := ih hFits
    exact ⟨.block x, more, hTokens⟩
  | ifThen test _ ih =>
    obtain ⟨x, more, hTokens⟩ := ih hFits
    exact ⟨.ifThen test x, more, by simp [tokens, hTokens]⟩
  | ifElse test body _ ih =>
    obtain ⟨x, more, hTokens⟩ := ih hFits
    exact ⟨.ifElse test body x, more, by simp [tokens, hTokens]⟩
  | whileLoop test _ ih =>
    obtain ⟨x, more, hTokens⟩ := ih hFits
    exact ⟨.whileLoop test x, more, by simp [tokens, hTokens]⟩
  | doLoop _ ih =>
    obtain ⟨x, more, hTokens⟩ := ih hFits
    obtain ⟨rest, hWhole⟩ : ∃ rest, (Clause.doLoop x (.shortest .bool)).tokens =
        .keyword .doWord :: (x.tokens ++ rest) := ⟨_, rfl⟩
    refine ⟨_, more ++ rest, hWhole.trans ?_⟩
    simp [hTokens]
  | condition body =>
    obtain ⟨test, rfl⟩ := hFits
    exact ⟨.doLoop body test, [], by simp [tokens]⟩

/-- What has begun at a `Place` can be completed to what stands there. -/
theorem Place.Begins.exists_fits {p : Place} {ts : List Token} (h : p.Begins ts) :
    ∃ more, p.Fits (ts ++ more) := by
  cases p with
  | decl =>
    obtain ⟨d, more, hTokens, -⟩ := h
    exact ⟨more, d, hTokens⟩
  | _ => exact h.1

/-- What has been begun at a place can be completed to a whole `Clause`: `Place.Begins.exists_fits`,
and then `Clause.Leads.complete`. -/
theorem Clause.Leads.begins {k : Kind} {p : Place} {ts us : List Token} {ds : List Decl}
    (h : Leads k p ts ds) (hBegins : p.Begins us) :
    ∃ (x : Clause k) (more : List Token), x.tokens = (ts ++ us) ++ more := by
  obtain ⟨rest, hFits⟩ := hBegins.exists_fits
  obtain ⟨x, more, hTokens⟩ := h.complete hFits
  exact ⟨x, rest ++ more, by simp [hTokens]⟩

end JumpCode
