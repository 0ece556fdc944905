import JumpCode.Proofs.Names.Leaves
import JumpCode.Proofs.Parsing.Language
import Mathlib.Data.List.Forall2

/-!
# JumpCode — what names refer to

Reading keeps a scope that grows and shrinks as blocks are entered and left. What a name refers to
can be said without it, from where the name stands in the text: it refers to the one declaration of
it in the innermost block around that has one. All declarations stand at the beginning of their
blocks, and their storage is counted through the whole text.

* `Clause.uses` — the names used in a derivation, in the order of the text, with the blocks around;
* `Use.Refers` — the symbol that a name refers to at its place;
* `Clause.Means.refers` — the symbols in the tree are these, one for each use;
* `names_resolve` — the same for programs that are read.
-/

namespace JumpCode

/-! ## Declarations and their storage -/

/-- The storage of a `Decl`, in bytes. -/
def Decl.width (d : Decl) : Nat := storage d.base ((d.before ++ d.after).map lengthOf)

theorem Decl.HasType.width {d : Decl} {type : Ty} (h : d.HasType type) : type.width = d.width := by
  rw [Ty.width, h.1, h.2, Decl.width]

/-- The storage of declarations in a row, in bytes. -/
def declsWidth : List Decl → Nat
  | [] => 0
  | d :: ds => d.width + declsWidth ds

/-- The storage of all declarations in a `Clause`, in whichever blocks they stand. -/
@[simp] def Clause.width : {k : Kind} → Clause k → Nat
  | _, block b => b.width
  | _, ifThen _ body => body.width
  | _, ifElse _ body otherwise => body.width + otherwise.width
  | _, whileLoop _ body => body.width
  | _, doLoop body _ => body.width
  | _, cons first others => first.width + others.width
  | _, braces decls items => declsWidth decls + items.width
  | _, _ => 0

/-- A block around some place of the text: its declarations, and the storage of all that is declared
in the text in front of it. -/
structure Surround where
  decls : List Decl
  base : Nat

/-- Whether a block declares a name, with whatever type. -/
def Surround.Declares (b : Surround) (name : String) : Prop := ∃ d ∈ b.decls, d.name = name

/-- The symbol that a block creates by its one declaration of a name: of the declared type, with its
storage behind all that is declared in front of it. -/
def Surround.Creates (b : Surround) (x : Symbol) : Prop :=
  ∃ (before after : List Decl) (d : Decl), b.decls = before ++ d :: after ∧ d.name = x.name ∧
    (∀ e ∈ before ++ after, e.name ≠ x.name) ∧ d.HasType x.type ∧
    x.offset = b.base + declsWidth before

/-! ## Uses of names -/

/-- A name that is used, with the blocks around it (`Surround`), the innermost first. -/
structure Use where
  name : String
  around : List Surround

/-- The symbol that a name refers to: the one that the innermost block with a declaration of it
creates. -/
inductive Use.Refers : Use → Symbol → Prop
  | here {b : Surround} {outer : List Surround} {x : Symbol} (hCreates : b.Creates x) :
      Refers ⟨x.name, b :: outer⟩ x
  | outside {b : Surround} {outer : List Surround} {name : String} {x : Symbol}
      (hOther : ¬ b.Declares name) (hOuter : Refers ⟨name, outer⟩ x) :
      Refers ⟨name, b :: outer⟩ x

/-- The names in an expression, in the order of the text. -/
@[simp] def Phrase.names : {r : Rank} → Phrase r → List String
  | _, pass _ x => x.names
  | _, binary _ x y => x.names ++ y.names
  | _, unary _ x => x.names
  | _, paren x => x.names
  | _, name text => [text]
  | _, access x => x.names
  | _, element text index => text :: index.names
  | _, next x index => x.names ++ index.names
  | _, _ => []

/-- The uses in an expression: each of its `names`, with the same blocks around. -/
def Phrase.uses {r : Rank} (around : List Surround) (x : Phrase r) : List Use :=
  x.names.map (⟨·, around⟩)

/-- The uses of names in a `Clause`, in the order of the text, inside of these blocks and behind
declarations that take up this storage. A block puts itself in front of the blocks around. -/
@[simp] def Clause.uses : {k : Kind} → (around : List Surround) → (before : Nat) → Clause k →
    List Use
  | _, around, before, block b => b.uses around before
  | _, around, _, set target value => ⟨target, around⟩ :: value.uses around
  | _, around, _, store target value => target.uses around ++ value.uses around
  | _, around, before, ifThen test body => test.uses around ++ body.uses around before
  | _, around, before, ifElse test body otherwise =>
    test.uses around ++
      (body.uses around before ++ otherwise.uses around (before + body.width))
  | _, around, before, whileLoop test body => test.uses around ++ body.uses around before
  | _, around, before, doLoop body test => body.uses around before ++ test.uses around
  | _, around, before, cons first others =>
    first.uses around before ++ others.uses around (before + first.width)
  | _, around, before, braces decls items =>
    items.uses (⟨decls, before⟩ :: around) (before + declsWidth decls)
  | _, _, _, _ => []

/-- The `Symbol` that an `Operand` is, if it is one. -/
@[simp] def Operand.symbol? : Operand → Option Symbol
  | var x => some x
  | _ => none

@[simp] theorem filterMap_symbol?_const (c : Constant) :
    [Operand.const c].filterMap Operand.symbol? = [] := rfl

/-- The symbols in an `Expr`: its variables and arrays, from left to right. -/
def Expr.symbols (e : Expr) : List Symbol := e.leaves.filterMap Operand.symbol?

/-- The symbols in a `Stmt`: its variables and arrays, targets included, from left to right. -/
def Stmt.symbols (s : Stmt) : List Symbol := s.leaves.filterMap Operand.symbol?

/-! ## Scopes and blocks -/

/-- Whether the names that are in force in a `Scope` are those of the blocks around: a name that is
found refers to the symbol that is found (`Use.Refers`). -/
def Scope.Mirrors (Γ : Scope) (around : List Surround) : Prop :=
  ∀ name x, Γ.lookup? name = some x → Use.Refers ⟨name, around⟩ x

theorem Scope.mirrors_empty : Scope.empty.Mirrors [] := by
  intro name x h
  simp [lookup?, frames, empty, Frame.lookup?] at h

theorem Scope.lookup?_enter (Γ : Scope) (name : String) :
    Γ.enter.lookup? name = Γ.lookup? name := by
  simp [lookup?, frames, enter, Frame.lookup?, List.findSome?_cons]

namespace Declares

variable {Γ Γ' : Scope} {used used' : Nat} {ds : List Decl}

theorem used_eq (h : Declares Γ used ds Γ' used') : used' = used + declsWidth ds := by
  induction h with
  | nil => simp [declsWidth]
  | cons hType _ _ _ ih =>
    rw [ih, hType.width]
    simp only [declsWidth]
    omega

/-- What is declared has not been declared in the same block before. -/
theorem fresh (h : Declares Γ used ds Γ' used') :
    ∀ d ∈ ds, ∀ x ∈ Γ.frame, x.name ≠ d.name := by
  induction h with
  | nil => simp
  | cons _ _ hNew _ ih =>
    intro d hd x hx
    rcases List.mem_cons.mp hd with rfl | hd
    · simpa using List.find?_eq_none.mp hNew x hx
    · exact ih d hd x (List.mem_cons_of_mem _ hx)

/-- Behind declarations a name is in force as the one of them that has it (`Surround.Creates`), or
as before. -/
theorem lookup? (h : Declares Γ used ds Γ' used') (name : String) :
    (∃ x, Γ'.lookup? name = some x ∧ x.name = name ∧ Surround.Creates ⟨ds, used⟩ x) ∨
      (∀ d ∈ ds, d.name ≠ name) ∧ Γ'.lookup? name = Γ.lookup? name := by
  induction h with
  | nil => exact .inr ⟨by simp, rfl⟩
  | @cons Γ Γ' used used' d ds type hType hFits hNew hRest ih =>
    rcases ih with ⟨x, hFound, hName, before, after, e, hSplit, he, hOnly, hHas, hOffset⟩ |
      ⟨hNone, hSame⟩
    · -- a later declaration of the name is the only one, since this one came first
      have hOther : d.name ≠ x.name := by
        have hFresh := hRest.fresh e (by rw [show ds = before ++ e :: after from hSplit]; simp)
          ⟨d.name, type, used⟩ List.mem_cons_self
        rwa [he] at hFresh
      refine .inl ⟨x, hFound, hName, d :: before, after, e, ?_, he, ?_, hHas, ?_⟩
      · show d :: ds = _
        rw [show ds = before ++ e :: after from hSplit, List.cons_append]
      · simpa [hOther] using hOnly
      · rw [hOffset, hType.width]
        simp only [declsWidth]
        omega
    · -- no later declaration has the name, so that this one is in force if it has it
      rw [Scope.lookup?_cons] at hSame
      by_cases hName : d.name = name
      · rw [if_pos hName] at hSame
        refine .inl ⟨_, hSame, hName, [], ds, d, rfl, rfl, ?_, hType, rfl⟩
        simpa [hName] using hNone
      · rw [if_neg hName] at hSame
        exact .inr ⟨List.forall_mem_cons.mpr ⟨hName, hNone⟩, hSame⟩

/-- A block that is entered brings its own declarations into force, over those around:
`Scope.Mirrors` holds with one `Surround` more. -/
theorem mirrors {around : List Surround} (h : Declares Γ.enter used ds Γ' used')
    (hScope : Γ.Mirrors around) : Γ'.Mirrors (⟨ds, used⟩ :: around) := by
  intro name x hx
  -- the block declares the name itself, or leaves it to the blocks around
  rcases h.lookup? name with ⟨y, hy, rfl, hCreates⟩ | ⟨hNone, hSame⟩
  · cases hy.symm.trans hx
    exact .here hCreates
  · rw [hSame, Scope.lookup?_enter] at hx
    refine .outside ?_ (hScope name x hx)
    rintro ⟨d, hd, hName⟩
    exact hNone d hd hName

end Declares

/-! ## The symbols in the tree -/

/-- Each name in an expression refers to the symbol that the tree has in its place, by induction on
`Phrase.Means`. -/
theorem Phrase.Means.refers {Γ : Scope} {around : List Surround} {r : Rank} {x : Phrase r}
    {a : Expr} (h : x.Means Γ a) (hScope : Γ.Mirrors around) :
    List.Forall₂ Use.Refers (x.uses around) a.symbols := by
  induction h with
  | pass _ ih | paren _ ih | access _ ih => exact ih
  | binary _ _ hOp ihx ihy =>
    simp only [uses, Expr.symbols, names, hOp.leaves, List.map_append, List.filterMap_append]
    exact List.rel_append ihx ihy
  | unary _ hOp ih =>
    simp only [uses, Expr.symbols, names, hOp.leaves]
    exact ih
  | int | real | truth => exact .nil
  | name hName => exact .cons (hScope _ _ hName) .nil
  | element hName _ _ hTerm ih =>
    simp only [uses, Expr.symbols, names, Expr.leaves, Binary.leaves hTerm, List.map_cons]
    refine .cons (hScope _ _ hName) ?_
    simpa [uses, Expr.symbols] using ih
  | next _ _ _ hTerm hSum ihx ih =>
    -- the subscripts stand behind the array and the ones before, in the tree as in the text
    have hBoth := List.rel_append ihx ih
    simpa [uses, Expr.symbols, hSum.leaves, Binary.leaves hTerm] using hBoth

/-- **Names refer to the innermost declarations.** In a derivation that stands for a tree, each
`Use` of a name refers to the symbol that the tree has in its place, and the storage that is taken
up is that of all declarations. The induction is on `Clause.Means`, and `Scope.Mirrors` is what it
keeps. -/
theorem Clause.Means.refers {Γ : Scope} {around : List Surround} {loop : Option LoopExit} {k : Kind}
    {x : Clause k} {t t' : Tally} {s : k.Tree} (h : x.Means Γ loop t s t')
    (hScope : Γ.Mirrors around) :
    t'.used = t.used + x.width ∧
      List.Forall₂ Use.Refers (x.uses around t.used) (k.toStmt s).symbols := by
  induction h generalizing around with
  | empty | leave | nil => exact ⟨rfl, .nil⟩
  | block _ ih => exact ih hScope
  | set hName hValue _ => exact ⟨rfl, .cons (hScope _ _ hName) (hValue.refers hScope)⟩
  | store hTarget hValue _ =>
    refine ⟨rfl, ?_⟩
    have hBoth := List.rel_append (hTarget.refers hScope) (hValue.refers hScope)
    simpa [Kind.toStmt, Stmt.symbols, Expr.symbols] using hBoth
  | ifThen hTest _ _ ih | whileLoop hTest _ _ ih =>
    obtain ⟨hUsed, hBody⟩ := ih hScope
    refine ⟨hUsed, ?_⟩
    have hBoth := List.rel_append (hTest.refers hScope) hBody
    simpa [Kind.toStmt, Stmt.symbols, Expr.symbols] using hBoth
  | ifElse hTest _ _ _ ih ih' =>
    -- the second branch is read behind what the first one has declared
    obtain ⟨hUsed, hBody⟩ := ih hScope
    obtain ⟨hUsed', hOtherwise⟩ := ih' hScope
    rw [hUsed] at hUsed' hOtherwise
    refine ⟨by rw [hUsed', Clause.width, Nat.add_assoc], ?_⟩
    have hAll := List.rel_append (hTest.refers hScope) (List.rel_append hBody hOtherwise)
    simpa [Kind.toStmt, Stmt.symbols, Expr.symbols] using hAll
  | doLoop _ hTest _ ih =>
    obtain ⟨hUsed, hBody⟩ := ih hScope
    refine ⟨hUsed, ?_⟩
    have hBoth := List.rel_append hBody (hTest.refers hScope)
    simpa [Kind.toStmt, Stmt.symbols, Expr.symbols] using hBoth
  | cons _ _ ih ih' =>
    obtain ⟨hUsed, hFirst⟩ := ih hScope
    obtain ⟨hUsed', hOthers⟩ := ih' hScope
    rw [hUsed] at hUsed' hOthers
    refine ⟨by rw [hUsed', Clause.width, Nat.add_assoc], ?_⟩
    have hBoth := List.rel_append hFirst hOthers
    simpa [Kind.toStmt, Stmt.symbols] using hBoth
  | braces hDecls _ ih =>
    -- inside of the block its declarations are in force, and behind it they are not
    obtain ⟨hUsed, hItems⟩ := ih (hDecls.mirrors hScope)
    rw [hDecls.used_eq] at hUsed hItems
    refine ⟨by rw [hUsed, Clause.width, Nat.add_assoc], ?_⟩
    simpa [Kind.toStmt, Stmt.symbols, Stmt.leaves_sequence] using hItems

/-! ## Names in the text -/

/-- The names of an expression are those of its tokens. -/
theorem Phrase.count_name {r : Rank} (x : Phrase r) (name : String) :
    x.tokens.count (.name name) = x.names.count name := by
  -- a truth value is a keyword, and brackets are marks
  induction x with
  | truth value => cases value <;> rfl
  | _ => simp_all [tokens, bracketed, parenthesized, List.count_cons]

theorem Decl.count_name (d : Decl) (name : String) :
    d.tokens.count (.name name) = [d.name].count name := by
  have hDims : ∀ lengths, (dimsTokens lengths).count (.name name) = 0 := by
    intro lengths
    simp [dimsTokens, List.count_eq_zero, bracketed]
  simp [tokens, hDims, List.count_cons]

theorem count_name_decls (ds : List Decl) (name : String) :
    (ds.flatMap Decl.tokens).count (.name name) = (ds.map (·.name)).count name := by
  induction ds with
  | nil => rfl
  | cons d ds ih =>
    rw [List.flatMap_cons, List.count_append, ih, d.count_name, ← List.count_append]
    rfl

theorem Phrase.name_uses {r : Rank} (x : Phrase r) (around : List Surround) :
    (x.uses around).map (·.name) = x.names := by
  simp [uses, Function.comp_def]

/-- Every name in the text is declared there or used: its tokens are as many as its declarations and
its uses. -/
theorem Clause.count_name {k : Kind} (x : Clause k) (around : List Surround) (before : Nat)
    (name : String) :
    x.tokens.count (.name name) =
      x.blocks.flatten.count name + ((x.uses around before).map (·.name)).count name := by
  induction x generalizing around before with
  | block b ih => exact ih around before
  | ifElse test body otherwise ih ih' =>
    have h := ih around before
    have h' := ih' around (before + body.width)
    simp [tokens, parenthesized, Phrase.count_name, Phrase.name_uses, h, h']
    omega
  | ifThen test body ih | whileLoop test body ih | doLoop body test ih =>
    have h := ih around before
    simp [tokens, parenthesized, Phrase.count_name, Phrase.name_uses, h]
    omega
  | cons first others ih ih' =>
    have h := ih around before
    have h' := ih' around (before + first.width)
    simp [tokens, h, h']
    omega
  | braces decls items ih =>
    have h := ih (⟨decls, before⟩ :: around) (before + declsWidth decls)
    simp [tokens, count_name_decls, h]
    omega
  | _ => simp [tokens, Phrase.count_name, Phrase.name_uses, List.count_cons]

/-! ## Programs -/

theorem Use.Refers.declared {u : Use} {x : Symbol} (h : u.Refers x) :
    ∃ b ∈ u.around, b.Declares u.name := by
  induction h with
  | here hCreates =>
    obtain ⟨before, after, d, hSplit, hName, -⟩ := hCreates
    exact ⟨_, List.mem_cons_self, d, by rw [hSplit]; simp, hName⟩
  | outside _ _ ih =>
    obtain ⟨b, hb, hDeclares⟩ := ih
    exact ⟨b, List.mem_cons_of_mem _ hb, hDeclares⟩

/-- **Names resolve lexically.** Of a program that is read, take the derivation of its text. Every
name in the text is declared there or used, and each use, in the order of the text, refers to the
symbol that the tree has in its place: the one that the innermost block with a declaration of the
name creates, whatever other blocks inside or beside declare. And no text is read in which some use
of a name has no such block around. -/
theorem names_resolve (tokens : List (Located Token)) (ending : Option (Located LexError)) :
    (∀ p, (readTokens tokens ending).outcome = .ok p →
      (∃ d : Clause .block, d.tokens = tokens.map (·.value) ∧ d.NearestElse) ∧
      ∀ d : Clause .block, d.tokens = tokens.map (·.value) → d.NearestElse →
        (∀ name, (tokens.map (·.value)).count (.name name) =
          d.blocks.flatten.count name + ((d.uses [] 0).map (·.name)).count name) ∧
        List.Forall₂ Use.Refers (d.uses [] 0) p.body.symbols) ∧
    ∀ d : Clause .block, d.tokens = tokens.map (·.value) → d.NearestElse →
      (∃ u ∈ d.uses [] 0, ∀ b ∈ u.around, ¬ b.Declares u.name) →
      ∀ p, (readTokens tokens ending).outcome ≠ .ok p := by
  have hAll : ∀ p, (readTokens tokens ending).outcome = .ok p →
      ∀ d : Clause .block, d.tokens = tokens.map (·.value) → d.NearestElse →
        List.Forall₂ Use.Refers (d.uses [] 0) p.body.symbols := by
    intro p hRead d hTokens hNearest
    obtain ⟨t, hMeans, -⟩ := isProgram_of_read hRead hTokens hNearest
    exact (hMeans.refers Scope.mirrors_empty).2
  refine ⟨fun p hRead => ⟨?_, fun d hTokens hNearest => ⟨fun name => ?_, ?_⟩⟩, ?_⟩
  · obtain ⟨-, d, hTokens, hNearest, -⟩ := exists_derivation hRead
    exact ⟨d, hTokens, hNearest⟩
  · rw [← hTokens]
    exact d.count_name [] 0 name
  · exact hAll p hRead d hTokens hNearest
  · rintro d hTokens hNearest ⟨u, hUse, hNone⟩ p hRead
    -- the stray use would refer to the symbol in its place, which some block around declares
    obtain ⟨i, hi⟩ := List.getElem?_of_mem hUse
    obtain ⟨hLength, hRefers⟩ := List.forall₂_iff_get.mp (hAll p hRead d hTokens hNearest)
    obtain ⟨hBound, rfl⟩ := List.getElem?_eq_some_iff.mp hi
    obtain ⟨b, hb, hDeclares⟩ := (hRefers i hBound (hLength ▸ hBound)).declared
    exact hNone b hb hDeclares

/-- The tokens of a program in which an inner block hides a name:
`{ int x; { float x; x = 1; } x = 2; }`. -/
def hiddenTokens : List (Located Token) :=
  ([.mark .openCurly, .scalar .int, .name "x", .mark .semicolon, .mark .openCurly, .scalar .float,
    .name "x", .mark .semicolon, .name "x", .mark .assign, .intLiteral 1, .mark .semicolon,
    .mark .closeCurly, .name "x", .mark .assign, .intLiteral 2, .mark .semicolon,
    .mark .closeCurly] : List Token).map (⟨·, .first⟩)

theorem exists_hidden : ∃ p, (readTokens hiddenTokens none).outcome = .ok p ∧
    p.body.symbols = [⟨"x", .float, 4⟩, ⟨"x", .int, 0⟩] := by
  have hPasses : (readTokens hiddenTokens none).passes fun p =>
      decide (p.body.symbols = [⟨"x", .float, 4⟩, ⟨"x", .int, 0⟩]) := by decide +kernel
  obtain ⟨p, hRead, hSymbols⟩ := Reading.exists_of_passes hPasses
  exact ⟨p, hRead, of_decide_eq_true hSymbols⟩

/-- A text in which a name is used behind the block that declares it:
`{ { int x; } x = 1; }`. -/
def strayClause : Clause .block :=
  .braces [] (.cons (.block (.braces [⟨.int, [], "x", [], .inl rfl⟩] .nil))
    (.cons (.set "x" (.pass .bool (.pass .join (.pass .equality (.pass .rel (.pass .expr
      (.pass .term (.pass .unary (.int 1))))))))) .nil))

/-- The one use in the inner block refers to the inner declaration and the one behind it to the
outer declaration, and where there is no outer declaration the text is not read. -/
theorem names_resolve_sample :
    (∃ (p : Program) (d : Clause .block), (readTokens hiddenTokens none).outcome = .ok p ∧
      d.tokens = hiddenTokens.map (·.value) ∧
      List.Forall₂ Use.Refers (d.uses [] 0) [⟨"x", .float, 4⟩, ⟨"x", .int, 0⟩]) ∧
    ∀ p, (readTokens (strayClause.tokens.map (⟨·, .first⟩)) none).outcome ≠ .ok p := by
  constructor
  · obtain ⟨p, hRead, hSymbols⟩ := exists_hidden
    obtain ⟨⟨d, hTokens, hNearest⟩, hAll⟩ := (names_resolve hiddenTokens none).1 p hRead
    exact ⟨p, d, hRead, hTokens, hSymbols ▸ (hAll d hTokens hNearest).2⟩
  · have hTokens : strayClause.tokens = (strayClause.tokens.map
        (Located.mk · .first)).map (·.value) := by simp [Function.comp_def]
    have hNearest : strayClause.NearestElse := by simp [strayClause, Clause.NearestElse]
    refine (names_resolve _ none).2 strayClause hTokens hNearest ⟨⟨"x", [⟨[], 0⟩]⟩, ?_, ?_⟩
    · simp [strayClause, Phrase.uses]
    · simp [Surround.Declares]

end JumpCode
