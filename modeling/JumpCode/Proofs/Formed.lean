import JumpCode.Proofs.Parsing.Language

/-!
# JumpCode — well-formed trees

What the rules leave behind in the trees of accepted programs: every operator has operands of
types that suit it, conditions are truth values, assignments suit their targets, loops are numbered
in the order in which they are met, and a break names the exit of the innermost loop around it.

* `Expr.WellTyped`, `Stmt.Formed` — the properties, constructor by constructor;
* `Phrase.Means.wellTyped`, `Clause.Means.formed` — the rules give them;
* `formed_of_read` — the tree of a program that has been read has them.
-/

namespace JumpCode

/-! ## Expressions -/

/-- A type is that of the elements of an array, or of parts of its elements: `Ty.element?` leads to
it in one or more steps. -/
inductive Ty.PartOf (array : Ty) : Ty → Prop
  | element {t : Ty} (h : array.element? = some t) : PartOf array t
  | next {t u : Ty} (h : PartOf array t) (hElement : t.element? = some u) : PartOf array u

theorem Ty.element_base {t u : Ty} (h : t.element? = some u) : u.base = t.base ∧ t.isArray := by
  unfold Ty.element? at h
  split at h
  · cases h
  · cases h
    exact ⟨rfl, rfl⟩

theorem Ty.PartOf.base {array t : Ty} (h : array.PartOf t) : t.base = array.base := by
  induction h with
  | element hElement => exact (Ty.element_base hElement).1
  | next _ hElement ih => exact (Ty.element_base hElement).1.trans ih

theorem Ty.PartOf.isArray {array t : Ty} (h : array.PartOf t) : array.isArray := by
  induction h with
  | element hElement => exact (Ty.element_base hElement).2
  | next _ _ ih => exact ih

/-- Every operator in an `Expr` has operands of types that suit it. There is one rule for each
constructor, and the result has the type that the rule says. -/
inductive Expr.WellTyped : Expr → Prop
  | const {c : Constant} : WellTyped (.const c)
  | var {x : Symbol} : WellTyped (.var x)
  | access {array : Symbol} {index : Expr} {type : Ty} (hIndex : index.WellTyped)
      (hNumeric : index.type.isNumeric) (hPart : array.type.PartOf type) :
      WellTyped (.access array index type)
  | arith {op : ArithOp} {a b : Expr} (ha : a.WellTyped) (hb : b.WellTyped)
      (hLeft : a.type.isNumeric) (hRight : b.type.isNumeric) :
      WellTyped (.arith op a b (.scalar (a.type.base.wider b.type.base)))
  | neg {a : Expr} (ha : a.WellTyped) (hNumeric : a.type.isNumeric) :
      WellTyped (.neg a (.scalar (Scalar.int.wider a.type.base)))
  | not {a : Expr} (ha : a.WellTyped) (hBool : a.type = .bool) : WellTyped (.not a)
  | rel {op : RelOp} {a b : Expr} (ha : a.WellTyped) (hb : b.WellTyped) (hSame : a.type = b.type)
      (hScalar : a.type.isArray = false) : WellTyped (.rel op a b)
  | and {a b : Expr} (ha : a.WellTyped) (hb : b.WellTyped) (hLeft : a.type = .bool)
      (hRight : b.type = .bool) : WellTyped (.and a b)
  | or {a b : Expr} (ha : a.WellTyped) (hb : b.WellTyped) (hLeft : a.type = .bool)
      (hRight : b.type = .bool) : WellTyped (.or a b)

/-- A `Binary` operator makes a well-typed expression of well-typed operands. -/
theorem Binary.wellTyped {op : BinaryOp} {a b e : Expr} (h : Binary op a b e)
    (ha : a.WellTyped) (hb : b.WellTyped) : e.WellTyped := by
  cases h with
  | arith hLeft hRight => exact .arith ha hb hLeft hRight
  | rel hSame hScalar => exact .rel ha hb hSame hScalar
  | and hLeft hRight => exact .and ha hb hLeft hRight
  | or hLeft hRight => exact .or ha hb hLeft hRight

theorem Unary.wellTyped {op : UnaryOp} {a e : Expr} (h : Unary op a e) (ha : a.WellTyped) :
    e.WellTyped := by
  cases h with
  | neg hNumeric => exact .neg ha hNumeric
  | not hBool => exact .not ha hBool

/-- Arithmetic gives numbers, since `Scalar.wider` has no other results. -/
theorem Scalar.isNumeric_wider (a b : Scalar) : (a.wider b).isNumeric := by
  cases a <;> cases b <;> rfl

theorem Binary.isNumeric {op : ArithOp} {a b e : Expr} (h : Binary (.arith op) a b e) :
    e.type.isNumeric := by
  cases h with | arith _ _ => exact Scalar.isNumeric_wider _ _

/-- What the rules give a tree is well typed, by induction on `Phrase.Means`. -/
theorem Phrase.Means.wellTyped {Γ : Scope} {r : Rank} {x : Phrase r} {a : Expr}
    (h : x.Means Γ a) : a.WellTyped := by
  induction h with
  | pass _ ih => exact ih
  | binary _ _ hOp ihx ihy => exact hOp.wellTyped ihx ihy
  | unary _ hOp ih => exact hOp.wellTyped ih
  | paren _ ih => exact ih
  | int => exact .const
  | real => exact .const
  | truth => exact .const
  | name _ => exact .var
  | access _ ih => exact ih
  | element _ _ hArray hTerm ih =>
    exact .access (hTerm.wellTyped ih .const) hTerm.isNumeric (.element hArray)
  | next _ _ hArray hTerm hSum ihx ih =>
    cases ihx with
    | access hIndex _ hPart =>
      -- the sum of two offsets is a number like both of them
      have hTermTyped := hTerm.wellTyped ih .const
      exact .access (hSum.wellTyped hIndex hTermTyped) hSum.isNumeric (.next hPart hArray)

/-! ## Statements -/

/-- An expression may be a condition: it is `WellTyped`, and a boolean. -/
def Expr.IsTest (c : Expr) : Prop := c.WellTyped ∧ c.type = .bool

/-- A `Stmt` is well formed inside of a loop with this exit, if there is one, behind that many
loops; with its own loops there are then so many. A loop has the number of the loops before it as
its `LoopExit`. -/
inductive Stmt.Formed : Option LoopExit → Nat → Stmt → Nat → Prop
  | null {loop : Option LoopExit} {n : Nat} : Formed loop n .null n
  | seq_nil {loop : Option LoopExit} {n : Nat} : Formed loop n (.seq []) n
  | seq_cons {loop : Option LoopExit} {n n₁ n' : Nat} {s : Stmt} {rest : List Stmt}
      (hFirst : Formed loop n s n₁) (hRest : Formed loop n₁ (.seq rest) n') :
      Formed loop n (.seq (s :: rest)) n'
  | ifThen {loop : Option LoopExit} {n n' : Nat} {c : Expr} {s : Stmt} (hTest : c.IsTest)
      (hBody : Formed loop n s n') : Formed loop n (.ifThen c s) n'
  | ifElse {loop : Option LoopExit} {n n₁ n' : Nat} {c : Expr} {s₁ s₂ : Stmt} (hTest : c.IsTest)
      (hBody : Formed loop n s₁ n₁) (hOtherwise : Formed loop n₁ s₂ n') :
      Formed loop n (.ifElse c s₁ s₂) n'
  | whileLoop {loop : Option LoopExit} {n n' : Nat} {c : Expr} {s : Stmt} (hTest : c.IsTest)
      (hBody : Formed (some ⟨n⟩) (n + 1) s n') : Formed loop n (.whileLoop ⟨n⟩ c s) n'
  | doLoop {loop : Option LoopExit} {n n' : Nat} {c : Expr} {s : Stmt}
      (hBody : Formed (some ⟨n⟩) (n + 1) s n') (hTest : c.IsTest) :
      Formed loop n (.doLoop ⟨n⟩ s c) n'
  | breakTo {exit : LoopExit} {n : Nat} : Formed (some exit) n (.breakTo exit) n
  | set {loop : Option LoopExit} {n : Nat} {x : Symbol} {a : Expr} (hValue : a.WellTyped)
      (hSuits : SuitsVariable x.type a.type) : Formed loop n (.set x a) n
  | store {loop : Option LoopExit} {n : Nat} {target : Access} {a : Expr}
      (hTarget : (Expr.ofAccess target).WellTyped) (hValue : a.WellTyped)
      (hSuits : SuitsElement target.type a.type) : Formed loop n (.store target a) n

namespace Stmt.Formed

variable {loop : Option LoopExit} {n n' : Nat} {s : Stmt} {items : List Stmt}

theorem le (h : s.Formed loop n n') : n ≤ n' := by
  induction h with
  | seq_cons _ _ ih ih' => exact Nat.le_trans ih ih'
  | ifThen _ _ ih => exact ih
  | ifElse _ _ _ ih ih' => exact Nat.le_trans ih ih'
  | whileLoop _ _ ih => omega
  | doLoop _ _ ih => omega
  | _ => exact Nat.le_refl _

/-- Statements in a row are well formed without the empty ones, which hold no loops. -/
theorem filter (h : (Stmt.seq items).Formed loop n n') :
    (Stmt.seq (items.filter (!·.isNull))).Formed loop n n' := by
  induction items generalizing n with
  | nil => exact h
  | cons s rest ih =>
    cases h with
    | seq_cons hFirst hRest =>
      -- an empty statement meets no loops
      cases s with
      | null => cases hFirst; exact ih hRest
      | _ => exact .seq_cons hFirst (ih hRest)

theorem sequence (h : (Stmt.seq items).Formed loop n n') :
    (Stmt.sequence items).Formed loop n n' := by
  have hFilter := h.filter
  unfold Stmt.sequence
  split
  · next hNone =>
    rw [hNone] at hFilter
    cases hFilter
    exact .null
  · next s hOne =>
    rw [hOne] at hFilter
    cases hFilter with
    | seq_cons hFirst hRest => cases hRest; exact hFirst
  · exact hFilter

end Stmt.Formed

/-- What a derivation stands for, as one `Stmt`: statements in a row are a sequence. -/
def Kind.toStmt : (k : Kind) → k.Tree → Stmt
  | .stmt, s => s
  | .stmts, items => .seq items
  | .block, s => s

/-- What the rules give a tree is well formed (`Stmt.Formed`); the loops are counted as the `Tally`
counts them. -/
theorem Clause.Means.formed {Γ : Scope} {loop : Option LoopExit} {k : Kind} {x : Clause k}
    {t t' : Tally} {s : k.Tree} (h : x.Means Γ loop t s t') :
    (k.toStmt s).Formed loop t.met t'.met := by
  induction h with
  | empty => exact .null
  | block _ ih => exact ih
  | set _ hValue hSuits => exact .set hValue.wellTyped hSuits
  | store hTarget hValue hSuits => exact .store hTarget.wellTyped hValue.wellTyped hSuits
  | ifThen hTest hBool _ ih => exact .ifThen ⟨hTest.wellTyped, hBool⟩ ih
  | ifElse hTest hBool _ _ ih ih' => exact .ifElse ⟨hTest.wellTyped, hBool⟩ ih ih'
  | whileLoop hTest hBool _ ih => exact .whileLoop ⟨hTest.wellTyped, hBool⟩ ih
  | doLoop _ hTest hBool ih => exact .doLoop ih ⟨hTest.wellTyped, hBool⟩
  | leave => exact .breakTo
  | nil => exact .seq_nil
  | cons _ _ ih ih' => exact .seq_cons ih ih'
  | braces _ _ ih => exact ih.sequence

/-- **The tree of a program that has been read is well formed**: `Stmt.Formed` holds of it outside
of all loops. -/
theorem formed_of_read {tokens : List (Located Token)} {ending : Option (Located LexError)}
    {p : Program} (h : (readTokens tokens ending).outcome = .ok p) :
    ∃ n, p.body.Formed none 0 n := by
  obtain ⟨-, d, _, _, t, hMeans, _⟩ := exists_derivation h
  exact ⟨t.met, hMeans.formed⟩

end JumpCode
