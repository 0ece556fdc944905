import JumpCode.Expr.Basic
import JumpCode.Proofs.Grammar
import JumpCode.Scope
import JumpCode.Stmt.Basic

/-!
# JumpCode — the static rules

Which derivations are programs, and the trees that they stand for. The rules are given as
judgments, rule by rule:

* `Phrase.Means` — under some declarations an expression stands for a tree: every name is declared,
  arithmetic and indices take numbers, a relation holds between equal types that are no arrays, the
  connectives take truth values, and only arrays have subscripts;
* `Declares` — declarations fit into the storage, each behind the one before it, and no name is
  declared twice in a block;
* `Clause.Means` — conditions are truth values, what is assigned suits its target, and a break
  stands inside a loop, of which the innermost is meant.

A judgment determines its tree: operators associate to the left, an index sums the scaled
subscripts from left to right, and empty statements vanish from sequences.
-/

namespace JumpCode

/-! ## Operators -/

/-- Two trees under a `BinaryOp` make a tree. -/
inductive Binary : BinaryOp → Expr → Expr → Expr → Prop
  | arith {op : ArithOp} {a b : Expr} (hLeft : a.type.isNumeric) (hRight : b.type.isNumeric) :
      Binary (.arith op) a b (.arith op a b (.scalar (a.type.base.wider b.type.base)))
  | rel {op : RelOp} {a b : Expr} (hSame : a.type = b.type) (hScalar : a.type.isArray = false) :
      Binary (.rel op) a b (.rel op a b)
  | and {a b : Expr} (hLeft : a.type = .bool) (hRight : b.type = .bool) :
      Binary .and a b (.and a b)
  | or {a b : Expr} (hLeft : a.type = .bool) (hRight : b.type = .bool) :
      Binary .or a b (.or a b)

/-- A tree under a `UnaryOp` makes a tree. -/
inductive Unary : UnaryOp → Expr → Expr → Prop
  | neg {a : Expr} (hNumeric : a.type.isNumeric) :
      Unary .neg a (.neg a (.scalar (Scalar.int.wider a.type.base)))
  | not {a : Expr} (hBool : a.type = .bool) : Unary .not a (.not a)

/-- A subscript comes to a term of the index: the number of elements times their `Ty.width`, as an
integer constant. -/
def Scaled (subscript : Expr) (element : Ty) (term : Expr) : Prop :=
  Binary (.arith .mul) subscript (.const (.int element.width)) term

/-- What makes a tree of two others under an operator, and refuses to otherwise (`Expr.binary`), is
the rule `Binary`. -/
theorem binary_eq_ok_iff {op : BinaryOp} {a b e : Expr} :
    Expr.binary op a b = .ok e ↔ Binary op a b e := by
  constructor
  · intro h
    -- each operator makes its tree behind one check, which is the premise of its rule
    cases op with
    | arith op =>
      simp only [Expr.binary, Ty.arithmetic?] at h
      split at h
      · next type hType =>
        split at hType
        · next hNumeric =>
          rw [Bool.and_eq_true] at hNumeric
          cases hType
          cases h
          exact .arith hNumeric.1 hNumeric.2
        · cases hType
      · cases h
    | rel op =>
      simp only [Expr.binary] at h
      split at h
      · next hTypes =>
        cases h
        exact .rel hTypes.1 (Bool.eq_false_iff.mpr hTypes.2)
      · cases h
    | and =>
      simp only [Expr.binary] at h
      split at h
      · next hTypes => cases h; exact .and hTypes.1 hTypes.2
      · cases h
    | or =>
      simp only [Expr.binary] at h
      split at h
      · next hTypes => cases h; exact .or hTypes.1 hTypes.2
      · cases h
  · intro h
    cases h with
    | arith hLeft hRight => simp [Expr.binary, Ty.arithmetic?, hLeft, hRight]
    | rel hSame hScalar =>
      rw [hSame] at hScalar
      simp [Expr.binary, hSame, hScalar]
    | and hLeft hRight => simp [Expr.binary, hLeft, hRight]
    | or hLeft hRight => simp [Expr.binary, hLeft, hRight]

/-- What makes a tree of another under an operator, and refuses to otherwise (`Expr.unary`), is the
rule `Unary`. -/
theorem unary_eq_ok_iff {op : UnaryOp} {a e : Expr} :
    Expr.unary op a = .ok e ↔ Unary op a e := by
  -- negation is typed as arithmetic with an integer on the other side
  have hInt : Ty.int.isNumeric = true := rfl
  constructor
  · intro h
    cases op with
    | neg =>
      simp only [Expr.unary, Ty.arithmetic?] at h
      split at h
      · next type hType =>
        split at hType
        · next hNumeric =>
          rw [Bool.and_eq_true] at hNumeric
          cases hType
          cases h
          exact .neg hNumeric.2
        · cases hType
      · cases h
    | not =>
      simp only [Expr.unary] at h
      split at h
      · next hBool => cases h; exact .not hBool
      · cases h
  · intro h
    cases h with
    | neg hNumeric =>
      simp only [Expr.unary, Ty.arithmetic?, hInt, hNumeric, Bool.and_self, if_true]
      rfl
    | not hBool => simp [Expr.unary, hBool]

/-! ## Expressions -/

/-- A `Phrase` stands for a tree under the declarations of a `Scope`. What is an element of an
array, or a part of it that is an array itself, stands for an access. -/
inductive Phrase.Means (Γ : Scope) : {r : Rank} → Phrase r → Expr → Prop
  | pass {r s : Rank} {h : r.Passes s} {x : Phrase s} {a : Expr} (hx : x.Means Γ a) :
      Means Γ (.pass h x) a
  | binary {r left right : Rank} {m : Mark} {op : BinaryOp} {h : r.Joins left m op right}
      {x : Phrase left} {y : Phrase right} {a b e : Expr} (hx : x.Means Γ a) (hy : y.Means Γ b)
      (hOp : Binary op a b e) : Means Γ (.binary h x y) e
  | unary {m : Mark} {op : UnaryOp} {h : Rank.Signs m op} {x : Phrase .unary} {a e : Expr}
      (hx : x.Means Γ a) (hOp : Unary op a e) : Means Γ (.unary h x) e
  | paren {x : Phrase .bool} {a : Expr} (hx : x.Means Γ a) : Means Γ (.paren x) a
  | int {value : Int} : Means Γ (.int value) (.const (.int value))
  | real {value : Real64} : Means Γ (.real value) (.const (.real value))
  | truth {value : Bool} : Means Γ (.truth value) (.const (.bool value))
  | name {text : String} {x : Symbol} (hName : Γ.lookup? text = some x) :
      Means Γ (.name text) (.var x)
  | access {x : Phrase .element} {a : Expr} (hx : x.Means Γ a) : Means Γ (.access x) a
  | element {text : String} {x : Symbol} {index : Phrase .bool} {a term : Expr} {type : Ty}
      (hName : Γ.lookup? text = some x) (hIndex : index.Means Γ a)
      (hArray : x.type.element? = some type) (hTerm : Scaled a type term) :
      Means Γ (.element text index) (.access x term type)
  | next {x : Phrase .element} {y : Symbol} {index : Phrase .bool} {a b term sum : Expr}
      {outer type : Ty} (hx : x.Means Γ (.access y b outer)) (hIndex : index.Means Γ a)
      (hArray : outer.element? = some type) (hTerm : Scaled a type term)
      (hSum : Binary (.arith .add) b term sum) :
      Means Γ (.next x index) (.access y sum type)

theorem Phrase.means_pass_iff {Γ : Scope} {r s : Rank} {h : r.Passes s} {x : Phrase s} {e : Expr} :
    (Phrase.pass h x).Means Γ e ↔ x.Means Γ e := by
  constructor
  · rintro ⟨hx⟩
    exact hx
  · exact .pass

theorem Phrase.means_binary_iff {Γ : Scope} {r left right : Rank} {m : Mark} {op : BinaryOp}
    {h : r.Joins left m op right} {x : Phrase left} {y : Phrase right} {e : Expr} :
    (Phrase.binary h x y).Means Γ e ↔ ∃ a b, x.Means Γ a ∧ y.Means Γ b ∧ Binary op a b e := by
  constructor
  · intro he
    cases he with
    | binary hx hy hOp => exact ⟨_, _, hx, hy, hOp⟩
  · rintro ⟨a, b, hx, hy, hOp⟩
    exact .binary hx hy hOp

/-! ## Declarations -/

/-- A declaration gives its name a type: the scalar under all dimensions, wherever they stand. That
there is such a type says that all arrays under these dimensions can be addressed. -/
def Decl.HasType (d : Decl) (type : Ty) : Prop :=
  type.base = d.base ∧ type.lengths = (d.before ++ d.after).map lengthOf

/-- Declarations in a row lead from one `Scope` and storage to another: each has a type, fits behind
the storage used so far and has a name that is new in its block. -/
inductive Declares : Scope → Nat → List Decl → Scope → Nat → Prop
  | nil {Γ : Scope} {used : Nat} : Declares Γ used [] Γ used
  | cons {Γ Γ' : Scope} {used used' : Nat} {d : Decl} {ds : List Decl} {type : Ty}
      (hType : d.HasType type) (hFits : used + type.width ≤ maxWidth)
      (hNew : Γ.frame.lookup? d.name = none)
      (hRest : Declares { Γ with frame := ⟨d.name, type, used⟩ :: Γ.frame } (used + type.width)
        ds Γ' used') :
      Declares Γ used (d :: ds) Γ' used'

/-! ## Statements -/

/-- A value suits a variable: both are numbers (`Ty.isNumeric`), or both are truth values. -/
def SuitsVariable (target value : Ty) : Prop :=
  (target.isNumeric ∧ value.isNumeric) ∨ (target = .bool ∧ value = .bool)

/-- A value suits an element of an array: neither is an array (`Ty.isArray`), and they have one type
or are both numbers. -/
def SuitsElement (target value : Ty) : Prop :=
  target.isArray = false ∧ value.isArray = false ∧
    (target = value ∨ target.isNumeric ∧ value.isNumeric)

/-- What has been taken up before some point of a program: the storage of all declarations, and the
loops that have been met. -/
structure Tally where
  used : Nat
  met : Nat
deriving DecidableEq, Repr

/-- What a derivation of each `Kind` stands for: a statement, or a list of them. -/
abbrev Kind.Tree : Kind → Type
  | .stmt => Stmt
  | .stmts => List Stmt
  | .block => Stmt

/-- A `Clause` stands for a tree under declarations, inside of a loop with this `LoopExit` if there
is one, and takes up storage and loops (`Tally`). Each loop has the exit with the number of loops
met before. -/
inductive Clause.Means : Scope → Option LoopExit → {k : Kind} → Clause k → Tally → k.Tree → Tally →
    Prop
  | empty {Γ : Scope} {loop : Option LoopExit} {t : Tally} :
      Means Γ loop .empty t Stmt.null t
  | block {Γ : Scope} {loop : Option LoopExit} {t t' : Tally} {b : Clause .block} {s : Stmt}
      (hBlock : b.Means Γ loop t s t') : Means Γ loop (.block b) t s t'
  | set {Γ : Scope} {loop : Option LoopExit} {t : Tally} {text : String} {value : Phrase .bool}
      {x : Symbol} {a : Expr} (hName : Γ.lookup? text = some x) (hValue : value.Means Γ a)
      (hSuits : SuitsVariable x.type a.type) :
      Means Γ loop (.set text value) t (Stmt.set x a) t
  | store {Γ : Scope} {loop : Option LoopExit} {t : Tally} {target : Phrase .element}
      {value : Phrase .bool} {x : Symbol} {index a : Expr} {type : Ty}
      (hTarget : target.Means Γ (.access x index type)) (hValue : value.Means Γ a)
      (hSuits : SuitsElement type a.type) :
      Means Γ loop (.store target value) t (Stmt.store ⟨x, index, type⟩ a) t
  | ifThen {Γ : Scope} {loop : Option LoopExit} {t t' : Tally} {test : Phrase .bool}
      {body : Clause .stmt} {c : Expr} {s : Stmt} (hTest : test.Means Γ c) (hBool : c.type = .bool)
      (hBody : body.Means Γ loop t s t') :
      Means Γ loop (.ifThen test body) t (Stmt.ifThen c s) t'
  | ifElse {Γ : Scope} {loop : Option LoopExit} {t t₁ t' : Tally} {test : Phrase .bool}
      {body otherwise : Clause .stmt} {c : Expr} {s₁ s₂ : Stmt} (hTest : test.Means Γ c)
      (hBool : c.type = .bool) (hBody : body.Means Γ loop t s₁ t₁)
      (hOtherwise : otherwise.Means Γ loop t₁ s₂ t') :
      Means Γ loop (.ifElse test body otherwise) t (Stmt.ifElse c s₁ s₂) t'
  | whileLoop {Γ : Scope} {loop : Option LoopExit} {t t' : Tally} {test : Phrase .bool}
      {body : Clause .stmt} {c : Expr} {s : Stmt} (hTest : test.Means Γ c) (hBool : c.type = .bool)
      (hBody : body.Means Γ (some ⟨t.met⟩) { t with met := t.met + 1 } s t') :
      Means Γ loop (.whileLoop test body) t (Stmt.whileLoop ⟨t.met⟩ c s) t'
  | doLoop {Γ : Scope} {loop : Option LoopExit} {t t' : Tally} {test : Phrase .bool}
      {body : Clause .stmt} {c : Expr} {s : Stmt}
      (hBody : body.Means Γ (some ⟨t.met⟩) { t with met := t.met + 1 } s t')
      (hTest : test.Means Γ c) (hBool : c.type = .bool) :
      Means Γ loop (.doLoop body test) t (Stmt.doLoop ⟨t.met⟩ s c) t'
  | leave {Γ : Scope} {exit : LoopExit} {t : Tally} :
      Means Γ (some exit) .leave t (Stmt.breakTo exit) t
  | nil {Γ : Scope} {loop : Option LoopExit} {t : Tally} :
      Means Γ loop .nil t ([] : List Stmt) t
  | cons {Γ : Scope} {loop : Option LoopExit} {t t₁ t' : Tally} {first : Clause .stmt}
      {others : Clause .stmts} {s : Stmt} {ss : List Stmt} (hFirst : first.Means Γ loop t s t₁)
      (hOthers : others.Means Γ loop t₁ ss t') :
      Means Γ loop (.cons first others) t (s :: ss) t'
  | braces {Γ Γ' : Scope} {loop : Option LoopExit} {t t' : Tally} {used : Nat} {ds : List Decl}
      {items : Clause .stmts} {ss : List Stmt} (hDecls : Declares Γ.enter t.used ds Γ' used)
      (hItems : items.Means Γ' loop { t with used := used } ss t') :
      Means Γ loop (.braces ds items) t (Stmt.sequence ss) t'

end JumpCode
