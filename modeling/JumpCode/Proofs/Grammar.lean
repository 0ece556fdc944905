import JumpCode.Operator
import JumpCode.Token

/-!
# JumpCode — the grammar

The language, said without its parser: what counts is which sequences of tokens have a derivation.

    program  -> block
    block    -> { decls stmts }
    decls    -> (scalar dims? NAME dims? ;)*            dims on one side of the name at most
    dims     -> [ NUM ] dims?
    stmts    -> stmt*
    stmt     -> ; | block | NAME = bool ; | element = bool ;
              | if ( bool ) stmt | if ( bool ) stmt else stmt
              | while ( bool ) stmt | do stmt while ( bool ) ; | break ;
    bool     -> join     | bool || join
    join     -> equality | join && equality
    equality -> rel      | equality (== | !=) rel
    rel      -> expr     | expr (< | <= | >= | >) expr
    expr     -> term     | expr (+ | -) term
    term     -> unary    | term (* | /) unary
    unary    -> factor   | (- | !) unary
    factor   -> ( bool ) | NUM | REAL | true | false | NAME | element
    element  -> NAME [ bool ] | element [ bool ]

A derivation is a tree: `Phrase r` derives an expression of the rank `r`, `Decl` a declaration and
`Clause k` a statement, a list of statements or a block. Each has its tokens.

One sequence of tokens may have several derivations, since an `else` may stand behind two open
`if`s. `Clause.NearestElse` singles out the derivation in which it belongs to the nearer one.
-/

namespace JumpCode

/-! ## Expressions -/

/-- What a derivation of an expression derives: a level of precedence, from `bool`, which binds
least, to `factor`, or an `element` of an array. -/
inductive Rank
  | bool
  | join
  | equality
  | rel
  | expr
  | term
  | unary
  | factor
  | element
deriving DecidableEq, Repr

/-- An expression of the first `Rank` may be one of the second as it stands. -/
inductive Rank.Passes : Rank → Rank → Prop
  | bool : Passes .bool .join
  | join : Passes .join .equality
  | equality : Passes .equality .rel
  | rel : Passes .rel .expr
  | expr : Passes .expr .term
  | term : Passes .term .unary
  | unary : Passes .unary .factor

/-- An expression of the rank `whole` may be one of the rank `left`, a `Mark` for an operator, and
one of the rank `right`. Since `left` is `whole` but for relations, operators of one level group to
the left; relations do not chain. -/
inductive Rank.Joins : (whole left : Rank) → Mark → BinaryOp → (right : Rank) → Prop
  | or : Joins .bool .bool .or .or .join
  | and : Joins .join .join .and .and .equality
  | equal : Joins .equality .equality .equal (.rel .equal) .rel
  | notEqual : Joins .equality .equality .notEqual (.rel .notEqual) .rel
  | less : Joins .rel .expr .less (.rel .less) .expr
  | lessOrEqual : Joins .rel .expr .lessOrEqual (.rel .lessOrEqual) .expr
  | greater : Joins .rel .expr .greater (.rel .greater) .expr
  | greaterOrEqual : Joins .rel .expr .greaterOrEqual (.rel .greaterOrEqual) .expr
  | plus : Joins .expr .expr .plus (.arith .add) .term
  | minus : Joins .expr .expr .minus (.arith .sub) .term
  | times : Joins .term .term .times (.arith .mul) .unary
  | slash : Joins .term .term .slash (.arith .div) .unary

/-- A `Mark` stands for an operator before its operand. -/
inductive Rank.Signs : Mark → UnaryOp → Prop
  | minus : Signs .minus .neg
  | not : Signs .not .not

/-- A derivation of an expression of some `Rank`. There is one constructor for each kind of
production; which productions there are is said by `Rank.Passes`, `Rank.Joins` and `Rank.Signs`. -/
inductive Phrase : Rank → Type
  | pass {r s : Rank} (h : r.Passes s) (x : Phrase s) : Phrase r
  | binary {r left right : Rank} {m : Mark} {op : BinaryOp} (h : r.Joins left m op right)
      (x : Phrase left) (y : Phrase right) : Phrase r
  | unary {m : Mark} {op : UnaryOp} (h : Rank.Signs m op) (x : Phrase .unary) : Phrase .unary
  | paren (x : Phrase .bool) : Phrase .factor
  | int (value : Int) : Phrase .factor
  | real (value : Real64) : Phrase .factor
  | truth (value : Bool) : Phrase .factor
  | name (text : String) : Phrase .factor
  | access (x : Phrase .element) : Phrase .factor
  | element (text : String) (index : Phrase .bool) : Phrase .element
  | next (x : Phrase .element) (index : Phrase .bool) : Phrase .element

/-- A list of tokens in square brackets. -/
def bracketed (ts : List Token) : List Token :=
  .mark .openSquare :: (ts ++ [.mark .closeSquare])

/-- A list of tokens in parentheses. -/
def parenthesized (ts : List Token) : List Token :=
  .mark .openParen :: (ts ++ [.mark .closeParen])

/-- The keyword for a truth value. -/
def truthWord : Bool → Keyword
  | true => .trueWord
  | false => .falseWord

/-- The tokens of an expression, from the left to the right. -/
def Phrase.tokens : {r : Rank} → Phrase r → List Token
  | _, pass _ x => x.tokens
  | _, @binary _ _ _ m _ _ x y => x.tokens ++ .mark m :: y.tokens
  | _, @unary m _ _ x => .mark m :: x.tokens
  | _, paren x => parenthesized x.tokens
  | _, int value => [.intLiteral value]
  | _, real value => [.realLiteral value]
  | _, truth value => [.keyword (truthWord value)]
  | _, name text => [.name text]
  | _, access x => x.tokens
  | _, element text index => .name text :: bracketed index.tokens
  | _, next x index => x.tokens ++ bracketed index.tokens

/-! ## Declarations -/

/-- A derivation of a declaration: a scalar, the lengths before the name, and those behind it. The
field `oneSided` has the lengths on one side at most. -/
structure Decl where
  base : Scalar
  before : List Int
  name : String
  after : List Int
  oneSided : before = [] ∨ after = []

/-- The tokens of dimensions, the outermost first. -/
def dimsTokens (lengths : List Int) : List Token :=
  lengths.flatMap fun n => bracketed [.intLiteral n]

/-- The tokens of a `Decl`, up to its semicolon. -/
def Decl.tokens (d : Decl) : List Token :=
  .scalar d.base :: (dimsTokens d.before ++ .name d.name ::
    (dimsTokens d.after ++ [.mark .semicolon]))

/-! ## Statements -/

/-- What a derivation of statements derives: a statement, statements in a row, or a block. -/
inductive Kind
  | stmt
  | stmts
  | block
deriving DecidableEq, Repr

/-- A derivation of a statement, of statements in a row, or of a block, according to its `Kind`. -/
inductive Clause : Kind → Type
  | empty : Clause .stmt
  | block (b : Clause .block) : Clause .stmt
  | set (target : String) (value : Phrase .bool) : Clause .stmt
  | store (target : Phrase .element) (value : Phrase .bool) : Clause .stmt
  | ifThen (test : Phrase .bool) (body : Clause .stmt) : Clause .stmt
  | ifElse (test : Phrase .bool) (body otherwise : Clause .stmt) : Clause .stmt
  | whileLoop (test : Phrase .bool) (body : Clause .stmt) : Clause .stmt
  | doLoop (body : Clause .stmt) (test : Phrase .bool) : Clause .stmt
  | leave : Clause .stmt
  | nil : Clause .stmts
  | cons (first : Clause .stmt) (others : Clause .stmts) : Clause .stmts
  | braces (decls : List Decl) (items : Clause .stmts) : Clause .block

namespace Clause

/-- The tokens of a `Clause`, from the left to the right. -/
def tokens : {k : Kind} → Clause k → List Token
  | _, empty => [.mark .semicolon]
  | _, block b => b.tokens
  | _, set target value => .name target :: .mark .assign :: (value.tokens ++ [.mark .semicolon])
  | _, store target value =>
    target.tokens ++ .mark .assign :: (value.tokens ++ [.mark .semicolon])
  | _, ifThen test body => .keyword .ifWord :: (parenthesized test.tokens ++ body.tokens)
  | _, ifElse test body otherwise =>
    .keyword .ifWord :: (parenthesized test.tokens ++
      (body.tokens ++ .keyword .elseWord :: otherwise.tokens))
  | _, whileLoop test body => .keyword .whileWord :: (parenthesized test.tokens ++ body.tokens)
  | _, doLoop body test =>
    .keyword .doWord :: (body.tokens ++ .keyword .whileWord ::
      (parenthesized test.tokens ++ [.mark .semicolon]))
  | _, leave => [.keyword .breakWord, .mark .semicolon]
  | _, nil => []
  | _, cons first others => first.tokens ++ others.tokens
  | _, braces decls items =>
    .mark .openCurly :: (decls.flatMap Decl.tokens ++ (items.tokens ++ [.mark .closeCurly]))

/-- A statement ends in an `if` that has no `else` yet, so that one could follow. What ends it may
itself be nested in loops and in the second branches of other `if`s. -/
def IsOpen : {k : Kind} → Clause k → Prop
  | _, ifThen _ _ => True
  | _, ifElse _ _ otherwise => otherwise.IsOpen
  | _, whileLoop _ body => body.IsOpen
  | _, _ => False

/-- Every `else` belongs to the nearest `if` that could have it: no first branch in front of an
`else` `IsOpen`. -/
def NearestElse : {k : Kind} → Clause k → Prop
  | _, block b => b.NearestElse
  | _, ifThen _ body => body.NearestElse
  | _, ifElse _ body otherwise => ¬body.IsOpen ∧ body.NearestElse ∧ otherwise.NearestElse
  | _, whileLoop _ body => body.NearestElse
  | _, doLoop body _ => body.NearestElse
  | _, cons first others => first.NearestElse ∧ others.NearestElse
  | _, braces _ items => items.NearestElse
  | _, _ => True

end Clause

/-! ## Derivations have tokens -/

theorem length_bracketed (ts : List Token) : (bracketed ts).length = ts.length + 2 := by
  simp [bracketed]

theorem length_parenthesized (ts : List Token) : (parenthesized ts).length = ts.length + 2 := by
  simp [parenthesized]

theorem Phrase.length_tokens_pos {r : Rank} (x : Phrase r) : 0 < x.tokens.length := by
  induction x with
  | pass _ _ ih => exact ih
  | access _ ih => exact ih
  | binary _ _ _ _ _ =>
    simp only [tokens, List.length_append, List.length_cons]
    omega
  | next _ _ _ _ =>
    simp only [tokens, List.length_append, length_bracketed]
    omega
  | paren _ _ =>
    simp only [tokens, length_parenthesized]
    omega
  | _ => simp [tokens]

theorem Clause.length_tokens_pos (x : Clause .stmt) : 0 < x.tokens.length := by
  -- blocks have their braces, and everything else a keyword, a name or a mark
  cases x with
  | block b => cases b; simp [tokens]
  | store _ _ =>
    simp only [tokens, List.length_append, List.length_cons]
    omega
  | _ => simp [tokens]

end JumpCode
