import JumpCode.Program
import JumpCode.Proofs.Parsing.DeclReading

/-!
# JumpCode — what holds of all functions of the parser

The functions of the parser are built in few ways: from single tokens, from what the state has in
force, and by opening blocks and loops around other parsers. What is closed under these ways holds
of all of them. It is shown here once, of two parsers at a time, so that it can be used to compare a
function with itself under more fuel, or with the tokens in other places.

* `Reader` — the functions of the parser;
* `Closed` — closed under the ways in which they are built;
* `Closed.reader` — what is closed holds of all functions.
-/

namespace JumpCode

open JumpCode.Parser

/-- The token that a `GrammarError` names as the one that was found, if it names one. -/
def GrammarError.found? : GrammarError → Option Token
  | unexpectedToken _ found => some found
  | expectedName found => some found
  | expectedType found => some found
  | expectedLength found => some found
  | expectedExpr found => some found
  | trailingInput found => some found
  | _ => none

/-- The functions of the parser by their fuel. Those that `declare` do so in the block in which they
are called; the others leave it as it is. -/
inductive Reader : (declares : Bool) → {α : Type} → (Nat → Parser α) → Prop
  | peek : Reader false fun _ => peek
  | next : Reader false fun _ => next
  | expect (token : Token) : Reader false fun _ => expect token
  | name : Reader false fun _ => name
  | resolve (text : String) (span : Span) : Reader false fun _ => resolve text span
  | declare (text : String) (type : Ty) (span : Span) :
      Reader true fun _ => declare text type span
  | expr (l : Level) : Reader false (expr · l)
  | operand (l : Level) : Reader false (operand · l)
  | chain (l : Level) (lhs : Expr) : Reader false (chain · l lhs)
  | unary : Reader false unary
  | factor : Reader false factor
  | access (x : Symbol) (span : Span) : Reader false (access · x span)
  | subscripts (x : Symbol) (span : Span) (index : Expr) (type : Ty) :
      Reader false (subscripts · x span index type)
  | subscript (x : Symbol) (span : Span) (type : Ty) : Reader false (subscript · x span type)
  | dims (of : Ty) : Reader false (dims · of)
  | optionalDims (of : Ty) : Reader false (optionalDims · of)
  | type : Reader false type
  | decl : Reader true decl
  | decls : Reader true decls
  | condition (construct : Construct) (span : Span) : Reader false (condition · construct span)
  | assignment : Reader false assignment
  | breakStmt : Reader false fun _ => breakStmt
  | ifStmt : Reader false fun fuel => ifStmt fuel (stmt fuel)
  | whileStmt : Reader false fun fuel => whileStmt fuel (stmt fuel)
  | doStmt : Reader false fun fuel => doStmt fuel (stmt fuel)
  | loopBody (exit : LoopExit) : Reader false fun fuel => inLoop exit (stmt fuel)
  | stmt : Reader false stmt
  | stmts : Reader false stmts
  | block : Reader false block
  | program : Reader false program

/-- Looking up a name, in a `Scope` that has been looked at before. -/
def Parser.resolveIn (scope : Scope) (text : String) (span : Span) : Parser Symbol :=
  match scope.lookup? text with
  | some x => return x
  | none => failAt span (.semantic (.undeclared text))

/-- Leaving the innermost of some loops, behind the word that says so, or refusing it if there is
none. -/
def Parser.breakFrom (loops : List LoopExit) (span : Span) : Parser Stmt :=
  match loops with
  | [] => failAt span (.semantic .breakOutsideLoop)
  | exit :: _ => do
    let _ ← expectMark .semicolon
    return .breakTo exit

/-- Closed under the ways in which parsers are built: `R` under all but declaring, and `D`, which
may be wider, under declaring as well. A block turns the one into the other. The two parsers that
are compared may find their tokens in different places, if these are related by `P`. What is
`Closed` is shown once for each way, and holds of all functions by `Closed.reader`. -/
structure Closed (P : Span → Span → Prop) (R D : {α : Type} → Parser α → Parser α → Prop) :
    Prop where
  exhausted {declares : Bool} {α : Type} {F : Nat → Parser α} (h : Reader declares F) (fuel : Nat) :
    R (throw .exhausted) (F fuel)
  pure {α : Type} (a : α) : R (pure a) (pure a)
  bind {α β : Type} {p q : Parser α} {f g : α → Parser β} (h : R p q)
    (h' : ∀ a, R (f a) (g a)) : R (p >>= f) (q >>= g)
  /-- What is in force may be looked up. -/
  context {α : Type} (f g : Scope → Nat → List LoopExit → Parser α)
    (h : ∀ scope used loops, R (f scope used loops) (g scope used loops)) :
    R (do let s ← get; f s.scope s.used s.loops) (do let s ← get; g s.scope s.used s.loops)
  semantic {α : Type} {span span' : Span} (h : P span span') (error : SemanticError) :
    R (failAt span (.semantic error) : Parser α) (failAt span' (.semantic error))
  /-- Dimensions may be refused before they are read. -/
  repeated {α : Type} {span span' : Span} (h : P span span') (text : String) :
    R (failAt span (.grammatical (.duplicateDims text)) : Parser α)
      (failAt span' (.grammatical (.duplicateDims text)))
  peek : R peek peek
  /-- A token may be refused right after it has been read. -/
  next {α : Type} {f g : Located Token → Parser α}
    (h : ∀ token span span', P span span' → R (f ⟨token, span⟩) (g ⟨token, span'⟩) ∨
      ∃ error : GrammarError, error.found? = some token ∧ f ⟨token, span⟩ = fail error ∧
        g ⟨token, span'⟩ = fail error) : R (next >>= f) (next >>= g)
  expect {α : Type} (token : Token) {f g : Span → Parser α}
    (h : ∀ span span', P span span' → R (f span) (g span')) :
    R (expect token >>= f) (expect token >>= g)
  newExit : R newExit newExit
  inLoop {α : Type} {p q : Parser α} (exit : LoopExit) (h : R p q) :
    R (inLoop exit p) (inLoop exit q)
  inScope {α : Type} {p q : Parser α} (h : D p q) : R (inScope p) (inScope q)
  widen {α : Type} {p q : Parser α} (h : R p q) : D p q
  declare (name : String) (type : Ty) {span span' : Span} (h : P span span') :
    D (declare name type span) (declare name type span')
  bindDeclaring {α β : Type} {p q : Parser α} {f g : α → Parser β} (h : D p q)
    (h' : ∀ a, D (f a) (g a)) : D (p >>= f) (q >>= g)
  /-- A token that is read before declaring may be refused as well. -/
  nextDeclaring {α : Type} {f g : Located Token → Parser α}
    (h : ∀ token span span', P span span' → D (f ⟨token, span⟩) (g ⟨token, span'⟩) ∨
      ∃ error : GrammarError, error.found? = some token ∧ f ⟨token, span⟩ = fail error ∧
        g ⟨token, span'⟩ = fail error) : D (Parser.next >>= f) (Parser.next >>= g)

/-- What is done with a name is done right after its token has been read: `name` is `next`, and a
token of another kind is refused. -/
theorem name_bind {α : Type} (f : Located String → Parser α) :
    (name >>= f) = next >>= fun found => match found.value with
      | .name text => f ⟨text, found.span⟩
      | token => fail (.expectedName token) := by
  rw [name, bind_assoc]
  congr
  funext found
  obtain ⟨token, span⟩ := found
  cases token with
  | name text => exact pure_bind _ f
  | _ => rfl

namespace Closed

variable {P : Span → Span → Prop} {R D : {α : Type} → Parser α → Parser α → Prop}
  (h : Closed P R D)

include h

/-! ## Tokens -/

theorem name {α : Type} {f g : Located String → Parser α}
    (h' : ∀ text span span', P span span' → R (f ⟨text, span⟩) (g ⟨text, span'⟩)) :
    R (name >>= f) (name >>= g) := by
  rw [name_bind, name_bind]
  refine h.next fun token span span' hSpan => ?_
  cases token with
  | name text => exact .inl (h' text span span' hSpan)
  | _ => exact .inr ⟨_, rfl, rfl, rfl⟩

theorem nameDeclaring {α : Type} {f g : Located String → Parser α}
    (h' : ∀ text span span', P span span' → D (f ⟨text, span⟩) (g ⟨text, span'⟩)) :
    D (Parser.name >>= f) (Parser.name >>= g) := by
  rw [name_bind, name_bind]
  refine h.nextDeclaring fun token span span' hSpan => ?_
  cases token with
  | name text => exact .inl (h' text span span' hSpan)
  | _ => exact .inr ⟨_, rfl, rfl, rfl⟩

/-- Where a token stands may not matter behind it. -/
theorem expectDeclaring (token : Token) {α : Type} {p q : Parser α} (h' : D p q) :
    D (Parser.expect token >>= fun _ => p) (Parser.expect token >>= fun _ => q) := by
  have hToken : R (Parser.expect token >>= fun _ => Pure.pure ())
      (Parser.expect token >>= fun _ => Pure.pure ()) := h.expect token fun _ _ _ => h.pure ()
  have hRest := h.bindDeclaring (h.widen hToken) fun _ => h'
  rwa [bind_assoc, bind_assoc] at hRest

theorem atMark (m : Mark) : R (atMark m) (atMark m) := h.bind h.peek fun _ => h.pure _

theorem resolve (text : String) {span span' : Span} (hSpan : P span span') :
    R (resolve text span) (resolve text span') := by
  refine h.context (fun scope _ _ => resolveIn scope text span)
    (fun scope _ _ => resolveIn scope text span') fun scope _ _ => ?_
  unfold resolveIn
  cases scope.lookup? text with
  | some x => exact h.pure x
  | none => exact h.semantic hSpan _

theorem check {α : Type} {span span' : Span} (hSpan : P span span') (r : Except SemanticError α) :
    R (check span r) (check span' r) := by
  cases r with
  | ok a => exact h.pure a
  | error e => exact h.semantic hSpan e

/-! ## Declarations -/

/-- Dimensions are read if there is a bracket, whatever reads them. -/
theorem optionalDims_of {fuel fuel' : Nat} {of : Ty} (hDims : R (dims fuel of) (dims fuel' of)) :
    R (optionalDims fuel of) (optionalDims fuel' of) := by
  refine h.bind (h.atMark _) fun b => ?_
  cases b with
  | true => exact hDims
  | false => exact h.pure of

theorem dims {fuel fuel' : Nat} (hFuel : fuel ≤ fuel') (of : Ty) :
    R (dims fuel of) (dims fuel' of) := by
  induction fuel generalizing fuel' of with
  | zero => exact h.exhausted (.dims of) fuel'
  | succ fuel ih =>
    obtain ⟨fuel', rfl⟩ := Nat.exists_eq_add_one_of_ne_zero (Nat.ne_zero_of_lt hFuel)
    rw [Parser.dims, Parser.dims]
    refine h.expect _ fun _ _ _ => h.next fun token span span' hSpan => ?_
    cases token with
    | intLiteral value =>
      refine .inl (h.expect _ fun _ _ _ => ?_)
      dsimp only
      rw [optionalDims_bind, optionalDims_bind]
      refine h.bind (h.optionalDims_of (ih (Nat.le_of_succ_le_succ hFuel) of)) fun element => ?_
      split
      · exact h.pure _
      · exact h.semantic hSpan _
    | _ => exact .inr ⟨_, rfl, rfl, rfl⟩

theorem optionalDims {fuel fuel' : Nat} (hFuel : fuel ≤ fuel') (of : Ty) :
    R (optionalDims fuel of) (optionalDims fuel' of) := h.optionalDims_of (h.dims hFuel of)

theorem type {fuel fuel' : Nat} (hFuel : fuel ≤ fuel') : R (type fuel) (type fuel') := by
  refine h.next fun token span span' hSpan => ?_
  cases token with
  | scalar s => exact .inl (h.optionalDims hFuel _)
  | _ => exact .inr ⟨_, rfl, rfl, rfl⟩

theorem decl {fuel fuel' : Nat} (hFuel : fuel ≤ fuel') : D (decl fuel) (decl fuel') := by
  refine h.bindDeclaring (h.widen (h.type hFuel)) fun type =>
    h.nameDeclaring fun text span span' hSpan =>
      h.bindDeclaring (h.widen (h.atMark _)) fun b => ?_
  -- what comes behind the name is the same, whether dimensions are refused before or not
  have hRest : D (do let type ← Parser.optionalDims fuel type; let _ ← expectMark .semicolon
                     Parser.declare text type span)
      (do let type ← Parser.optionalDims fuel' type; let _ ← expectMark .semicolon
          Parser.declare text type span') :=
    h.bindDeclaring (h.widen (h.optionalDims hFuel type)) fun type =>
      h.expectDeclaring _ (h.declare _ type hSpan)
  split
  · exact h.bindDeclaring (h.widen (h.repeated hSpan _)) fun _ => hRest
  · exact hRest

theorem decls {fuel fuel' : Nat} (hFuel : fuel ≤ fuel') : D (decls fuel) (decls fuel') := by
  induction fuel generalizing fuel' with
  | zero => exact h.widen (h.exhausted .decls fuel')
  | succ fuel ih =>
    obtain ⟨fuel', rfl⟩ := Nat.exists_eq_add_one_of_ne_zero (Nat.ne_zero_of_lt hFuel)
    have hFuel' := Nat.le_of_succ_le_succ hFuel
    rw [Parser.decls, Parser.decls]
    refine h.bindDeclaring (h.widen h.peek) fun t => ?_
    split
    · exact h.bindDeclaring (h.decl hFuel') fun _ => ih hFuel'
    · exact h.widen (h.pure ())

end Closed

/-! ## Expressions -/

/-- What holds of the functions for expressions, from these two amounts of fuel. -/
structure ExprPairs (P : Span → Span → Prop) (R : {α : Type} → Parser α → Parser α → Prop)
    (fuel fuel' : Nat) : Prop where
  expr (l : Level) : R (expr fuel l) (expr fuel' l)
  operand (l : Level) : R (operand fuel l) (operand fuel' l)
  chain (l : Level) (lhs : Expr) : R (chain fuel l lhs) (chain fuel' l lhs)
  unary : R (unary fuel) (unary fuel')
  factor : R (factor fuel) (factor fuel')
  access (x : Symbol) {span span' : Span} (h : P span span') :
    R (access fuel x span) (access fuel' x span')
  subscripts (x : Symbol) {span span' : Span} (h : P span span') (index : Expr) (type : Ty) :
    R (subscripts fuel x span index type) (subscripts fuel' x span' index type)
  subscript (x : Symbol) {span span' : Span} (h : P span span') (type : Ty) :
    R (subscript fuel x span type) (subscript fuel' x span' type)

/-- What holds of the functions for statements, from these two amounts of fuel. -/
structure StmtPairs (R : {α : Type} → Parser α → Parser α → Prop) (fuel fuel' : Nat) : Prop where
  stmt : R (stmt fuel) (stmt fuel')
  stmts : R (stmts fuel) (stmts fuel')
  block : R (block fuel) (block fuel')

namespace Closed

variable {P : Span → Span → Prop} {R D : {α : Type} → Parser α → Parser α → Prop}
  (h : Closed P R D)

include h

section Steps

variable {fuel fuel' : Nat} (ih : ExprPairs P R fuel fuel')

include ih

theorem chain_step (l : Level) (lhs : Expr) :
    R (chain (fuel + 1) l lhs) (chain (fuel' + 1) l lhs) := by
  rw [Parser.chain, Parser.chain]
  refine h.bind h.peek fun t => ?_
  split
  · -- without an operator the operand is all
    exact h.pure lhs
  · refine h.next fun _ span span' hSpan => .inl ?_
    refine h.bind (ih.operand l) fun rhs => h.bind (h.check hSpan _) fun joined => ?_
    split
    · exact ih.chain l joined
    · exact h.pure joined

theorem unary_step : R (unary (fuel + 1)) (unary (fuel' + 1)) := by
  rw [Parser.unary, Parser.unary]
  refine h.bind h.peek fun t => ?_
  split
  · exact h.next fun _ _ _ hSpan => .inl (h.bind ih.unary fun e => h.check hSpan _)
  · exact ih.factor

theorem factor_step : R (factor (fuel + 1)) (factor (fuel' + 1)) := by
  rw [Parser.factor, Parser.factor]
  refine h.next fun token span span' hSpan => ?_
  dsimp only
  split
  · exact .inl (h.bind (ih.expr _) fun e => h.expect _ fun _ _ _ => h.pure e)
  · exact .inl (h.pure _)
  · exact .inl (h.pure _)
  · exact .inl (h.pure _)
  · exact .inl (h.pure _)
  · refine .inl (h.bind (h.resolve _ hSpan) fun x => h.bind (h.atMark _) fun b => ?_)
    split
    · exact h.bind (ih.access x hSpan) fun a => h.pure _
    · exact h.pure _
  · exact .inr ⟨_, rfl, rfl, rfl⟩

theorem subscripts_step (x : Symbol) {span span' : Span} (hSpan : P span span') (index : Expr)
    (type : Ty) :
    R (subscripts (fuel + 1) x span index type) (subscripts (fuel' + 1) x span' index type) := by
  rw [Parser.subscripts, Parser.subscripts]
  refine h.bind (h.atMark _) fun b => ?_
  split
  · refine h.bind (ih.subscript x hSpan type) fun found => ?_
    exact h.bind (h.check hSpan _) fun sum => ih.subscripts x hSpan sum found.2
  · exact h.pure _

theorem subscript_step (x : Symbol) {span span' : Span} (hSpan : P span span') (type : Ty) :
    R (subscript (fuel + 1) x span type) (subscript (fuel' + 1) x span' type) := by
  rw [Parser.subscript, Parser.subscript]
  refine h.expect _ fun bracket bracket' hBracket => h.bind (ih.expr _) fun index =>
    h.expect _ fun _ _ _ => ?_
  split
  · exact h.semantic hSpan _
  · exact h.bind (h.check hBracket _) fun term => h.pure _

end Steps

theorem exprPairs {fuel fuel' : Nat} (hFuel : fuel ≤ fuel') : ExprPairs P R fuel fuel' := by
  induction fuel generalizing fuel' with
  | zero =>
    exact {
      expr l := h.exhausted (.expr l) fuel'
      operand l := h.exhausted (.operand l) fuel'
      chain l lhs := h.exhausted (.chain l lhs) fuel'
      unary := h.exhausted .unary fuel'
      factor := h.exhausted .factor fuel'
      access x _ span' _ := h.exhausted (.access x span') fuel'
      subscripts x _ span' _ index type := h.exhausted (.subscripts x span' index type) fuel'
      subscript x _ span' _ type := h.exhausted (.subscript x span' type) fuel' }
  | succ fuel ih =>
    -- the second function has fuel for as many calls at least
    obtain ⟨fuel', rfl⟩ := Nat.exists_eq_add_one_of_ne_zero (Nat.ne_zero_of_lt hFuel)
    have ih := ih (Nat.le_of_succ_le_succ hFuel)
    exact {
      expr l := by
        rw [Parser.expr, Parser.expr]
        exact h.bind (ih.operand l) fun lhs => ih.chain l lhs
      operand l := by
        rw [Parser.operand, Parser.operand]
        split
        · exact ih.expr _
        · exact ih.unary
      chain := h.chain_step ih
      unary := h.unary_step ih
      factor := h.factor_step ih
      access x _ _ hSpan := by
        rw [Parser.access, Parser.access]
        exact h.bind (ih.subscript x hSpan x.type) fun found =>
          ih.subscripts x hSpan found.1 found.2
      subscripts := h.subscripts_step ih
      subscript := h.subscript_step ih }

/-! ## Statements -/

theorem condition {fuel fuel' : Nat} (hFuel : fuel ≤ fuel') (construct : Construct)
    {span span' : Span} (hSpan : P span span') :
    R (condition fuel construct span) (condition fuel' construct span') := by
  refine h.expect _ fun _ _ _ => h.bind ((h.exprPairs hFuel).expr _) fun e =>
    h.expect _ fun _ _ _ => ?_
  split
  · exact h.pure e
  · exact h.semantic hSpan _

theorem assignment {fuel fuel' : Nat} (hFuel : fuel ≤ fuel') :
    R (assignment fuel) (assignment fuel') := by
  have ih := h.exprPairs hFuel
  have hEnd (s : Stmt) : R (do let _ ← expectMark .semicolon; return s)
      (do let _ ← expectMark .semicolon; return s) := h.expect _ fun _ _ _ => h.pure s
  refine h.name fun text span span' hSpan => h.bind (h.resolve _ hSpan) fun x =>
    h.bind (h.atMark _) fun b => ?_
  split
  · refine h.expect _ fun sign sign' hSign => h.bind (ih.expr _) fun value => ?_
    split
    · exact h.bind (h.pure _) hEnd
    · exact h.bind (h.semantic hSign _) hEnd
  · refine h.bind (ih.access x hSpan) fun target => h.expect _ fun sign sign' hSign =>
      h.bind (ih.expr _) fun value => ?_
    split
    · exact h.bind (h.pure _) hEnd
    · exact h.bind (h.semantic hSign _) hEnd

theorem breakStmt : R breakStmt breakStmt := by
  refine h.expect _ fun span span' hSpan => ?_
  refine h.context (fun _ _ loops => breakFrom loops span)
    (fun _ _ loops => breakFrom loops span') fun _ _ loops => ?_
  cases loops with
  | nil => exact h.semantic hSpan _
  | cons exit _ => exact h.expect _ fun _ _ _ => h.pure _

section Bodies

variable {fuel fuel' : Nat} (hFuel : fuel ≤ fuel') {body body' : Parser Stmt} (hBody : R body body')

include hFuel hBody

theorem ifStmt : R (ifStmt fuel body) (ifStmt fuel' body') := by
  refine h.expect _ fun _ _ hSpan => h.bind (h.condition hFuel _ hSpan) fun test =>
    h.bind hBody fun onTrue => h.bind h.peek fun t => ?_
  split
  · exact h.next fun _ _ _ _ => .inl (h.bind hBody fun otherwise => h.pure _)
  · exact h.pure _

theorem whileStmt : R (whileStmt fuel body) (whileStmt fuel' body') :=
  h.expect _ fun _ _ hSpan => h.bind (h.condition hFuel _ hSpan) fun _ =>
    h.bind h.newExit fun exit => h.bind (h.inLoop exit hBody) fun _ => h.pure _

theorem doStmt : R (doStmt fuel body) (doStmt fuel' body') :=
  h.expect _ fun _ _ _ => h.bind h.newExit fun exit => h.bind (h.inLoop exit hBody) fun _ =>
    h.expect _ fun _ _ hSpan => h.bind (h.condition hFuel _ hSpan) fun _ =>
      h.expect _ fun _ _ _ => h.pure _

end Bodies

theorem stmt_step {fuel fuel' : Nat} (hFuel : fuel ≤ fuel') (ih : StmtPairs R fuel fuel') :
    R (stmt (fuel + 1)) (stmt (fuel' + 1)) := by
  rw [Parser.stmt, Parser.stmt]
  refine h.bind h.peek fun t => ?_
  split
  · exact h.next fun _ _ _ _ => .inl (h.pure _)
  · exact ih.block
  · exact h.ifStmt hFuel ih.stmt
  · exact h.whileStmt hFuel ih.stmt
  · exact h.doStmt hFuel ih.stmt
  · exact h.breakStmt
  · exact h.assignment hFuel

theorem stmtPairs {fuel fuel' : Nat} (hFuel : fuel ≤ fuel') : StmtPairs R fuel fuel' := by
  induction fuel generalizing fuel' with
  | zero => exact ⟨h.exhausted .stmt fuel', h.exhausted .stmts fuel', h.exhausted .block fuel'⟩
  | succ fuel ih =>
    obtain ⟨fuel', rfl⟩ := Nat.exists_eq_add_one_of_ne_zero (Nat.ne_zero_of_lt hFuel)
    have hFuel' := Nat.le_of_succ_le_succ hFuel
    have ih := ih hFuel'
    exact {
      stmt := h.stmt_step hFuel' ih
      stmts := by
        rw [Parser.stmts, Parser.stmts]
        refine h.bind h.peek fun t => ?_
        split
        · exact h.pure _
        · exact h.pure _
        · exact h.bind ih.stmt fun _ => h.bind ih.stmts fun _ => h.pure _
      block := by
        rw [Parser.block, Parser.block]
        -- the declarations of a block are inside of it, and closed with it
        have hItems : D (do Parser.decls fuel; Parser.stmts fuel)
            (do Parser.decls fuel'; Parser.stmts fuel') :=
          h.bindDeclaring (h.decls hFuel') fun _ => h.widen ih.stmts
        exact h.expect _ fun _ _ _ => h.bind (h.inScope hItems) fun _ =>
          h.expect _ fun _ _ _ => h.pure _ }

theorem program {fuel fuel' : Nat} (hFuel : fuel ≤ fuel') : R (program fuel) (program fuel') := by
  refine h.bind (h.stmtPairs hFuel).block fun body => h.bind h.peek fun t => ?_
  split
  · exact h.next fun token _ _ _ => .inr ⟨.trailingInput token, rfl, rfl, rfl⟩
  · exact h.context (fun _ used _ => Pure.pure (Program.mk body used))
      (fun _ used _ => Pure.pure (Program.mk body used)) fun _ used _ => h.pure _

end Closed

/-- **What is closed holds of all functions of the parser** (`Reader`), of a function and the same
function with more fuel, if the tokens stand in the same places. -/
theorem Closed.reader {R D : {α : Type} → Parser α → Parser α → Prop} (h : Closed Eq R D)
    {declares : Bool} {α : Type} {F : Nat → Parser α} (hReader : Reader declares F)
    {fuel fuel' : Nat} (hFuel : fuel ≤ fuel') :
    D (F fuel) (F fuel') ∧ (declares = false → R (F fuel) (F fuel')) := by
  have hPlain {p q : Parser α} (hp : R p q) : D p q ∧ (declares = false → R p q) :=
    ⟨h.widen hp, fun _ => hp⟩
  have hExpr := h.exprPairs hFuel
  have hStmt := h.stmtPairs hFuel
  cases hReader with
  | peek => exact hPlain h.peek
  | next =>
    have hNext : R (Parser.next >>= Pure.pure) (Parser.next >>= Pure.pure) :=
      h.next fun token span _ hSpan => .inl (hSpan ▸ h.pure (Located.mk token span))
    rw [bind_pure] at hNext
    exact hPlain hNext
  | expect token =>
    have hExpect : R (Parser.expect token >>= Pure.pure) (Parser.expect token >>= Pure.pure) :=
      h.expect token fun span _ hSpan => hSpan ▸ h.pure span
    rw [bind_pure] at hExpect
    exact hPlain hExpect
  | name =>
    have hName : R (Parser.name >>= Pure.pure) (Parser.name >>= Pure.pure) :=
      h.name fun text span _ hSpan => hSpan ▸ h.pure (Located.mk text span)
    rw [bind_pure] at hName
    exact hPlain hName
  | resolve text span => exact hPlain (h.resolve text rfl)
  | declare text type span => exact ⟨h.declare text type rfl, nofun⟩
  | expr l => exact hPlain (hExpr.expr l)
  | operand l => exact hPlain (hExpr.operand l)
  | chain l lhs => exact hPlain (hExpr.chain l lhs)
  | unary => exact hPlain hExpr.unary
  | factor => exact hPlain hExpr.factor
  | access x span => exact hPlain (hExpr.access x rfl)
  | subscripts x span index type => exact hPlain (hExpr.subscripts x rfl index type)
  | subscript x span type => exact hPlain (hExpr.subscript x rfl type)
  | dims of => exact hPlain (h.dims hFuel of)
  | optionalDims of => exact hPlain (h.optionalDims hFuel of)
  | type => exact hPlain (h.type hFuel)
  | decl => exact ⟨h.decl hFuel, nofun⟩
  | decls => exact ⟨h.decls hFuel, nofun⟩
  | condition construct span => exact hPlain (h.condition hFuel construct rfl)
  | assignment => exact hPlain (h.assignment hFuel)
  | breakStmt => exact hPlain h.breakStmt
  | ifStmt => exact hPlain (h.ifStmt hFuel hStmt.stmt)
  | whileStmt => exact hPlain (h.whileStmt hFuel hStmt.stmt)
  | doStmt => exact hPlain (h.doStmt hFuel hStmt.stmt)
  | loopBody exit => exact hPlain (h.inLoop exit hStmt.stmt)
  | stmt => exact hPlain hStmt.stmt
  | stmts => exact hPlain hStmt.stmts
  | block => exact hPlain hStmt.block
  | program => exact hPlain (h.program hFuel)

end JumpCode
