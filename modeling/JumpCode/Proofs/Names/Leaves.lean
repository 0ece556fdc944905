import JumpCode.Proofs.Code.ExprInduction
import JumpCode.Proofs.Code.Layout
import Mathlib.Data.List.Nodup

/-!
# JumpCode — where names and constants come from

What the instructions of a program mention besides temporaries and the two truth values are the
leaves of its tree; and the leaves of the tree are symbols that some block of the text declares, and
constants that the text writes out or that scale an index.

* `Clause.Means.blocks` — the blocks of the text with their declarations, and the leaves under them;
* `Stmt.Layout.mentions` — code mentions only leaves.
-/

namespace JumpCode

open Emission

/-! ## Leaves of trees -/

/-- The variables, arrays and constants in an `Expr`, from left to right. -/
@[simp] def Expr.leaves : Expr → List Operand
  | const c => [.const c]
  | var x => [.var x]
  | access array index _ => .var array :: index.leaves
  | arith _ lhs rhs _ => lhs.leaves ++ rhs.leaves
  | neg operand _ => operand.leaves
  | not operand => operand.leaves
  | rel _ lhs rhs => lhs.leaves ++ rhs.leaves
  | and lhs rhs => lhs.leaves ++ rhs.leaves
  | or lhs rhs => lhs.leaves ++ rhs.leaves

mutual

/-- The variables, arrays and constants in a `Stmt`, from left to right, with the targets of
assignments. -/
@[simp] def Stmt.leaves : Stmt → List Operand
  | .null => []
  | .seq items => Stmt.leavesAll items
  | .ifThen c body => c.leaves ++ body.leaves
  | .ifElse c body otherwise => c.leaves ++ (body.leaves ++ otherwise.leaves)
  | .whileLoop _ c body => c.leaves ++ body.leaves
  | .doLoop _ body c => body.leaves ++ c.leaves
  | .breakTo _ => []
  | .set target value => .var target :: value.leaves
  | .store target value => .var target.array :: (target.index.leaves ++ value.leaves)

/-- The variables, arrays and constants in statements. -/
@[simp] def Stmt.leavesAll : List Stmt → List Operand
  | [] => []
  | x :: rest => x.leaves ++ Stmt.leavesAll rest

end

theorem Stmt.leaves_of_isNull {x : Stmt} (h : x.isNull = true) : x.leaves = [] := by
  cases x with
  | null => simp
  | _ => cases h

/-- Empty statements have no leaves, so that `Stmt.sequence` may leave them out. -/
theorem Stmt.leaves_filter (items : List Stmt) :
    Stmt.leavesAll (items.filter (!·.isNull)) = Stmt.leavesAll items := by
  induction items with
  | nil => rfl
  | cons x rest ih =>
    by_cases hNull : x.isNull = true
    · simp [hNull, Stmt.leaves_of_isNull hNull, ih]
    · simp [hNull, ih]

theorem Stmt.leaves_sequence (items : List Stmt) :
    (Stmt.sequence items).leaves = Stmt.leavesAll items := by
  have hFilter := Stmt.leaves_filter items
  unfold sequence
  split
  · next hNone => simpa [hNone] using hFilter
  · next x hOne => simpa [hOne] using hFilter
  · simpa using hFilter

theorem Binary.leaves {op : BinaryOp} {a b e : Expr} (h : Binary op a b e) :
    e.leaves = a.leaves ++ b.leaves := by cases h <;> rfl

theorem Unary.leaves {op : UnaryOp} {a e : Expr} (h : Unary op a e) : e.leaves = a.leaves := by
  cases h <;> rfl

/-! ## Declarations of the text -/

/-- The names that each block of a `Clause` declares, block by block in the order of the text. -/
@[simp] def Clause.blocks : {k : Kind} → Clause k → List (List String)
  | _, block b => b.blocks
  | _, ifThen _ body => body.blocks
  | _, ifElse _ body otherwise => body.blocks ++ otherwise.blocks
  | _, whileLoop _ body => body.blocks
  | _, doLoop body _ => body.blocks
  | _, cons first others => first.blocks ++ others.blocks
  | _, braces decls items => decls.map (·.name) :: items.blocks
  | _, _ => []

/-- Declared names stand in the text, as tokens. -/
theorem Clause.name_mem_tokens {k : Kind} (x : Clause k) {names : List String}
    (hBlock : names ∈ x.blocks) {n : String} (hName : n ∈ names) : Token.name n ∈ x.tokens := by
  induction x with
  | braces decls items ih =>
    rcases List.mem_cons.mp hBlock with rfl | hBlock
    · obtain ⟨d, hd, rfl⟩ := List.mem_map.mp hName
      have hDecl : Token.name d.name ∈ d.tokens := by simp [Decl.tokens]
      simp only [tokens, List.mem_cons, List.mem_append, List.mem_flatMap]
      exact .inr (.inl ⟨d, hd, hDecl⟩)
    · simp [tokens, ih hBlock]
  | _ => simp_all [tokens, parenthesized] <;> tauto

/-- Where a leaf comes from: symbols from declarations, and reals from literals. Other constants may
be widths of elements, which no text writes. -/
def Operand.Sourced (declared : Symbol → Prop) (tokens : List Token) : Operand → Prop
  | var x => declared x
  | const (.real r) => .realLiteral r ∈ tokens
  | _ => True

theorem Operand.Sourced.mono {declared declared' : Symbol → Prop} {ts ts' : List Token}
    {o : Operand} (h : o.Sourced declared ts) (hDeclared : ∀ x, declared x → declared' x)
    (hTokens : ts ⊆ ts') : o.Sourced declared' ts' := by
  cases o with
  | var x => exact hDeclared x h
  | temp n => trivial
  | const c =>
    cases c with
    | real r => exact hTokens h
    | _ => trivial

/-- A `Symbol` is in force somewhere in a `Scope`, perhaps hidden by others. -/
def Scope.Has (Γ : Scope) (x : Symbol) : Prop := ∃ frame ∈ Γ.frames, x ∈ frame

theorem Scope.has_of_lookup? {Γ : Scope} {name : String} {x : Symbol}
    (h : Γ.lookup? name = some x) : Γ.Has x := by
  obtain ⟨frame, hFrame, hFind⟩ := List.exists_of_findSome?_eq_some h
  exact ⟨frame, hFrame, List.mem_of_find?_eq_some hFind⟩

/-- The leaves of an expression are in force, or written out: each is `Operand.Sourced`. -/
theorem Phrase.Means.leaves {Γ : Scope} {r : Rank} {x : Phrase r} {a : Expr} (h : x.Means Γ a) :
    ∀ o ∈ a.leaves, o.Sourced Γ.Has x.tokens := by
  induction h with
  | pass _ ih => exact ih
  | binary _ _ hOp ihx ihy =>
    intro o ho
    rw [hOp.leaves] at ho
    rcases List.mem_append.mp ho with ho | ho
    · exact (ihx o ho).mono (fun _ h => h) (by simp [tokens])
    · exact (ihy o ho).mono (fun _ h => h) (by simp [tokens])
  | unary _ hOp ih =>
    intro o ho
    rw [hOp.leaves] at ho
    exact (ih o ho).mono (fun _ h => h) (by simp [tokens])
  | paren _ ih => exact fun o ho => (ih o ho).mono (fun _ h => h) (by simp [tokens, parenthesized])
  | int => simp [Operand.Sourced]
  | real => simp [Operand.Sourced, tokens]
  | truth => simp [Operand.Sourced]
  | name hName => simpa [Operand.Sourced] using Scope.has_of_lookup? hName
  | access _ ih => exact ih
  | element hName _ _ hTerm ih =>
    intro o ho
    -- behind the subscript stands the width that scales it, which no text need write out
    simp only [Expr.leaves, hTerm.leaves, List.mem_cons, List.mem_append, List.not_mem_nil,
      or_false] at ho
    rcases ho with rfl | ho | rfl
    · exact Scope.has_of_lookup? hName
    · exact (ih o ho).mono (fun _ h => h) fun t ht => by simp [tokens, bracketed, ht]
    · trivial
  | next _ _ _ hTerm hSum ihx ih =>
    intro o ho
    simp only [Expr.leaves, hSum.leaves, hTerm.leaves, List.mem_cons, List.mem_append,
      List.not_mem_nil, or_false] at ho
    rcases ho with rfl | ho | ho | rfl
    · exact (ihx _ (by simp)).mono (fun _ h => h) (by simp [tokens])
    · exact (ihx o (by simp [ho])).mono (fun _ h => h) (by simp [tokens])
    · exact (ih o ho).mono (fun _ h => h) fun t ht => by simp [tokens, bracketed, ht]
    · trivial

/-! ## Blocks -/

/-- The declarations of a block are added to a frame, the latest in front, and no name is added
twice. -/
theorem Declares.frame {Γ Γ' : Scope} {used used' : Nat} {ds : List Decl}
    (h : Declares Γ used ds Γ' used') (hDistinct : (Γ.frame.map (·.name)).Nodup) :
    Γ'.outer = Γ.outer ∧ (Γ'.frame.map (·.name)).Nodup ∧
      Γ'.frame.reverse.map (·.name) = Γ.frame.reverse.map (·.name) ++ ds.map (·.name) := by
  induction h with
  | nil => simp [hDistinct]
  | cons _ _ hNew _ ih =>
    have hNext := ih (by simpa [hDistinct, Frame.lookup?] using hNew)
    simpa using hNext

/-- Blocks with these names account for the leaves of a tree: each declares a name once, and every
symbol is declared by one of them or in force around them (`Scope.Has`). -/
structure Accounts (Γ : Scope) (names : List (List String)) (tokens : List Token)
    (leaves : List Operand) (blocks : List (List Symbol)) : Prop where
  names : blocks.map (·.map (·.name)) = names
  distinct : ∀ b ∈ blocks, (b.map (·.name)).Nodup
  sourced : ∀ o ∈ leaves, o.Sourced (fun x => (∃ b ∈ blocks, x ∈ b) ∨ Γ.Has x) tokens

namespace Accounts

variable {Γ : Scope} {names names' : List (List String)} {ts ts' : List Token}
  {leaves leaves' : List Operand} {blocks blocks' : List (List Symbol)}

theorem of_phrase {r : Rank} {x : Phrase r} {a : Expr} (h : x.Means Γ a) :
    Accounts Γ [] x.tokens a.leaves [] where
  names := rfl
  distinct := by simp
  sourced o ho := (h.leaves o ho).mono (fun _ hx => .inr hx) (List.Subset.refl _)

theorem nil : Accounts Γ [] ts [] [] := ⟨rfl, by simp, by simp⟩

theorem mono (h : Accounts Γ names ts leaves blocks) (hTokens : ts ⊆ ts') :
    Accounts Γ names ts' leaves blocks where
  names := h.names
  distinct := h.distinct
  sourced o ho := (h.sourced o ho).mono (fun _ hx => hx) hTokens

theorem append (h : Accounts Γ names ts leaves blocks)
    (h' : Accounts Γ names' ts leaves' blocks') :
    Accounts Γ (names ++ names') ts (leaves ++ leaves') (blocks ++ blocks') where
  names := by rw [List.map_append, h.names, h'.names]
  distinct b hb := (List.mem_append.mp hb).elim (h.distinct b) (h'.distinct b)
  sourced o ho := by
    rcases List.mem_append.mp ho with ho | ho
    · refine (h.sourced o ho).mono ?_ (List.Subset.refl _)
      rintro x (⟨b, hb, hx⟩ | hx)
      · exact .inl ⟨b, List.mem_append_left _ hb, hx⟩
      · exact .inr hx
    · refine (h'.sourced o ho).mono ?_ (List.Subset.refl _)
      rintro x (⟨b, hb, hx⟩ | hx)
      · exact .inl ⟨b, List.mem_append_right _ hb, hx⟩
      · exact .inr hx

theorem var {text : String} {x : Symbol} (h : Γ.lookup? text = some x) :
    Accounts Γ [] ts [.var x] [] where
  names := rfl
  distinct := by simp
  sourced o ho := by
    obtain rfl := List.mem_singleton.mp ho
    exact .inr (Scope.has_of_lookup? h)

/-- A block accounts for what its declarations bring into force, and then for the leaves under them.
-/
theorem block {Γ' : Scope} {used used' : Nat} {ds : List Decl}
    (hDecls : Declares Γ.enter used ds Γ' used')
    (h : Accounts Γ' names ts leaves blocks) :
    Accounts Γ (ds.map (·.name) :: names) ts leaves (Γ'.frame.reverse :: blocks) := by
  obtain ⟨hOuter, hDistinct, hNames⟩ := hDecls.frame (by simp [Scope.enter])
  refine ⟨?_, ?_, fun o ho => (h.sourced o ho).mono ?_ (List.Subset.refl _)⟩
  · simpa [Scope.enter, h.names] using hNames
  · rintro b (_ | ⟨_, hb⟩)
    · simpa using hDistinct
    · exact h.distinct b hb
  · rintro x (⟨b, hb, hx⟩ | ⟨frame, hFrame, hx⟩)
    · exact .inl ⟨b, List.mem_cons_of_mem _ hb, hx⟩
    · rw [Scope.frames, hOuter] at hFrame
      rcases List.mem_cons.mp hFrame with rfl | hFrame
      · exact .inl ⟨_, List.mem_cons_self, List.mem_reverse.mpr hx⟩
      · exact .inr ⟨frame, hFrame, hx⟩

end Accounts

/-- **The blocks of the text account for the leaves of its tree.** The induction is on
`Clause.Means`; `Accounts.block` has one block more in front. -/
theorem Clause.Means.accounts {Γ : Scope} {loop : Option LoopExit} {k : Kind} {x : Clause k}
    {t t' : Tally} {s : k.Tree} (h : x.Means Γ loop t s t') :
    ∃ blocks, Accounts Γ x.blocks x.tokens (k.toStmt s).leaves blocks := by
  induction h with
  | empty => exact ⟨[], .nil⟩
  | block _ ih => exact ih
  | set hName hValue _ =>
    exact ⟨_, (Accounts.var hName).append ((Accounts.of_phrase hValue).mono fun t ht => by
      simp [tokens, ht])⟩
  | store hTarget hValue _ =>
    exact ⟨_, ((Accounts.of_phrase hTarget).mono fun t ht => by simp [tokens, ht]).append
      ((Accounts.of_phrase hValue).mono fun t ht => by simp [tokens, ht])⟩
  | ifThen hTest _ _ ih =>
    obtain ⟨blocks, hBody⟩ := ih
    exact ⟨_, ((Accounts.of_phrase hTest).mono fun t ht => by
      simp [tokens, parenthesized, ht]).append (hBody.mono fun t ht => by simp [tokens, ht])⟩
  | ifElse hTest _ _ _ ih ih' =>
    obtain ⟨blocks, hBody⟩ := ih
    obtain ⟨blocks', hOtherwise⟩ := ih'
    have hBranches := (hBody.mono (List.subset_append_left _ _)).append
      (hOtherwise.mono (List.subset_append_right _ _))
    exact ⟨_, ((Accounts.of_phrase hTest).mono fun t ht => by
      simp [tokens, parenthesized, ht]).append (hBranches.mono fun t ht => by
        rcases List.mem_append.mp ht with ht | ht <;> simp [tokens, ht])⟩
  | whileLoop hTest _ _ ih =>
    obtain ⟨blocks, hBody⟩ := ih
    exact ⟨_, ((Accounts.of_phrase hTest).mono fun t ht => by
      simp [tokens, parenthesized, ht]).append (hBody.mono fun t ht => by simp [tokens, ht])⟩
  | doLoop _ hTest _ ih =>
    obtain ⟨blocks, hBody⟩ := ih
    -- the condition stands behind the body, and no block in it
    refine ⟨blocks ++ [], ?_⟩
    rw [Clause.blocks, ← List.append_nil (Clause.blocks _)]
    exact (hBody.mono fun t ht => by simp [tokens, ht]).append
      ((Accounts.of_phrase hTest).mono fun t ht => by simp [tokens, parenthesized, ht])
  | leave => exact ⟨[], .nil⟩
  | nil => exact ⟨[], .nil⟩
  | cons _ _ ih ih' =>
    obtain ⟨blocks, hFirst⟩ := ih
    obtain ⟨blocks', hOthers⟩ := ih'
    exact ⟨_, (hFirst.mono fun t ht => by simp [tokens, ht]).append
      (hOthers.mono fun t ht => by simp [tokens, ht])⟩
  | @braces Γ Γ' _ _ _ _ _ _ items hDecls _ ih =>
    -- the block lists its own declarations in front of those inside of it
    obtain ⟨blocks, hItems⟩ := ih
    have hLeaves : (Stmt.sequence items).leaves = Stmt.leavesAll items := Stmt.leaves_sequence items
    refine ⟨Γ'.frame.reverse :: blocks, ?_⟩
    show Accounts Γ _ _ (Stmt.sequence items).leaves _
    rw [hLeaves]
    exact .block hDecls (hItems.mono fun t ht => by simp [tokens, ht])

/-! ## What instructions mention -/

/-- The operands, arrays and constants of an `Rvalue`. -/
@[simp] def Rvalue.mentions : Rvalue → List Operand
  | use o => [o]
  | binary _ l r => [l, r]
  | negate o => [o]
  | index array offset => [.var array, offset]

/-- The operands of a test. -/
@[simp] def Test.mentions : Test → List Operand
  | compare _ l r => [l, r]
  | truth o => [o]

/-- All that an `Instruction` mentions apart from labels: what it reads and where it writes to, with
the arrays. -/
@[simp] def Instruction.mentions : Instruction → List Operand
  | label _ => []
  | jump _ => []
  | branch test _ _ => test.mentions
  | assign target value => target :: value.mentions
  | store array offset value => [.var array, offset, value]

/-- Code mentions some operands only: `P` holds of all of them. -/
def Mentions (P : Operand → Prop) (code : List Instruction) : Prop :=
  ∀ i ∈ code, ∀ o ∈ i.mentions, P o

@[simp] theorem mentions_nil {P : Operand → Prop} : Mentions P [] := by simp [Mentions]

@[simp] theorem mentions_cons {P : Operand → Prop} {i : Instruction} {code : List Instruction} :
    Mentions P (i :: code) ↔ (∀ o ∈ i.mentions, P o) ∧ Mentions P code := by simp [Mentions]

@[simp] theorem mentions_append {P : Operand → Prop} {a b : List Instruction} :
    Mentions P (a ++ b) ↔ Mentions P a ∧ Mentions P b := by
  simp [Mentions, or_imp, forall_and]

/-- Whatever `Supply` an emission starts from, its code `Mentions` some operands only, and its value
is as it should be. -/
def MentionsOnly {α : Type} (P : Operand → Prop) (m : Emission α) (post : α → Prop) : Prop :=
  ∀ s, Mentions P (m.run s).code ∧ post (m.run s).value

namespace MentionsOnly

variable {α β : Type} {P : Operand → Prop} {m : Emission α} {f : α → Emission β}
  {mid : α → Prop} {post : β → Prop}

theorem pure {b : β} (h : post b) : MentionsOnly P (pure b) post := fun _ => ⟨mentions_nil, h⟩

theorem bind (h : MentionsOnly P m mid) (h' : ∀ a, mid a → MentionsOnly P (f a) post) :
    MentionsOnly P (m >>= f) post := by
  intro s
  obtain ⟨hCode, hMid⟩ := h s
  obtain ⟨hCode', hPost⟩ := h' _ hMid (m.run s).supply
  exact ⟨mentions_append.mpr ⟨hCode, hCode'⟩, hPost⟩

theorem emit {i : Instruction} (h : ∀ o ∈ i.mentions, P o) :
    MentionsOnly P (emit i) fun _ => True := fun _ => ⟨by simpa using h, trivial⟩

theorem newLabel_bind {f : Label → Emission β} (h : ∀ l, MentionsOnly P (f l) post) :
    MentionsOnly P (newLabel >>= f) post := fun s => h s.nextLabel s.skipLabel

theorem newTemp_bind {f : Operand → Emission β} (h : ∀ n, MentionsOnly P (f (.temp n)) post) :
    MentionsOnly P (newTemp >>= f) post := fun s => h (s.temps + 1) ⟨s.labels, s.temps + 1⟩

end MentionsOnly

/-- Operands among which there are all temporaries, both truth values, and these leaves: what the
code of a tree may mention. -/
structure Admits (P : Operand → Prop) (leaves : List Operand) : Prop where
  temp (n : Nat) : P (.temp n)
  truth (b : Bool) : P (.const (.bool b))
  leaf : ∀ o ∈ leaves, P o

theorem Admits.left {P : Operand → Prop} {a b : List Operand} (h : Admits P (a ++ b)) :
    Admits P a := ⟨h.temp, h.truth, fun o ho => h.leaf o (List.mem_append_left _ ho)⟩

theorem Admits.right {P : Operand → Prop} {a b : List Operand} (h : Admits P (a ++ b)) :
    Admits P b := ⟨h.temp, h.truth, fun o ho => h.leaf o (List.mem_append_right _ ho)⟩

/-- The code for a value mentions only leaves, and so does the `Rvalue`. -/
def MentionsValue (e : Expr) (v : Emission Rvalue) : Prop :=
  ∀ P, Admits P e.leaves → MentionsOnly P v fun value => ∀ o ∈ value.mentions, P o

/-- The code for an operand mentions only leaves, and the `Operand` is admitted too. -/
def MentionsOperand (e : Expr) (o : Emission Operand) : Prop :=
  ∀ P, Admits P e.leaves → MentionsOnly P o P

/-- The code for jumps mentions only leaves, whatever its targets are. -/
def MentionsJumps (e : Expr) (j : Target → Target → Emission Unit) : Prop :=
  ∀ P, Admits P e.leaves → ∀ onTrue onFalse, MentionsOnly P (j onTrue onFalse) fun _ => True

theorem mentions_jumpsOnTest {P : Operand → Prop} {test : Test} (h : ∀ o ∈ test.mentions, P o)
    (onTrue onFalse : Target) :
    MentionsOnly P (jumpsOnTest test onTrue onFalse) fun _ => True := by
  have hJump (l : Label) : MentionsOnly P (emit (.jump l)) fun _ => True := .emit (by simp)
  have hBranch (polarity : Bool) (l : Label) :
      MentionsOnly P (emit (.branch test polarity l)) fun _ => True := .emit h
  cases onTrue with
  | label l =>
    cases onFalse with
    | label l' => exact (hBranch true l).bind fun _ _ => hJump l'
    | fall => exact hBranch true l
  | fall =>
    cases onFalse with
    | label l' => exact hBranch false l'
    | fall => exact .pure trivial

theorem mentions_reduced {e : Expr} {v : Emission Rvalue} (h : MentionsValue e v) :
    MentionsOperand e (reduced v) := by
  intro P hP
  refine (h P hP).bind fun value hValue => ?_
  cases value with
  | use o => exact .pure (hValue o (by simp))
  | _ =>
    -- what is no operand is kept in a temporary
    refine .newTemp_bind fun n => (MentionsOnly.emit ?_).bind fun _ _ => .pure (hP.temp n)
    exact List.forall_mem_cons.mpr ⟨hP.temp n, hValue⟩

theorem mentions_materialize {e : Expr} {j : Target → Target → Emission Unit}
    (h : MentionsJumps e j) : MentionsValue e (materialize j) := by
  intro P hP
  refine .newLabel_bind fun onFalse => .newLabel_bind fun after => .newTemp_bind fun n => ?_
  have hAssign (b : Bool) :
      MentionsOnly P (emit (.assign (.temp n) (.use (.const (.bool b))))) fun _ => True :=
    .emit (by simp [hP.temp, hP.truth])
  have hMark (l : Label) : MentionsOnly P (mark l) fun _ => True := .emit (by simp)
  have hJump : MentionsOnly P (emit (.jump after)) fun _ => True := .emit (by simp)
  exact (h P hP _ _).bind fun _ _ => (hAssign true).bind fun _ _ => hJump.bind fun _ _ =>
    (hMark onFalse).bind fun _ _ => (hAssign false).bind fun _ _ => (hMark after).bind fun _ _ =>
      .pure (by simp [hP.temp])

/-- Two conditions that are tested in a row, whatever their targets are. -/
theorem mentions_row {P : Operand → Prop} {a b : Expr} {l r : Target → Target → Emission Unit}
    (hLeft : MentionsJumps a l) (hRight : MentionsJumps b r) (hP : Admits P (a.leaves ++ b.leaves))
    (t₁ t₂ t₃ t₄ : Target) : MentionsOnly P (l t₁ t₂ >>= fun _ => r t₃ t₄) fun _ => True :=
  (hLeft P hP.left t₁ t₂).bind fun _ _ => hRight P hP.right t₃ t₄

/-- What the combinators of code do with leaves, as `Expr.CodeRules`. -/
theorem mentions_rules : Expr.CodeRules MentionsValue MentionsOperand MentionsJumps where
  const c P hP := .pure (by simpa using hP.leaf)
  var x P hP := .pure (by simpa using hP.leaf)
  access array index type i h P hP := by
    obtain ⟨hArray, hIndex⟩ := List.forall_mem_cons.mp hP.leaf
    exact (h P ⟨hP.temp, hP.truth, hIndex⟩).bind fun o ho => .pure (by simp [hArray, ho])
  arith op lhs rhs type l r hLeft hRight P hP :=
    (hLeft P hP.left).bind fun a ha => (hRight P hP.right).bind fun b hb =>
      .pure (by simp [ha, hb])
  neg operand type o h P hP := (h P hP).bind fun a ha => .pure (by simpa using ha)
  materialize e j _ _ h := mentions_materialize h
  reduced e v h := mentions_reduced h
  truth b P hP onTrue onFalse := by
    have hGoto (t : Target) : MentionsOnly P (goto t) fun _ => True := by
      cases t with
      | label l => exact .emit (by simp)
      | fall => exact .pure trivial
    exact hGoto _
  value e o _ h P hP onTrue onFalse :=
    (h P hP).bind fun a ha => mentions_jumpsOnTest (by simpa using ha) onTrue onFalse
  not operand j h P hP onTrue onFalse := h P hP onFalse onTrue
  rel op lhs rhs l r hLeft hRight P hP onTrue onFalse :=
    (hLeft P hP.left).bind fun a ha => (hRight P hP.right).bind fun b hb =>
      mentions_jumpsOnTest (by simp [ha, hb]) onTrue onFalse
  and lhs rhs l r hLeft hRight P hP onTrue onFalse := by
    cases onFalse with
    | label onFalse => exact mentions_row hLeft hRight hP _ _ _ _
    | fall =>
      -- to fall through on false, a label is made that the first condition jumps to
      refine .newLabel_bind fun onFalse => (hLeft P hP.left _ _).bind fun _ _ => ?_
      exact (hRight P hP.right _ _).bind fun _ _ => .emit (by simp)
  or lhs rhs l r hLeft hRight P hP onTrue onFalse := by
    cases onTrue with
    | label onTrue => exact mentions_row hLeft hRight hP _ _ _ _
    | fall =>
      -- to fall through on true, likewise
      refine .newLabel_bind fun onTrue => (hLeft P hP.left _ _).bind fun _ _ => ?_
      exact (hRight P hP.right _ _).bind fun _ _ => .emit (by simp)

/-- **The code of expressions mentions only their leaves**, besides temporaries and truth values
(`Admits`). -/
theorem Expr.mentions (e : Expr) : e.HasCode MentionsValue MentionsOperand MentionsJumps :=
  e.emission_induction mentions_rules

/-! ## Statements and programs -/

theorem MentionsOnly.of_run {α : Type} {P : Operand → Prop} {m : Emission α} {post : α → Prop}
    {s s' : Supply} {a : α} {code : List Instruction} (h : MentionsOnly P m post)
    (hRun : m.run s = ⟨a, s', code⟩) : Mentions P code ∧ post a := by
  have hOnly := h s
  rwa [hRun] at hOnly

theorem MentionsJumps.of_run {P : Operand → Prop} {e : Expr} (hP : Admits P e.leaves)
    {onTrue onFalse : Target} {s s' : Supply} {code : List Instruction}
    (hRun : (e.emitJumps onTrue onFalse).run s = ⟨(), s', code⟩) : Mentions P code :=
  ((e.mentions.jumps P hP onTrue onFalse).of_run hRun).1

/-- **The code of statements mentions only their leaves**, besides temporaries and truth values. The
induction is on `Stmt.Layout`. -/
theorem Stmt.Layout.mentions {x : Stmt} {leave : Option Label} {start after : Label}
    {s s' : Supply} {code : List Instruction} (h : x.Layout leave start after s code s')
    {P : Operand → Prop} (hP : Admits P x.leaves) : Mentions P code := by
  induction h with
  | null => exact mentions_nil
  | seq_nil => exact mentions_nil
  | seq_one _ ih => exact ih hP.left
  | seq_cons _ _ ihFirst ihOthers => simp [ihFirst hP.left, ihOthers hP.right]
  | ifThen hTest _ ih => simp [MentionsJumps.of_run hP.left hTest, ih hP.right]
  | ifElse hTest _ _ ih ih' =>
    simp [MentionsJumps.of_run hP.left hTest, ih hP.right.left, ih' hP.right.right]
  | whileLoop hTest _ ih => simp [MentionsJumps.of_run hP.left hTest, ih hP.right]
  | doLoop _ hTest ih => simp [MentionsJumps.of_run hP.right hTest, ih hP.left]
  | breakTo => simp
  | set hValue =>
    obtain ⟨hTarget, hLeaves⟩ := List.forall_mem_cons.mp hP.leaf
    obtain ⟨hCode, hMentions⟩ :=
      (Expr.mentions _ |>.value P ⟨hP.temp, hP.truth, hLeaves⟩).of_run hValue
    simpa [hCode, hTarget] using hMentions
  | store hIndex hValue =>
    obtain ⟨hTarget, hLeaves⟩ := List.forall_mem_cons.mp hP.leaf
    have hBoth : Admits P (_ ++ _) := ⟨hP.temp, hP.truth, hLeaves⟩
    obtain ⟨hCode, hOffset⟩ := (Expr.mentions _ |>.operand P hBoth.left).of_run hIndex
    obtain ⟨hCode', hStored⟩ := (Expr.mentions _ |>.operand P hBoth.right).of_run hValue
    simp [hCode, hCode', hTarget, hOffset, hStored]

/-- The code of programs mentions only leaves: it is the code of the body between two labels. -/
theorem Program.CodeOn.mentions {p : Program} {s s' : Supply} {code : List Instruction}
    (h : p.CodeOn s code s') {P : Operand → Prop} (hP : Admits P p.body.leaves) :
    Mentions P code := by
  obtain ⟨body, rfl, hLayout⟩ := h
  simp [hLayout.mentions hP]

end JumpCode
