import JumpCode.Proofs.Code.ExprInduction
import JumpCode.Proofs.Code.Layout

/-!
# JumpCode — types of code

The code of a program that has been read is well typed: there are types for its temporaries under
which every instruction has operands that suit it. No operand is an array.

The types of temporaries grow with the code. A piece of code extends any types for the temporaries
reserved before it by types for its own, and it stays well typed however they are extended further
on (`TypedOn`).

* `Instruction.WellTyped` — the rules for instructions;
* `Expr.typed` — the code of expressions;
* `Stmt.Layout.typed` — the code of statements;
* `code_wellTyped` — the code of programs.
-/

namespace JumpCode

open Emission

/-! ## Rules for instructions -/

/-- The types of temporaries, by their numbers; they are all scalars. -/
abbrev Typing := Nat → Scalar

/-- The type of an `Operand`, where a `Typing` says what temporaries hold. -/
def Operand.type (τ : Typing) : Operand → Ty
  | var x => x.type
  | temp n => .scalar (τ n)
  | const c => c.type

/-- An `Rvalue` is a scalar of this kind. The result of arithmetic has the wider type of its
operands (`Scalar.wider`), and no operand but the array of an element is an array. -/
inductive Rvalue.HasType (τ : Typing) : Rvalue → Scalar → Prop
  | use {o : Operand} {b : Scalar} (hScalar : o.type τ = .scalar b) : HasType τ (.use o) b
  | binary {op : ArithOp} {l r : Operand} (hLeft : (l.type τ).isNumeric)
      (hRight : (r.type τ).isNumeric) :
      HasType τ (.binary op l r) ((l.type τ).base.wider (r.type τ).base)
  | negate {o : Operand} (hNumeric : (o.type τ).isNumeric) :
      HasType τ (.negate o) (Scalar.int.wider (o.type τ).base)
  | index {x : Symbol} {o : Operand} (hArray : x.type.isArray) (hOffset : (o.type τ).isNumeric) :
      HasType τ (.index x o) x.type.base

/-- A `Test` has operands that suit it: scalars of one kind in a comparison, or a boolean. -/
inductive Test.WellTyped (τ : Typing) : Test → Prop
  | compare {op : RelOp} {l r : Operand} {b : Scalar} (hLeft : l.type τ = .scalar b)
      (hRight : r.type τ = .scalar b) : WellTyped τ (.compare op l r)
  | truth {o : Operand} (hBool : o.type τ = .bool) : WellTyped τ (.truth o)

/-- An `Instruction` has operands that suit it: a temporary gets the type that the `Typing` says, a
variable what suits it (`SuitsVariable`), and an element what suits the elements of its array
(`SuitsElement`), at an offset that is a number. -/
inductive Instruction.WellTyped (τ : Typing) : Instruction → Prop
  | label {l : Label} : WellTyped τ (.label l)
  | jump {l : Label} : WellTyped τ (.jump l)
  | branch {t : Test} {polarity : Bool} {l : Label} (hTest : t.WellTyped τ) :
      WellTyped τ (.branch t polarity l)
  | assignTemp {n : Nat} {v : Rvalue} (hValue : v.HasType τ (τ n)) :
      WellTyped τ (.assign (.temp n) v)
  | assignVar {x : Symbol} {v : Rvalue} {b : Scalar} (hValue : v.HasType τ b)
      (hSuits : SuitsVariable x.type (.scalar b)) : WellTyped τ (.assign (.var x) v)
  | store {x : Symbol} {offset value : Operand} {b : Scalar} (hArray : x.type.isArray)
      (hOffset : (offset.type τ).isNumeric) (hValue : value.type τ = .scalar b)
      (hSuits : SuitsElement (.scalar x.type.base) (.scalar b)) :
      WellTyped τ (.store x offset value)

/-- The operands of an `Rvalue`, without the array of an element. -/
def Rvalue.operands : Rvalue → List Operand
  | use o => [o]
  | binary _ l r => [l, r]
  | negate o => [o]
  | index _ offset => [offset]

/-- The operands of a `Test`. -/
def Test.operands : Test → List Operand
  | compare _ l r => [l, r]
  | truth o => [o]

/-- What an `Instruction` reads, and the variable or temporary that it assigns to. The array of an
element is none of these. -/
def Instruction.operands : Instruction → List Operand
  | label _ => []
  | jump _ => []
  | branch test _ _ => test.operands
  | assign target value => target :: value.operands
  | store _ offset value => [offset, value]

theorem Ty.isArray_of_isNumeric {t : Ty} (h : t.isNumeric) : t.isArray = false := by
  unfold Ty.isNumeric at h
  rw [Bool.and_eq_true, Bool.not_eq_true'] at h
  exact h.1

theorem Ty.eq_scalar {t : Ty} (h : t.isArray = false) : t = .scalar t.base := by
  obtain ⟨base, lengths, hAddressable⟩ := t
  unfold Ty.isArray at h
  rw [Bool.not_eq_false', List.isEmpty_iff] at h
  subst h
  rfl

theorem SuitsVariable.isArray {target value : Ty} (h : SuitsVariable target value) :
    target.isArray = false ∧ value.isArray = false := by
  rcases h with ⟨hTarget, hValue⟩ | ⟨rfl, rfl⟩
  · exact ⟨Ty.isArray_of_isNumeric hTarget, Ty.isArray_of_isNumeric hValue⟩
  · exact ⟨rfl, rfl⟩

theorem Rvalue.HasType.scalars {τ : Typing} {v : Rvalue} {b : Scalar} (h : v.HasType τ b)
    {o : Operand} (hOperand : o ∈ v.operands) : (o.type τ).isArray = false := by
  cases h with
  | use hScalar =>
    rw [List.mem_singleton.mp hOperand, hScalar]
    rfl
  | binary hLeft hRight =>
    simp only [operands, List.mem_cons, List.not_mem_nil, or_false] at hOperand
    rcases hOperand with rfl | rfl
    · exact Ty.isArray_of_isNumeric hLeft
    · exact Ty.isArray_of_isNumeric hRight
  | negate hNumeric =>
    rw [List.mem_singleton.mp hOperand]
    exact Ty.isArray_of_isNumeric hNumeric
  | index _ hOffset =>
    rw [List.mem_singleton.mp hOperand]
    exact Ty.isArray_of_isNumeric hOffset

/-- Operands of well-typed instructions are no arrays: the rules of `Instruction.WellTyped` have
scalars everywhere. -/
theorem Instruction.WellTyped.scalars {τ : Typing} {i : Instruction} (h : i.WellTyped τ)
    {o : Operand} (hOperand : o ∈ i.operands) : (o.type τ).isArray = false := by
  cases h with
  | label => cases hOperand
  | jump => cases hOperand
  | branch hTest =>
    cases hTest with
    | compare hLeft hRight =>
      simp only [operands, Test.operands, List.mem_cons, List.not_mem_nil, or_false] at hOperand
      rcases hOperand with rfl | rfl
      · rw [hLeft]
        rfl
      · rw [hRight]
        rfl
    | truth hBool =>
      rw [List.mem_singleton.mp hOperand, hBool]
      rfl
  | assignTemp hValue =>
    -- the target counts as an operand too
    rcases List.mem_cons.mp hOperand with rfl | hRead
    · rfl
    · exact hValue.scalars hRead
  | assignVar hValue hSuits =>
    rcases List.mem_cons.mp hOperand with rfl | hRead
    · exact hSuits.isArray.1
    · exact hValue.scalars hRead
  | store _ hOffset hValue _ =>
    simp only [operands, List.mem_cons, List.not_mem_nil, or_false] at hOperand
    rcases hOperand with rfl | rfl
    · exact Ty.isArray_of_isNumeric hOffset
    · rw [hValue]
      rfl

/-! ## Types that grow -/

/-- Two typings give the temporaries that a `Supply` has reserved the same types. -/
def Typing.Agrees (τ τ' : Typing) (s : Supply) : Prop := ∀ n, n ≤ s.temps → τ n = τ' n

theorem Typing.Agrees.trans {τ τ₁ τ₂ : Typing} {s s' : Supply} (h : τ.Agrees τ₁ s)
    (h' : τ₁.Agrees τ₂ s') (hLe : s.temps ≤ s'.temps) : τ.Agrees τ₂ s := fun n hn =>
  (h n hn).trans (h' n (Nat.le_trans hn hLe))

/-- If `pre` holds of the temporaries reserved so far, whatever the others are, then the code is
well typed under types for its own temporaries, whatever the others are, and `post` holds. So a
`Typing` is only ever extended. -/
structure TypedOn (pre : Typing → Prop) (s : Supply) (code : List Instruction) (s' : Supply)
    (post : Typing → Prop) : Prop where
  le : s.temps ≤ s'.temps
  extend (τ : Typing) (hPre : ∀ τ', τ.Agrees τ' s → pre τ') :
    ∃ τ₁ : Typing, τ.Agrees τ₁ s ∧
      ∀ τ', τ₁.Agrees τ' s' → post τ' ∧ ∀ i ∈ code, i.WellTyped τ'

namespace TypedOn

variable {pre pre' mid post post' : Typing → Prop} {s s₁ s' : Supply}
  {code code' : List Instruction}

theorem mono (h : TypedOn pre s code s' post) (hPre : ∀ τ, pre' τ → pre τ)
    (hPost : ∀ τ, post τ → post' τ) : TypedOn pre' s code s' post' where
  le := h.le
  extend τ hPre' := by
    obtain ⟨τ₁, hAgrees, hTyped⟩ := h.extend τ fun τ' hτ' => hPre τ' (hPre' τ' hτ')
    refine ⟨τ₁, hAgrees, fun τ' hτ' => ?_⟩
    exact ⟨hPost τ' (hTyped τ' hτ').1, (hTyped τ' hτ').2⟩

/-- What holds before a piece of code holds behind it too, since the types of what was there stay as
they are (`Typing.Agrees`). -/
theorem keep (h : TypedOn pre s code s' post) :
    TypedOn pre s code s' fun τ => pre τ ∧ post τ where
  le := h.le
  extend τ hPre := by
    obtain ⟨τ₁, hAgrees, hTyped⟩ := h.extend τ hPre
    refine ⟨τ₁, hAgrees, fun τ' hτ' => ?_⟩
    obtain ⟨hPost, hCode⟩ := hTyped τ' hτ'
    -- the temporaries that the condition is about keep their types
    exact ⟨⟨hPre τ' (hAgrees.trans hτ' h.le), hPost⟩, hCode⟩

theorem append (h : TypedOn pre s code s₁ mid)
    (h' : TypedOn (fun τ => pre τ ∧ mid τ) s₁ code' s' post) :
    TypedOn pre s (code ++ code') s' post where
  le := Nat.le_trans h.le h'.le
  extend τ hPre := by
    obtain ⟨τ₁, hAgrees, hTyped⟩ := h.keep.extend τ hPre
    obtain ⟨τ₂, hAgrees', hTyped'⟩ := h'.extend τ₁ fun τ' hτ' => (hTyped τ' hτ').1
    -- the types for the second piece extend those for the first
    refine ⟨τ₂, hAgrees.trans hAgrees' h.le, fun τ' hτ' => ?_⟩
    obtain ⟨hPost, hSecond⟩ := hTyped' τ' hτ'
    obtain ⟨_, hFirst⟩ := hTyped τ' (hAgrees'.trans hτ' h'.le)
    refine ⟨hPost, fun i hMem => ?_⟩
    rcases List.mem_append.mp hMem with hMem | hMem
    · exact hFirst i hMem
    · exact hSecond i hMem

theorem nil (hPost : ∀ τ, pre τ → post τ) : TypedOn pre s [] s post where
  le := Nat.le_refl _
  extend τ hPre := by
    refine ⟨τ, fun _ _ => rfl, fun τ' hτ' => ⟨hPost τ' (hPre τ' hτ'), fun i hMem => ?_⟩⟩
    exact absurd hMem List.not_mem_nil

theorem instruction {i : Instruction} (h : ∀ τ, pre τ → i.WellTyped τ) :
    TypedOn pre s [i] s fun _ => True where
  le := Nat.le_refl _
  extend τ hPre := by
    refine ⟨τ, fun _ _ => rfl, fun τ' hτ' => ⟨trivial, fun j hMem => ?_⟩⟩
    rw [List.mem_singleton.mp hMem]
    exact h τ' (hPre τ' hτ')

/-- Labels have no types. -/
theorem reserveLabel (h : TypedOn pre s.skipLabel code s' post) : TypedOn pre s code s' post where
  le := h.le
  extend := h.extend

theorem mark (l : Label) : TypedOn pre s [.label l] s fun _ => True := instruction fun _ _ => .label

/-- A temporary may be reserved for any type. -/
theorem reserveTemp {s s' : Supply} {code : List Instruction} (b : Scalar)
    (h : TypedOn (fun τ => pre τ ∧ τ (s.temps + 1) = b) ⟨s.labels, s.temps + 1⟩ code s' post) :
    TypedOn pre s code s' post where
  le := Nat.le_trans (Nat.le_succ _) h.le
  extend τ hPre := by
    -- the new temporary gets its type here, before any code that uses it
    let τ₀ : Typing := fun n => if n = s.temps + 1 then b else τ n
    have hOld : τ.Agrees τ₀ s := by
      intro n hn
      have hNe : n ≠ s.temps + 1 := by omega
      exact (if_neg hNe).symm
    have hNew : τ₀ (s.temps + 1) = b := if_pos rfl
    have hPre' : ∀ τ', τ₀.Agrees τ' ⟨s.labels, s.temps + 1⟩ → pre τ' ∧ τ' (s.temps + 1) = b := by
      intro τ' hτ'
      exact ⟨hPre τ' (hOld.trans hτ' (Nat.le_succ _)), (hτ' _ (Nat.le_refl _)).symm.trans hNew⟩
    obtain ⟨τ₁, hAgrees, hTyped⟩ := h.extend τ₀ hPre'
    exact ⟨τ₁, hOld.trans hAgrees (Nat.le_succ _), hTyped⟩

end TypedOn

/-! ## Emissions -/

/-- Whatever `Supply` an emission starts from, its code is well typed, and `post` holds of its value
behind it if `pre` holds before (`TypedOn`). -/
def Types {α : Type} (pre : Typing → Prop) (m : Emission α) (post : Typing → α → Prop) : Prop :=
  ∀ s, TypedOn pre s (m.run s).code (m.run s).supply fun τ => post τ (m.run s).value

namespace Types

variable {α β : Type} {pre pre' : Typing → Prop} {mid post post' : Typing → α → Prop}
  {m : Emission α} {f : α → Emission β}

theorem mono (h : Types pre m post) (hPre : ∀ τ, pre' τ → pre τ)
    (hPost : ∀ τ a, post τ a → post' τ a) : Types pre' m post' := fun s =>
  (h s).mono hPre fun τ => hPost τ _

theorem pure {a : α} (h : ∀ τ, pre τ → post τ a) : Types pre (pure a) post := fun _ => .nil h

theorem bind {post : Typing → β → Prop} (h : Types pre m mid)
    (h' : ∀ a, Types (fun τ => pre τ ∧ mid τ a) (f a) post) : Types pre (m >>= f) post :=
  fun s => (h s).append (h' _ _)

theorem emit {i : Instruction} (h : ∀ τ, pre τ → i.WellTyped τ) :
    Types pre (emit i) fun _ _ => True := fun _ => .instruction h

theorem newLabel_bind {f : Label → Emission β} {post : Typing → β → Prop}
    (h : ∀ l, Types pre (f l) post) : Types pre (newLabel >>= f) post := fun s =>
  .reserveLabel (h s.nextLabel s.skipLabel)

theorem newTemp_bind {f : Operand → Emission β} {post : Typing → β → Prop} (b : Scalar)
    (h : ∀ n, Types (fun τ => pre τ ∧ τ n = b) (f (.temp n)) post) :
    Types pre (newTemp >>= f) post := fun s => .reserveTemp b (h _ ⟨s.labels, s.temps + 1⟩)

theorem of_run (h : Types pre m post) {s s' : Supply} {a : α} {code : List Instruction}
    (hRun : m.run s = ⟨a, s', code⟩) : TypedOn pre s code s' fun τ => post τ a := by
  have hTyped := h s
  rw [hRun] at hTyped
  exact hTyped

end Types

/-! ## Expressions -/

/-- The code for a value is well typed, and the `Rvalue` has the type of the expression. -/
def TypesValue (e : Expr) (v : Emission Rvalue) : Prop :=
  e.WellTyped → e.type.isArray = false →
    ∀ pre, Types pre v fun τ value => value.HasType τ e.type.base

/-- The code for an operand is well typed, and the `Operand` has the type of the expression. -/
def TypesOperand (e : Expr) (o : Emission Operand) : Prop :=
  e.WellTyped → e.type.isArray = false →
    ∀ pre, Types pre o fun τ operand => operand.type τ = e.type

/-- The code for jumps on a truth value is well typed, whatever its targets are. -/
def TypesJumps (e : Expr) (j : Target → Target → Emission Unit) : Prop :=
  e.WellTyped → e.type = .bool → ∀ onTrue onFalse pre, Types pre (j onTrue onFalse) fun _ _ => True

theorem typed_jumpsOnTest {pre : Typing → Prop} {test : Test}
    (h : ∀ τ, pre τ → test.WellTyped τ) (onTrue onFalse : Target) :
    Types pre (jumpsOnTest test onTrue onFalse) fun _ _ => True := by
  have hBranch (polarity : Bool) (l : Label) :
      Types pre (emit (.branch test polarity l)) fun _ _ => True :=
    .emit fun τ hPre => .branch (h τ hPre)
  cases onTrue with
  | label l =>
    cases onFalse with
    | label l' => exact (hBranch true l).bind fun _ => .emit fun _ _ => .jump
    | fall => exact hBranch true l
  | fall =>
    cases onFalse with
    | label l' => exact hBranch false l'
    | fall => exact .pure fun _ _ => trivial

theorem typed_reduced {e : Expr} {v : Emission Rvalue} (h : TypesValue e v) :
    TypesOperand e (reduced v) := by
  intro hTyped hScalar pre
  have hType := Ty.eq_scalar hScalar
  refine (h hTyped hScalar pre).bind fun value => ?_
  have hAssign : Types (fun τ => pre τ ∧ value.HasType τ e.type.base)
      (newTemp >>= fun temp => emit (.assign temp value) >>= fun _ => pure temp)
      fun τ operand => operand.type τ = e.type := by
    refine .newTemp_bind e.type.base fun n => ?_
    refine (Types.emit ?_).bind fun _ => .pure ?_
    · rintro τ ⟨⟨_, hValue⟩, hTemp⟩
      rw [← hTemp] at hValue
      exact .assignTemp hValue
    · rintro τ ⟨⟨_, hTemp⟩, _⟩
      rw [Operand.type, hTemp, ← hType]
  -- only an operand that is there already needs no temporary
  cases value with
  | use o =>
    refine .pure ?_
    rintro τ ⟨_, hUse⟩
    cases hUse with | use hOperand => exact hOperand.trans hType.symm
  | _ => exact hAssign

theorem Expr.type_of_isLogical {e : Expr} (h : e.isLogical = true) : e.type = .bool := by
  cases e <;> first | rfl | cases h

theorem typed_materialize {e : Expr} {j : Target → Target → Emission Unit}
    (hLogical : e.isLogical = true) (h : TypesJumps e j) : TypesValue e (materialize j) := by
  intro hTyped _ pre
  have hBool := e.type_of_isLogical hLogical
  have hTruth (τ : Typing) (n : Nat) (b : Bool) (hTemp : τ n = .bool) :
      (Instruction.assign (.temp n) (.use (.const (.bool b)))).WellTyped τ := by
    refine .assignTemp (.use ?_)
    rw [hTemp]
    rfl
  -- one temporary takes true or false, as the jumps decide
  refine .newLabel_bind fun onFalse => .newLabel_bind fun after => ?_
  refine .newTemp_bind .bool fun n => ?_
  refine (h hTyped hBool .fall (.label onFalse) _).bind fun _ => ?_
  refine Types.bind (.emit ?_) fun _ => Types.bind (.emit fun _ _ => .jump) fun _ =>
    Types.bind (.emit fun _ _ => .label) fun _ => Types.bind (.emit ?_) fun _ =>
      Types.bind (.emit fun _ _ => .label) fun _ => .pure ?_
  · rintro τ ⟨⟨_, hTemp⟩, _⟩
    exact hTruth τ n true hTemp
  · rintro τ ⟨⟨⟨⟨⟨_, hTemp⟩, _⟩, _⟩, _⟩, _⟩
    exact hTruth τ n false hTemp
  · rintro τ ⟨⟨⟨⟨⟨⟨⟨_, hTemp⟩, _⟩, _⟩, _⟩, _⟩, _⟩, _⟩
    rw [hBool]
    refine .use ?_
    rw [Operand.type, hTemp]
    rfl

/-- Two conditions that are tested in a row, whatever their targets are: `&&` and `||` come to this.
-/
theorem typed_both {a b : Expr} {l r : Target → Target → Emission Unit} (hLeft : TypesJumps a l)
    (hRight : TypesJumps b r) (ha : a.WellTyped) (hb : b.WellTyped) (haBool : a.type = .bool)
    (hbBool : b.type = .bool) (t₁ t₂ t₃ t₄ : Target) (pre : Typing → Prop) :
    Types pre (l t₁ t₂ >>= fun _ => r t₃ t₄) fun _ _ => True :=
  (hLeft ha haBool t₁ t₂ pre).bind fun _ => hRight hb hbBool t₃ t₄ _

/-- What the combinators of code do with types, as `Expr.CodeRules`. -/
theorem typed_rules : Expr.CodeRules TypesValue TypesOperand TypesJumps where
  const c := by
    intro _ _ pre
    refine .pure fun τ _ => .use ?_
    cases c <;> rfl
  var x := by
    intro _ hScalar pre
    exact .pure fun τ _ => .use (Ty.eq_scalar hScalar)
  access array index type i h := by
    -- of the well-typed expressions only an access is one
    rintro (_ | _ | ⟨hIndex, hNumeric, hPart⟩) _ pre
    refine (h hIndex (Ty.isArray_of_isNumeric hNumeric) pre).bind fun o => .pure ?_
    rintro τ ⟨_, hOffset⟩
    -- elements of elements have the same base
    have hBase : (Expr.access array index type).type.base = array.type.base := hPart.base
    rw [hBase]
    refine .index hPart.isArray ?_
    rw [hOffset]
    exact hNumeric
  arith op lhs rhs type l r hLeft hRight := by
    intro hTyped _ pre
    cases hTyped with
    | arith ha hb haNumeric hbNumeric =>
      refine (hLeft ha (Ty.isArray_of_isNumeric haNumeric) pre).bind fun x => ?_
      refine (hRight hb (Ty.isArray_of_isNumeric hbNumeric) _).bind fun y => .pure ?_
      rintro τ ⟨⟨_, hx⟩, hy⟩
      -- the base of the result is the wider one, which is read off the operands
      have hResult : (Rvalue.binary op x y).HasType τ ((x.type τ).base.wider (y.type τ).base) := by
        refine .binary ?_ ?_
        · rw [hx]
          exact haNumeric
        · rw [hy]
          exact hbNumeric
      rw [hx, hy] at hResult
      exact hResult
  neg operand type o h := by
    intro hTyped _ pre
    cases hTyped with
    | neg ha hNumeric =>
      refine (h ha (Ty.isArray_of_isNumeric hNumeric) pre).bind fun x => .pure ?_
      rintro τ ⟨_, hx⟩
      have hResult : (Rvalue.negate x).HasType τ (Scalar.int.wider (x.type τ).base) := by
        refine .negate ?_
        rw [hx]
        exact hNumeric
      rw [hx] at hResult
      exact hResult
  materialize _ _ hLogical _ h := typed_materialize hLogical h
  reduced _ _ h := typed_reduced h
  truth b := by
    intro _ _ onTrue onFalse pre
    have hGoto (t : Target) : Types pre (goto t) fun _ _ => True := by
      cases t with
      | label l => exact .emit fun _ _ => .jump
      | fall => exact .pure fun _ _ => trivial
    exact hGoto _
  value e o _ h := by
    intro hTyped hBool onTrue onFalse pre
    have hScalar : e.type.isArray = false := by rw [hBool]; rfl
    refine (h hTyped hScalar pre).bind fun x => typed_jumpsOnTest ?_ onTrue onFalse
    rintro τ ⟨_, hx⟩
    exact .truth (hx.trans hBool)
  not operand j h := by
    intro hTyped _ onTrue onFalse pre
    cases hTyped with | not ha hBool => exact h ha hBool onFalse onTrue pre
  rel op lhs rhs l r hLeft hRight := by
    intro hTyped _ onTrue onFalse pre
    cases hTyped with
    | rel ha hb hSame hScalar =>
      refine (hLeft ha hScalar pre).bind fun x => ?_
      refine (hRight hb (hSame ▸ hScalar) _).bind fun y => typed_jumpsOnTest ?_ onTrue onFalse
      rintro τ ⟨⟨_, hx⟩, hy⟩
      have hType := Ty.eq_scalar hScalar
      -- equal types that are no arrays are the same scalar
      exact .compare (hx.trans hType) (hy.trans (hSame.symm.trans hType))
  and lhs rhs l r hLeft hRight := by
    intro hTyped _ onTrue onFalse pre
    cases hTyped with
    | and ha hb haBool hbBool =>
      cases onFalse with
      | label onFalse => exact typed_both hLeft hRight ha hb haBool hbBool _ _ _ _ pre
      | fall =>
        -- a label of its own changes nothing about types
        refine .newLabel_bind fun onFalse => ?_
        refine (hLeft ha haBool _ _ pre).bind fun _ => (hRight hb hbBool _ _ _).bind fun _ => ?_
        exact .emit fun _ _ => .label
  or lhs rhs l r hLeft hRight := by
    intro hTyped _ onTrue onFalse pre
    cases hTyped with
    | or ha hb haBool hbBool =>
      cases onTrue with
      | label onTrue => exact typed_both hLeft hRight ha hb haBool hbBool _ _ _ _ pre
      | fall =>
        refine .newLabel_bind fun onTrue => ?_
        refine (hLeft ha haBool _ _ pre).bind fun _ => (hRight hb hbBool _ _ _).bind fun _ => ?_
        exact .emit fun _ _ => .label

/-- **The code of expressions is well typed**, in each of its three forms, by induction on the
`Expr`. -/
theorem Expr.typed (e : Expr) : e.HasCode TypesValue TypesOperand TypesJumps :=
  e.emission_induction typed_rules

/-! ## Statements -/

/-- A piece of code is well typed under types for its temporaries, whatever the others are:
`TypedOn` with nothing to assume or to add. -/
def IsTypedOn (s : Supply) (code : List Instruction) (s' : Supply) : Prop :=
  TypedOn (fun _ => True) s code s' fun _ => True

theorem IsTypedOn.append {s s₁ s' : Supply} {code code' : List Instruction}
    (h : IsTypedOn s code s₁) (h' : IsTypedOn s₁ code' s') : IsTypedOn s (code ++ code') s' :=
  TypedOn.append h (h'.mono (fun _ _ => trivial) fun _ h => h)

theorem IsTypedOn.mark {s : Supply} (l : Label) : IsTypedOn s [.label l] s := TypedOn.mark l

theorem IsTypedOn.jump {s : Supply} (l : Label) : IsTypedOn s [.jump l] s :=
  TypedOn.instruction fun _ _ => .jump

theorem Expr.IsTest.typed {c : Expr} (h : c.IsTest) {onTrue onFalse : Target} {s s' : Supply}
    {code : List Instruction} (hRun : (c.emitJumps onTrue onFalse).run s = ⟨(), s', code⟩) :
    IsTypedOn s code s' :=
  (c.typed.jumps h.1 h.2 onTrue onFalse _).of_run hRun

theorem SuitsElement.scalar {t u : Ty} (h : SuitsElement t u) :
    SuitsElement (.scalar t.base) (.scalar u.base) := by
  have hTarget := Ty.eq_scalar h.1
  have hValue := Ty.eq_scalar h.2.1
  rwa [hTarget, hValue] at h

/-- **The code of statements is well typed.** The induction is on `Stmt.Layout`, and `Stmt.Formed`
gives the types of the expressions in it. -/
theorem Stmt.Layout.typed {x : Stmt} {leave : Option Label} {start after : Label} {s s' : Supply}
    {code : List Instruction} (h : x.Layout leave start after s code s') {loop : Option LoopExit}
    {n n' : Nat} (hFormed : x.Formed loop n n') : IsTypedOn s code s' := by
  induction h generalizing loop n n' with
  | null => exact .nil fun _ _ => trivial
  | seq_nil => exact .nil fun _ _ => trivial
  | seq_one _ ih => cases hFormed with | seq_cons hFirst _ => exact ih hFirst
  | seq_cons _ _ ihFirst ihOthers =>
    cases hFormed with
    | seq_cons hFirst hRest =>
      exact .reserveLabel ((ihFirst hFirst).append ((IsTypedOn.mark _).append (ihOthers hRest)))
  | ifThen hTest _ ih =>
    cases hFormed with
    | ifThen hCondition hBody =>
      exact .reserveLabel ((hCondition.typed hTest).append ((IsTypedOn.mark _).append (ih hBody)))
  | ifElse hTest _ _ ih ih' =>
    cases hFormed with
    | ifElse hCondition hBody hOtherwise =>
      refine .reserveLabel (.reserveLabel ((hCondition.typed hTest).append ?_))
      exact (IsTypedOn.mark _).append ((ih hBody).append ((IsTypedOn.jump _).append
        ((IsTypedOn.mark _).append (ih' hOtherwise))))
  | whileLoop hTest _ ih =>
    cases hFormed with
    | whileLoop hCondition hBody =>
      refine (hCondition.typed hTest).append (.reserveLabel ?_)
      exact (IsTypedOn.mark _).append ((ih hBody).append (.jump _))
  | doLoop _ hTest ih =>
    cases hFormed with
    | doLoop hBody hCondition =>
      exact .reserveLabel ((ih hBody).append ((IsTypedOn.mark _).append (hCondition.typed hTest)))
  | breakTo => exact .instruction fun _ _ => .jump
  | @set _ _ _ s s' x a value code hValue =>
    cases hFormed with
    | set hTyped hSuits =>
      -- a value that may be assigned is no array, so that its code is typed
      have hScalar := hSuits.isArray.2
      have hCode := (a.typed.value hTyped hScalar fun _ => True).of_run hValue
      refine TypedOn.append hCode (.instruction ?_)
      rintro τ ⟨_, hHasType⟩
      rw [Ty.eq_scalar hScalar] at hSuits
      exact .assignVar hHasType hSuits
  | @store _ _ _ s s₁ s' target a offset value code code' hIndex hValue =>
    cases hFormed with
    | store hTarget hTyped hSuits =>
      cases hTarget with
      | access hIndexTyped hNumeric hPart =>
        have hScalar := hSuits.2.1
        have hOffset := (target.index.typed.operand hIndexTyped
          (Ty.isArray_of_isNumeric hNumeric) fun _ => True).of_run hIndex
        refine TypedOn.append hOffset (TypedOn.append
          ((a.typed.operand hTyped hScalar _).of_run hValue) (.instruction ?_))
        rintro τ ⟨⟨_, hOffsetType⟩, hValueType⟩
        -- what suits the element suits its base, and this is the base of the array
        have hElement := hSuits.scalar
        rw [hPart.base] at hElement
        refine .store hPart.isArray ?_ (hValueType.trans (Ty.eq_scalar hScalar)) hElement
        rw [hOffsetType]
        exact hNumeric

/-! ## Programs -/

/-- **The code of programs is well typed.** Emission of a program that has been read succeeds, and
there are types for temporaries under which every instruction of its code is well typed; no
operand in it is an array. -/
theorem code_wellTyped {tokens : List (Located Token)} {ending : Option (Located LexError)}
    {p : Program} (hRead : (readTokens tokens ending).outcome = .ok p) (exits : Exits)
    (s : Supply) :
    ((p.emit.emission exits).run s).value.1 = .ok () ∧
    ∃ τ : Typing, ∀ i ∈ ((p.emit.emission exits).run s).code,
      i.WellTyped τ ∧ ∀ o ∈ i.operands, (o.type τ).isArray = false := by
  obtain ⟨exits', s', code, hEmits, body, hCode, hLayout⟩ := p.emits_of_read hRead exits s
  obtain ⟨n, hFormed⟩ := formed_of_read hRead
  have hTyped : IsTypedOn s code s' := by
    rw [hCode]
    exact .reserveLabel (.reserveLabel ((IsTypedOn.mark _).append
      ((hLayout.typed hFormed).append (.mark _))))
  -- which types the temporaries get that are not reserved does not matter
  obtain ⟨τ, _, hAll⟩ := hTyped.extend (fun _ => .int) fun _ _ => trivial
  unfold Emits at hEmits
  rw [hEmits]
  refine ⟨rfl, τ, fun i hMem => ?_⟩
  have hInstruction := (hAll τ fun _ _ => rfl).2 i hMem
  exact ⟨hInstruction, fun o hOperand => hInstruction.scalars hOperand⟩

/-- There is a program with loops, truth values and an array whose code is well typed. -/
theorem code_wellTyped_sample : ∃ p, (readTokens sampleTokens none).outcome = .ok p ∧
    ((p.emit.emission []).run Supply.fresh).value.1 = .ok () ∧
    ∃ τ : Typing, ∀ i ∈ ((p.emit.emission []).run Supply.fresh).code,
      i.WellTyped τ ∧ ∀ o ∈ i.operands, (o.type τ).isArray = false := by
  obtain ⟨p, hRead⟩ := exists_sample
  exact ⟨p, hRead, code_wellTyped hRead [] .fresh⟩

end JumpCode
