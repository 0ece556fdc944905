import JumpCode.Proofs.Semantics.Machine

/-!
# JumpCode — what is done on the way

Expressions are evaluated by operations: arithmetic, negations and loads from arrays. A tree says
which ones there are and in what order, and the machine performs some with each step. Here both
are kept account of, for trees as a monad that collects operations in front of the value.

* `Expr.perform` — the evaluation of an expression, with its operations;
* `Performs` — steps of the machine, with their operations;
* `Carries` — the machine performs just what a computation consists of.
-/

namespace JumpCode

/-! ## Operations -/

/-- What is done to values on the way to the value of an `Expr`. -/
inductive Operation (Value : Type)
  | arith (op : ArithOp) (a b : Value)
  | negate (a : Value)
  | load (array : Symbol) (offset : Value)
deriving DecidableEq

/-- A computation: each `Operation` in it, one after the other, and what they come to. Where it
fails, the last operation is the one that does. -/
@[ext] structure Performed (Value Failure α : Type) where
  operations : List (Operation Value)
  result : Except Failure α

namespace Performed

variable {Value Failure α β : Type}

instance : Monad (Performed Value Failure) where
  pure a := ⟨[], .ok a⟩
  bind p f :=
    match p.result with
    | .ok a => ⟨p.operations ++ (f a).operations, (f a).result⟩
    | .error failure => ⟨p.operations, .error failure⟩

@[simp] theorem operations_pure (a : α) :
    (pure a : Performed Value Failure α).operations = [] := rfl

@[simp] theorem result_pure (a : α) : (pure a : Performed Value Failure α).result = .ok a := rfl

theorem bind_ok (operations : List (Operation Value)) (a : α) (f : α → Performed Value Failure β) :
    (⟨operations, .ok a⟩ >>= f : Performed Value Failure β) =
      ⟨operations ++ (f a).operations, (f a).result⟩ := rfl

@[simp] theorem result_bind (p : Performed Value Failure α) (f : α → Performed Value Failure β) :
    (p >>= f).result = p.result >>= fun a => (f a).result := by
  obtain ⟨operations, result⟩ := p
  cases result <;> rfl

instance : LawfulMonad (Performed Value Failure) := LawfulMonad.mk' (Performed Value Failure)
  (fun p => by
    obtain ⟨operations, result⟩ := p
    cases result with
    | error failure => rfl
    | ok a => exact Performed.ext (List.append_nil operations) rfl)
  (fun a f => rfl)
  (fun p f g => by
    obtain ⟨operations, result⟩ := p
    cases result with
    | error failure => rfl
    | ok a =>
      rw [bind_ok, bind_ok]
      obtain ⟨operations', result'⟩ := f a
      cases result' with
      | error failure => rfl
      | ok b =>
        exact Performed.ext (List.append_assoc ..) rfl)

end Performed

section Evaluation

variable {Value Failure : Type} (I : Interpretation Value Failure) (m : Memory Value)

/-- What an `Operation` comes to under an `Interpretation`. -/
def Operation.result : Operation Value → Except Failure Value
  | arith op a b => I.arith op a b
  | negate a => I.negate a
  | load array offset => .ok (m.elements array offset)

/-- An `Operation` on its own. -/
def Operation.perform (o : Operation Value) : Performed Value Failure Value := ⟨[o], o.result I m⟩

/-! ## Expressions -/

/-- The evaluation of an `Expr`: its operands from left to right, then its own `Operation`. The
second operand of a connective is evaluated only where the first one does not decide. -/
def Expr.perform : Expr → Performed Value Failure Value
  | .const c => pure (I.constant c)
  | .var x => pure (m.vars x)
  | .access array index _ => do
    let i ← index.perform
    (Operation.load array i).perform I m
  | .arith op lhs rhs _ => do
    let a ← lhs.perform
    let b ← rhs.perform
    (Operation.arith op a b).perform I m
  | .neg operand _ => do
    let a ← operand.perform
    (Operation.negate a).perform I m
  | .not operand => do return I.bool (!I.truth (← operand.perform))
  | .rel op lhs rhs => do
    let a ← lhs.perform
    let b ← rhs.perform
    return I.bool (I.compare op a b)
  | .and lhs rhs => do
    if I.truth (← lhs.perform) then return I.bool (I.truth (← rhs.perform))
    else return I.bool false
  | .or lhs rhs => do
    if I.truth (← lhs.perform) then return I.bool true
    else return I.bool (I.truth (← rhs.perform))

/-- The evaluation of an `Expr` that is wanted as true or false only. -/
def Expr.performTest (e : Expr) : Performed Value Failure Bool := do
  return I.truth (← e.perform I m)

namespace Expr

/-- **The account is of the evaluation**: what `perform` comes to is the value, `eval`. -/
theorem result_perform (e : Expr) : (e.perform I m).result = e.eval I m := by
  -- on the expression: both evaluate the operands in the same order, one keeping a record of it
  induction e with
  | const c => rfl
  | var x => rfl
  | access array index type ih =>
    rw [perform, eval, Performed.result_bind, ih]
    rfl
  | arith op lhs rhs type ihLeft ihRight =>
    rw [perform, eval, Performed.result_bind, ihLeft]
    refine congrArg (lhs.eval I m >>= ·) (funext fun a => ?_)
    rw [Performed.result_bind, ihRight]
    rfl
  | neg operand type ih =>
    rw [perform, eval, Performed.result_bind, ih]
    rfl
  | not operand ih =>
    rw [perform, eval, Performed.result_bind, ih]
    rfl
  | rel op lhs rhs ihLeft ihRight =>
    rw [perform, eval, Performed.result_bind, ihLeft]
    refine congrArg (lhs.eval I m >>= ·) (funext fun a => ?_)
    rw [Performed.result_bind, ihRight]
    rfl
  | and lhs rhs ihLeft ihRight =>
    rw [perform, eval, Performed.result_bind, ihLeft]
    refine congrArg (lhs.eval I m >>= ·) (funext fun a => ?_)
    split
    · rw [Performed.result_bind, ihRight]
      rfl
    · rfl
  | or lhs rhs ihLeft ihRight =>
    rw [perform, eval, Performed.result_bind, ihLeft]
    refine congrArg (lhs.eval I m >>= ·) (funext fun a => ?_)
    split
    · rfl
    · rw [Performed.result_bind, ihRight]
      rfl

theorem result_performTest (e : Expr) : (e.performTest I m).result = e.test I m := by
  rw [performTest, test, Performed.result_bind, result_perform]
  rfl

/-! ### Tests of logical expressions -/

theorem performTest_not (operand : Expr) :
    (Expr.not operand).performTest I m = do return !(← operand.performTest I m) := by
  simp only [performTest, perform, bind_assoc, pure_bind, Interpretation.truth_ofBool]

theorem performTest_rel (op : RelOp) (lhs rhs : Expr) :
    (Expr.rel op lhs rhs).performTest I m = do
      let a ← lhs.perform I m
      let b ← rhs.perform I m
      return I.compare op a b := by
  simp only [performTest, perform, bind_assoc, pure_bind, Interpretation.truth_ofBool]

theorem performTest_and (lhs rhs : Expr) :
    (Expr.and lhs rhs).performTest I m = (do
      if ← lhs.performTest I m then rhs.performTest I m else return false) := by
  simp only [performTest, perform, bind_assoc, pure_bind]
  refine congrArg (lhs.perform I m >>= ·) (funext fun a => ?_)
  -- the value of the connective tests as the operand that has decided
  split <;> simp only [bind_assoc, pure_bind, Interpretation.truth_ofBool]

theorem performTest_or (lhs rhs : Expr) :
    (Expr.or lhs rhs).performTest I m = (do
      if ← lhs.performTest I m then return true else rhs.performTest I m) := by
  simp only [performTest, perform, bind_assoc, pure_bind]
  refine congrArg (lhs.perform I m >>= ·) (funext fun a => ?_)
  split <;> simp only [bind_assoc, pure_bind, Interpretation.truth_ofBool]

end Expr

end Evaluation

/-! ## Steps -/

section Machine

variable {Value Failure : Type} (I : Interpretation Value Failure)

/-- What an `Rvalue` takes where it is used, by an instruction or behind all of them. -/
def Rvalue.perform (m : Memory Value) (temps : Nat → Value) :
    Rvalue → Performed Value Failure Value
  | use o => pure (o.eval I m temps)
  | binary op l r => (Operation.arith op (l.eval I m temps) (r.eval I m temps)).perform I m
  | negate o => (Operation.negate (o.eval I m temps)).perform I m
  | index array offset => (Operation.load array (offset.eval I m temps)).perform I m

theorem Rvalue.result_perform (m : Memory Value) (temps : Nat → Value) (a : Rvalue) :
    (a.perform I m temps).result = a.eval I m temps := by
  cases a <;> rfl

/-- Each `Operation` in the instruction at which the machine stands. -/
def Config.operations (code : List Instruction) (c : Config Value) : List (Operation Value) :=
  match code[c.pc]? with
  | some (.assign _ value) => (value.perform I c.memory c.temps).operations
  | _ => []

theorem Config.operations_assign {code : List Instruction} {c : Config Value} {target : Operand}
    {value : Rvalue} (h : code[c.pc]? = some (.assign target value)) :
    c.operations I code = (value.perform I c.memory c.temps).operations := by
  rw [operations, h]

/-- Only assignments perform operations. -/
theorem Config.operations_eq_nil {code : List Instruction} {c : Config Value} {i : Instruction}
    (h : code[c.pc]? = some i) (hAssign : ∀ target value, i ≠ .assign target value) :
    c.operations I code = [] := by
  rw [operations, h]
  cases i with
  | assign target value => exact absurd rfl (hAssign target value)
  | _ => rfl

variable [DecidableEq Value] (code : List Instruction)

/-- Steps (`Config.move`) lead from one configuration to another and perform these operations, in
this order. -/
inductive Performs : List (Operation Value) → Config Value → Config Value → Prop
  | refl {c : Config Value} : Performs [] c c
  | step {operations : List (Operation Value)} {c c₁ c' : Config Value}
      (hMove : c.move I code = .next c₁) (hRest : Performs operations c₁ c') :
      Performs (c.operations I code ++ operations) c c'

/-- Steps that perform no `Operation` lead to a configuration of this kind. -/
def Passes (c : Config Value) (P : Config Value → Prop) : Prop :=
  ∃ c', Performs I code [] c c' ∧ P c'

end Machine

section Runs

variable {Value Failure : Type} [DecidableEq Value] {I : Interpretation Value Failure}
  {code : List Instruction} {c c₁ c' : Config Value} {P Q : Config Value → Prop}
  {operations operations' : List (Operation Value)}

namespace Performs

theorem trans (h : Performs I code operations c c₁) (h' : Performs I code operations' c₁ c') :
    Performs I code (operations ++ operations') c c' := by
  induction h with
  | refl => exact h'
  | step hMove _ ih =>
    rw [List.append_assoc]
    exact .step hMove (ih h')

theorem steps (h : Performs I code operations c c') : ∃ n, Steps I code n c c' := by
  induction h with
  | refl => exact ⟨0, .refl⟩
  | step hMove _ ih =>
    obtain ⟨n, hSteps⟩ := ih
    exact ⟨n + 1, .step hMove hSteps⟩

/-- Where the machine goes no further (`Config.Final`), its operations have been these and no
others. -/
theorem final_unique (h : Performs I code operations c c₁) (hFinal : c₁.Final I code)
    (h' : Performs I code operations' c c') (hFinal' : c'.Final I code) :
    operations = operations' ∧ c₁ = c' := by
  induction h generalizing operations' with
  | refl =>
    cases h' with
    | refl => exact ⟨rfl, rfl⟩
    | step hMove _ => exact absurd hMove (hFinal _)
  | step hMove _ ih =>
    cases h' with
    | refl => exact absurd hMove (hFinal' _)
    | step hMove' hRest =>
      -- both runs make the same first step
      cases hMove.symm.trans hMove'
      obtain ⟨rfl, rfl⟩ := ih hFinal hRest
      exact ⟨rfl, rfl⟩

end Performs

namespace Passes

theorem refl (h : P c) : Passes I code c P := ⟨c, .refl, h⟩

theorem step (hMove : c.move I code = .next c₁) (hNone : c.operations I code = [])
    (h : Passes I code c₁ P) : Passes I code c P := by
  obtain ⟨c', hPerforms, hP⟩ := h
  have hSteps := Performs.step hMove hPerforms
  rw [hNone] at hSteps
  exact ⟨c', hSteps, hP⟩

theorem bind (h : Passes I code c P) (hNext : ∀ c', P c' → Passes I code c' Q) :
    Passes I code c Q := by
  obtain ⟨c₁, hFirst, hP⟩ := h
  obtain ⟨c', hSecond, hQ⟩ := hNext c₁ hP
  exact ⟨c', hFirst.trans hSecond, hQ⟩

theorem mono (h : Passes I code c P) (hPQ : ∀ c', P c' → Q c') : Passes I code c Q :=
  h.bind fun c' hP => .refl (hPQ c' hP)

end Passes

end Runs

end JumpCode
