import JumpCode.Proofs.Code.ExprInduction
import JumpCode.Proofs.Simulation.Placement

/-!
# JumpCode — what code for expressions does

The code of an expression computes its value, or goes to the target that its truth decides. It
changes nothing but temporaries that it has reserved itself, so an operand that has been computed
keeps its value while others are. And it performs the operations of the expression, each in its
turn and none besides.

Targets need no place for that: a piece of code has done its part when a jump to one of them is
pending. Only where a label is marked within the piece does the jump go on.

* `Expr.carried` — the code of every expression, with its operations;
* `Expr.simulated` — what it comes to where both targets can be jumped to.
-/

namespace JumpCode

open Emission

section

variable {Value Failure : Type} {I : Interpretation Value Failure} {s s' : Supply}
  {c c₁ c' : Config Value}

/-! ## What stays -/

/-- The `Memory` has not changed, nor any temporary that has been reserved from the `Supply`. -/
structure Supply.Keeps (s : Supply) (c c' : Config Value) : Prop where
  memory : c'.memory = c.memory
  temps : ∀ n, n ≤ s.temps → c'.temps n = c.temps n

namespace Supply.Keeps

theorem refl (s : Supply) (c : Config Value) : s.Keeps c c := ⟨rfl, fun _ _ => rfl⟩

theorem trans (h : s.Keeps c c₁) (h' : s'.Keeps c₁ c') (hLe : s.temps ≤ s'.temps) :
    s.Keeps c c' where
  memory := h'.memory.trans h.memory
  temps n hn := (h'.temps n (Nat.le_trans hn hLe)).trans (h.temps n hn)

/-- The place does not matter. -/
theorem go (h : s.Keeps c c') (k : Nat) : s.Keeps c { c' with pc := k } := ⟨h.memory, h.temps⟩

/-- A temporary that has been reserved later may be assigned. -/
theorem assign (h : s.Keeps c c') {n : Nat} (hNew : s.temps < n) (v : Value) :
    s.Keeps c (c'.assign (.temp n) v).skip where
  memory := h.memory
  temps k hk := by
    -- temporaries that have been reserved are numbered below the new one
    have hNe : k ≠ n := by omega
    show (if k = n then v else c'.temps k) = c.temps k
    rw [if_neg hNe]
    exact h.temps k hk

end Supply.Keeps

/-- An `Operand` has a value, and keeps it along with what has been reserved (`Supply.Keeps`). -/
def Operand.Holds (I : Interpretation Value Failure) (s : Supply) (c : Config Value) (o : Operand)
    (v : Value) : Prop :=
  ∀ c', s.Keeps c c' → o.eval I c'.memory c'.temps = v

/-- The operator of an `Rvalue` comes to this, and keeps to it along with what has been reserved
(`Supply.Keeps`). -/
def Rvalue.Holds (I : Interpretation Value Failure) (s : Supply) (c : Config Value) (a : Rvalue)
    (r : Except Failure Value) : Prop :=
  ∀ c', s.Keeps c c' → a.eval I c'.memory c'.temps = r

/-- An `Rvalue` is what is left of a computation, and stays that along with what has been reserved
(`Supply.Keeps`). -/
def Rvalue.Remains (I : Interpretation Value Failure) (s : Supply) (c : Config Value) (a : Rvalue)
    (last : Performed Value Failure Value) : Prop :=
  ∀ c', s.Keeps c c' → a.perform I c'.memory c'.temps = last

theorem Operand.Holds.keep {o : Operand} {v : Value} (h : o.Holds I s c v) (hKeeps : s.Keeps c c')
    (hLe : s.temps ≤ s'.temps) : o.Holds I s' c' v := fun c'' hKeeps' =>
  h c'' (hKeeps.trans hKeeps' hLe)

/-! ## Targets -/

/-- Where a `Target` is: at its label (`Label.At`), or behind the piece of code. -/
def Target.At (whole : List Instruction) (behind : Nat) (k : Nat) : Target → Prop
  | .label l => l.At whole k
  | .fall => k = behind

/-- A `Target` can be jumped to: its label is marked, if it has one. -/
def Target.Within (whole : List Instruction) (t : Target) : Prop :=
  ∀ l, t = .label l → l.Marked whole

theorem Target.within_fall {whole : List Instruction} : Target.fall.Within whole :=
  fun _ h => by cases h

theorem Target.within_label {whole : List Instruction} {l : Label} (h : l.Marked whole) :
    (Target.label l).Within whole := fun _ hSame => Target.label.inj hSame ▸ h

/-- Control is handed over to a `Target`: a jump to its label is pending (`Config.pending?`), or the
piece of code has come to its end. -/
def Target.Taken (I : Interpretation Value Failure) (whole : List Instruction) (behind : Nat)
    (c : Config Value) : Target → Prop
  | .label l => c.pending? I whole = some l
  | .fall => c.pc = behind

/-- What `goto` emits hands control over to its target. -/
theorem Target.taken_goto {whole : List Instruction} {t : Target}
    (hAt : CodeAt whole c.pc ((goto t).run s).code) :
    t.Taken I whole (c.pc + ((goto t).run s).code.length) c := by
  cases t with
  | fall => rfl
  | label l => exact Config.pending_jump hAt.head

/-! ## Values of logical expressions -/

/-- A logical expression (`Expr.isLogical`) has a truth value, that of its test. -/
theorem Expr.perform_eq_test {e : Expr} (h : e.isLogical = true) (m : Memory Value) :
    e.perform I m = do return I.bool (← e.performTest I m) := by
  -- the value of a connective is built from the truth of its operands alone
  cases e with
  | not operand =>
    simp only [performTest, perform, bind_assoc, pure_bind, Interpretation.truth_ofBool]
  | rel op lhs rhs => simp only [performTest_rel, perform, bind_assoc, pure_bind]
  | and lhs rhs =>
    simp only [performTest, perform, bind_assoc, pure_bind]
    refine congrArg (lhs.perform I m >>= ·) (funext fun a => ?_)
    split <;> simp only [bind_assoc, pure_bind, Interpretation.truth_ofBool]
  | or lhs rhs =>
    simp only [performTest, perform, bind_assoc, pure_bind]
    refine congrArg (lhs.perform I m >>= ·) (funext fun a => ?_)
    split <;> simp only [bind_assoc, pure_bind, Interpretation.truth_ofBool]
  | _ => cases h

/-! ## Pairs of expressions -/

/-- The values of two expressions, from left to right, or the failure (`Expr.eval`) of the first
that fails. -/
def Expr.evalPair (I : Interpretation Value Failure) (m : Memory Value) (lhs rhs : Expr) :
    Except Failure (Value × Value) := do
  let a ← lhs.eval I m
  let b ← rhs.eval I m
  return (a, b)

/-- The evaluation of two expressions (`Expr.perform`), from left to right. -/
def Expr.performPair (I : Interpretation Value Failure) (m : Memory Value) (lhs rhs : Expr) :
    Performed Value Failure (Value × Value) := do
  let a ← lhs.perform I m
  let b ← rhs.perform I m
  return (a, b)

theorem Expr.result_performPair (m : Memory Value) (lhs rhs : Expr) :
    (lhs.performPair I m rhs).result = lhs.evalPair I m rhs := by
  rw [performPair, evalPair, Performed.result_bind, result_perform]
  refine congrArg (lhs.eval I m >>= ·) (funext fun a => ?_)
  rw [Performed.result_bind, result_perform]
  rfl

/-! ## Code for expressions -/

section Code

variable [DecidableEq Value] (I) (whole : List Instruction)

/-- Code that brings the value of an expression into an operand: from wherever it is placed it
`Computes` the value, runs off its end, and the operand holds the value then. -/
def SimOperand (e : Expr) (o : Emission Operand) : Prop :=
  ∀ s, s.temps ≤ (o.run s).supply.temps ∧ ∀ c, CodeAt whole c.pc (o.run s).code →
    Computes I whole c (e.eval I c.memory) fun v c' =>
      c'.pc = c.pc + (o.run s).code.length ∧ s.Keeps c c' ∧
        (o.run s).value.Holds I (o.run s).supply c' v

/-- Code for the value of an expression. It leaves the last operator to be applied (`Rvalue.Holds`),
and may fail before. -/
def SimValue (e : Expr) (a : Emission Rvalue) : Prop :=
  ∀ s, s.temps ≤ (a.run s).supply.temps ∧ ∀ c, CodeAt whole c.pc (a.run s).code →
    ∃ r, e.eval I c.memory = r >>= id ∧ Computes I whole c r fun last c' =>
      c'.pc = c.pc + (a.run s).code.length ∧ s.Keeps c c' ∧
        (a.run s).value.Holds I (a.run s).supply c' last

/-- Code that goes to a target if an expression is true and to another if not, when both are
`Target.Within` the whole code. -/
def SimJumps (e : Expr) (j : Target → Target → Emission Unit) : Prop :=
  ∀ onTrue onFalse s, s.temps ≤ ((j onTrue onFalse).run s).supply.temps ∧
    ∀ c, CodeAt whole c.pc ((j onTrue onFalse).run s).code → onTrue.Within whole →
      onFalse.Within whole → Computes I whole c (e.test I c.memory) fun b c' =>
        (if b then onTrue else onFalse).At whole
          (c.pc + ((j onTrue onFalse).run s).code.length) c'.pc ∧ s.Keeps c c'

/-- Code that evaluates an expression and leaves its value in an operand: it `Carries` what
`Expr.perform` says. -/
def CarriesOperand (e : Expr) (o : Emission Operand) : Prop :=
  ∀ s, s.temps ≤ (o.run s).supply.temps ∧ ∀ c, CodeAt whole c.pc (o.run s).code →
    Carries I whole c (e.perform I c.memory) fun v c' =>
      c'.pc = c.pc + (o.run s).code.length ∧ s.Keeps c c' ∧
        (o.run s).value.Holds I (o.run s).supply c' v

/-- Code that evaluates an expression up to its last operation, which is what `Rvalue.Remains`. -/
def CarriesValue (e : Expr) (a : Emission Rvalue) : Prop :=
  ∀ s, s.temps ≤ (a.run s).supply.temps ∧ ∀ c, CodeAt whole c.pc (a.run s).code →
    ∃ p, e.perform I c.memory = p >>= id ∧ Carries I whole c p fun last c' =>
      c'.pc = c.pc + (a.run s).code.length ∧ s.Keeps c c' ∧
        (a.run s).value.Remains I (a.run s).supply c' last

/-- Code that evaluates an expression and hands control over (`Target.Taken`) to a target if it is
true and to another if not. -/
def CarriesJumps (e : Expr) (j : Target → Target → Emission Unit) : Prop :=
  ∀ onTrue onFalse s, s.temps ≤ ((j onTrue onFalse).run s).supply.temps ∧
    ∀ c, CodeAt whole c.pc ((j onTrue onFalse).run s).code →
      Carries I whole c (e.performTest I c.memory) fun b c' =>
        (if b then onTrue else onFalse).Taken I whole
          (c.pc + ((j onTrue onFalse).run s).code.length) c' ∧ s.Keeps c c'

end Code

section Rules

variable [DecidableEq Value] {whole : List Instruction}

/-! ### Operands -/

theorem supply_jumpsOnTest (test : Test) (onTrue onFalse : Target) :
    ((jumpsOnTest test onTrue onFalse).run s).supply = s := by
  cases onTrue <;> cases onFalse <;> rfl

theorem run_reduced_use {a : Emission Rvalue} {o : Operand} (h : (a.run s).value = .use o) :
    (reduced a).run s = ⟨o, (a.run s).supply, (a.run s).code⟩ := by
  rw [reduced, run_bind, h, run_pure, List.append_nil]

theorem run_reduced {a : Emission Rvalue} (h : ∀ o, (a.run s).value ≠ .use o) :
    (reduced a).run s = ⟨.temp ((a.run s).supply.temps + 1),
      ⟨(a.run s).supply.labels, (a.run s).supply.temps + 1⟩,
      (a.run s).code ++ [.assign (.temp ((a.run s).supply.temps + 1)) (a.run s).value]⟩ := by
  rw [reduced, run_bind]
  cases hValue : (a.run s).value with
  | use o => exact absurd hValue (h o)
  | _ => rfl

theorem carries_reduced {e : Expr} {a : Emission Rvalue} (h : CarriesValue I whole e a) :
    CarriesOperand I whole e (reduced a) := by
  intro s
  obtain ⟨hLe, hCode⟩ := h s
  by_cases hUse : ∃ o, (a.run s).value = .use o
  · obtain ⟨o, hUse⟩ := hUse
    rw [run_reduced_use hUse]
    refine ⟨hLe, fun c hAt => ?_⟩
    obtain ⟨p, hPerform, hCarries⟩ := hCode c hAt
    rw [hPerform]
    refine hCarries.bind ?_
    intro last c' hArrived
    obtain ⟨hPc, hKeeps, hRemains⟩ := hArrived
    refine ⟨hKeeps.memory, ?_⟩
    rw [hUse] at hRemains
    -- nothing is left of the computation but the value of the operand
    have hLast : pure (o.eval I c'.memory c'.temps) = last := hRemains c' (.refl _ c')
    subst hLast
    refine .pure ⟨hPc, hKeeps, ?_⟩
    intro c'' hKeeps'
    exact Except.ok.inj (congrArg Performed.result (hRemains c'' hKeeps'))
  -- any other value is assigned to a temporary, which performs what is left
  · rw [run_reduced fun o hValue => hUse ⟨o, hValue⟩]
    refine ⟨Nat.le_succ_of_le hLe, fun c hAt => ?_⟩
    obtain ⟨p, hPerform, hCarries⟩ := hCode c hAt.left
    rw [hPerform]
    refine hCarries.bind ?_
    intro last c' hArrived
    obtain ⟨hPc, hKeeps, hRemains⟩ := hArrived
    refine ⟨hKeeps.memory, ?_⟩
    have hAssign := Carries.assign (I := I) (hAt.right hPc).head
    rw [hRemains c' (.refl _ c')] at hAssign
    refine hAssign.mono ?_
    rintro v _ rfl
    refine ⟨?_, hKeeps.assign (Nat.lt_succ_of_le hLe) v, ?_⟩
    · show c'.pc + 1 = _
      rw [hPc, List.length_append, List.length_singleton, Nat.add_assoc]
    · intro c'' hKeeps'
      exact (hKeeps'.temps _ (Nat.le_refl _)).trans (if_pos rfl)

/-! ### Values -/

theorem carries_const (k : Constant) :
    CarriesValue I whole (.const k) (pure (.use (.const k))) := by
  intro s
  refine ⟨Nat.le_refl _, fun c _ => ⟨pure (pure (I.constant k)), rfl, .pure ⟨rfl, .refl s c, ?_⟩⟩⟩
  exact fun _ _ => rfl

theorem carries_var (x : Symbol) : CarriesValue I whole (.var x) (pure (.use (.var x))) := by
  intro s
  refine ⟨Nat.le_refl _, fun c _ => ⟨pure (pure (c.memory.vars x)), rfl,
    .pure ⟨rfl, .refl s c, ?_⟩⟩⟩
  intro c' hKeeps
  show pure (c'.memory.vars x) = _
  rw [hKeeps.memory]

theorem carries_access {index : Expr} {i : Emission Operand} (array : Symbol) (type : Ty)
    (h : CarriesOperand I whole index i) :
    CarriesValue I whole (.access array index type) (do return .index array (← i)) := by
  intro s
  obtain ⟨hLe, hCode⟩ := h s
  simp only [run_bind, run_pure, List.append_nil]
  refine ⟨hLe, fun c hAt => ⟨do
    return (Operation.load array (← index.perform I c.memory)).perform I c.memory, ?_, ?_⟩⟩
  · simp only [Expr.perform, bind_assoc, pure_bind, id]
  -- the element is read where the value is used, still in the same memory
  · refine (hCode c hAt).map ?_
    intro v c' hArrived
    obtain ⟨hPc, hKeeps, hHolds⟩ := hArrived
    refine ⟨hPc, hKeeps, fun c'' hKeeps' => ?_⟩
    rw [Rvalue.perform, hHolds c'' hKeeps', hKeeps'.memory, hKeeps.memory]

theorem carries_neg {operand : Expr} {o : Emission Operand} (type : Ty)
    (h : CarriesOperand I whole operand o) :
    CarriesValue I whole (.neg operand type) (do return .negate (← o)) := by
  intro s
  obtain ⟨hLe, hCode⟩ := h s
  simp only [run_bind, run_pure, List.append_nil]
  refine ⟨hLe, fun c hAt => ⟨do
    return (Operation.negate (← operand.perform I c.memory)).perform I c.memory, ?_, ?_⟩⟩
  · simp only [Expr.perform, bind_assoc, pure_bind, id]
  · refine (hCode c hAt).map ?_
    intro v c' hArrived
    obtain ⟨hPc, hKeeps, hHolds⟩ := hArrived
    refine ⟨hPc, hKeeps, fun c'' hKeeps' => ?_⟩
    rw [Rvalue.perform, hHolds c'' hKeeps']
    rfl

/-- Two operands in a row: the first one keeps its value (`Operand.Holds`) while the second one is
computed, since this reserves temporaries of its own. -/
theorem carries_pair {lhs rhs : Expr} {l r : Emission Operand}
    (hLeft : CarriesOperand I whole lhs l) (hRight : CarriesOperand I whole rhs r) (s : Supply) :
    s.temps ≤ (r.run (l.run s).supply).supply.temps ∧
      ∀ c, CodeAt whole c.pc ((l.run s).code ++ (r.run (l.run s).supply).code) →
        Carries I whole c (lhs.performPair I c.memory rhs) fun p c' =>
          c'.pc = c.pc + ((l.run s).code ++ (r.run (l.run s).supply).code).length ∧
            s.Keeps c c' ∧ (l.run s).value.Holds I (r.run (l.run s).supply).supply c' p.1 ∧
            (r.run (l.run s).supply).value.Holds I (r.run (l.run s).supply).supply c' p.2 := by
  obtain ⟨hLe, hCode⟩ := hLeft s
  obtain ⟨hLe', hCode'⟩ := hRight (l.run s).supply
  refine ⟨Nat.le_trans hLe hLe', fun c hAt => ?_⟩
  refine (hCode c hAt.left).bind ?_
  intro a c₁ hArrived
  obtain ⟨hPc, hKeeps, hHolds⟩ := hArrived
  refine ⟨hKeeps.memory, ?_⟩
  -- the first operand has not changed the memory that the second one is evaluated in
  have hSecond := hCode' c₁ (hAt.right hPc)
  rw [hKeeps.memory] at hSecond
  refine hSecond.map ?_
  intro b c' hArrived
  obtain ⟨hPc', hKeeps', hHolds'⟩ := hArrived
  -- the second operand touches only temporaries behind those of the first
  refine ⟨?_, ?_, ?_, hHolds'⟩
  · rw [hPc', hPc, List.length_append, Nat.add_assoc]
  · exact hKeeps.trans hKeeps' hLe
  · exact hHolds.keep hKeeps' hLe'

theorem carries_arith {lhs rhs : Expr} {l r : Emission Operand} (op : ArithOp) (type : Ty)
    (hLeft : CarriesOperand I whole lhs l) (hRight : CarriesOperand I whole rhs r) :
    CarriesValue I whole (.arith op lhs rhs type) (do
      let l ← l
      let r ← r
      return .binary op l r) := by
  intro s
  obtain ⟨hLe, hCode⟩ := carries_pair hLeft hRight s
  simp only [run_bind, run_pure, List.append_nil]
  refine ⟨hLe, fun c hAt => ⟨do
    let p ← lhs.performPair I c.memory rhs
    return (Operation.arith op p.1 p.2).perform I c.memory, ?_, ?_⟩⟩
  · simp only [Expr.perform, Expr.performPair, bind_assoc, pure_bind, id]
  · refine (hCode c hAt).map ?_
    intro p c' hArrived
    obtain ⟨hPc, hKeeps, hHolds, hHolds'⟩ := hArrived
    refine ⟨hPc, hKeeps, fun c'' hKeeps' => ?_⟩
    rw [Rvalue.perform, hHolds c'' hKeeps', hHolds' c'' hKeeps']
    rfl

/-! ### Jumps -/

/-- A branch is about to jump if the test comes out as wanted, and is passed if not. -/
theorem passes_branch {test : Test} {b polarity : Bool} {l : Label}
    (hBranch : whole[c.pc]? = some (.branch test polarity l))
    (hTest : test.eval I c.memory c.temps = b) (s : Supply) :
    Passes I whole c fun c' =>
      (if b = polarity then Target.label l else .fall).Taken I whole (c.pc + 1) c' ∧
        s.Keeps c c' := by
  by_cases hTaken : b = polarity
  · rw [if_pos hTaken]
    exact .refl ⟨Config.pending_branch hBranch (hTest.trans hTaken), .refl s c⟩
  · rw [if_neg hTaken]
    -- a branch that is not taken is a step to what stands behind it
    have hNe : test.eval I c.memory c.temps ≠ polarity := fun h => hTaken (hTest.symm.trans h)
    refine .step (Config.move_branch_ne hBranch hNe) ?_ (.refl ⟨rfl, ⟨rfl, fun _ _ => rfl⟩⟩)
    exact Config.operations_eq_nil I hBranch fun _ _ hSame => by cases hSame

/-- What `jumpsOnTest` emits goes where the test says. -/
theorem passes_jumpsOnTest {test : Test} {b : Bool} {onTrue onFalse : Target}
    (hTest : test.eval I c.memory c.temps = b)
    (hAt : CodeAt whole c.pc ((jumpsOnTest test onTrue onFalse).run s).code) :
    Passes I whole c fun c' => (if b then onTrue else onFalse).Taken I whole
      (c.pc + ((jumpsOnTest test onTrue onFalse).run s).code.length) c' ∧ s.Keeps c c' := by
  cases onTrue with
  | fall =>
    cases onFalse with
    | fall =>
      -- nothing depends on the test
      refine .refl ⟨?_, .refl s c⟩
      cases b <;> rfl
    | label l =>
      refine (passes_branch hAt.head hTest s).mono ?_
      rintro c' ⟨hTaken, hKeeps⟩
      cases b <;> exact ⟨hTaken, hKeeps⟩
  | label l =>
    cases onFalse with
    | fall =>
      refine (passes_branch hAt.head hTest s).mono ?_
      rintro c' ⟨hTaken, hKeeps⟩
      cases b <;> exact ⟨hTaken, hKeeps⟩
    | label l' =>
      -- with two labels, a jump stands behind the branch
      refine (passes_branch hAt.head hTest s).mono ?_
      rintro c₁ ⟨hTaken, hKeeps⟩
      cases b with
      | true => exact ⟨hTaken, hKeeps⟩
      | false =>
        have hPc : c₁.pc = c.pc + 1 := hTaken
        exact ⟨Config.pending_jump (hPc ▸ hAt.tail.head), hKeeps⟩

theorem carries_truth (b : Bool) :
    CarriesJumps I whole (.const (.bool b)) fun onTrue onFalse =>
      goto (if b then onTrue else onFalse) := by
  intro onTrue onFalse s
  have hTest : ∀ m, (Expr.const (.bool b)).performTest I m = pure b := fun _ =>
    congrArg pure (I.truth_bool b)
  refine ⟨by cases b <;> cases onTrue <;> cases onFalse <;> exact Nat.le_refl _, ?_⟩
  intro c hAt
  rw [hTest]
  exact .pure ⟨Target.taken_goto hAt, .refl s c⟩

theorem carries_jumpsOnValue {e : Expr} {o : Emission Operand}
    (h : CarriesOperand I whole e o) : CarriesJumps I whole e (jumpsOnValue o) := by
  intro onTrue onFalse s
  obtain ⟨hLe, hCode⟩ := h s
  rw [jumpsOnValue, run_bind, supply_jumpsOnTest]
  refine ⟨hLe, fun c hAt => ?_⟩
  refine (hCode c hAt.left).bind ?_
  intro v c₁ hArrived
  obtain ⟨hPc, hKeeps, hHolds⟩ := hArrived
  have hTest : (Test.truth (o.run s).value).eval I c₁.memory c₁.temps = I.truth v :=
    congrArg I.truth (hHolds c₁ (.refl _ c₁))
  refine ⟨hKeeps.memory, .passes ((passes_jumpsOnTest hTest (hAt.right hPc)).mono ?_)⟩
  rintro c' ⟨hTaken, hKeeps'⟩
  rw [List.length_append, ← Nat.add_assoc, ← hPc]
  exact ⟨hTaken, hKeeps.trans hKeeps' hLe⟩

theorem carries_not {operand : Expr} {j : Target → Target → Emission Unit}
    (h : CarriesJumps I whole operand j) :
    CarriesJumps I whole (.not operand) fun onTrue onFalse => j onFalse onTrue := by
  intro onTrue onFalse s
  obtain ⟨hLe, hCode⟩ := h onFalse onTrue s
  refine ⟨hLe, fun c hAt => ?_⟩
  rw [Expr.performTest_not]
  refine (hCode c hAt).map ?_
  rintro b c' ⟨hTaken, hKeeps⟩
  cases b <;> exact ⟨hTaken, hKeeps⟩

theorem carries_rel {lhs rhs : Expr} {l r : Emission Operand} (op : RelOp)
    (hLeft : CarriesOperand I whole lhs l) (hRight : CarriesOperand I whole rhs r) :
    CarriesJumps I whole (.rel op lhs rhs) (jumpsOnRelation op l r) := by
  intro onTrue onFalse s
  obtain ⟨hLe, hCode⟩ := carries_pair hLeft hRight s
  rw [jumpsOnRelation, run_bind, run_bind, supply_jumpsOnTest, ← List.append_assoc]
  refine ⟨hLe, fun c hAt => ?_⟩
  -- the relation applies to the values of both operands, as a pair
  have hPerform : (Expr.rel op lhs rhs).performTest I c.memory = (do
      let p ← lhs.performPair I c.memory rhs
      return I.compare op p.1 p.2) := by
    simp only [Expr.performTest_rel, Expr.performPair, bind_assoc, pure_bind]
  rw [hPerform]
  refine (hCode c hAt.left).bind ?_
  intro p c₁ hArrived
  obtain ⟨hPc, hKeeps, hHolds, hHolds'⟩ := hArrived
  have hTest : (Test.compare op (l.run s).value (r.run (l.run s).supply).value).eval I c₁.memory
      c₁.temps = I.compare op p.1 p.2 := by
    rw [Test.eval, hHolds c₁ (.refl _ c₁), hHolds' c₁ (.refl _ c₁)]
  refine ⟨hKeeps.memory, .passes ((passes_jumpsOnTest hTest (hAt.right hPc)).mono ?_)⟩
  rintro c' ⟨hTaken, hKeeps'⟩
  rw [List.length_append, ← Nat.add_assoc, ← hPc]
  exact ⟨hTaken, hKeeps.trans hKeeps' hLe⟩

/-! ### Connectives -/

/-- A label that is marked behind a piece of code is passed over, and what is `Target.Taken` stays
so. -/
theorem Target.Taken.pass {t : Target} {k : Nat} {l : Label} (h : t.Taken I whole k c)
    (hMark : l.At whole k) :
    Passes I whole c fun c' => t.Taken I whole (k + 1) c' ∧ s.Keeps c c' := by
  cases t with
  | label l' => exact .refl ⟨h, .refl s c⟩
  | fall =>
    have hHere : l.At whole c.pc := Eq.substr h hMark
    refine .step (Config.move_label hHere) ?_
      (.refl ⟨congrArg (· + 1) h, (Supply.Keeps.refl s c).go _⟩)
    exact Config.operations_eq_nil I hHere fun _ _ hSame => by cases hSame

/-- One condition behind another, which jumps past it where it decides. This is what `jumpsOnBoth`
and `jumpsOnEither` have in common. -/
theorem carries_row {lhs rhs : Expr} {l r : Target → Target → Emission Unit}
    (hLeft : CarriesJumps I whole lhs l) (hRight : CarriesJumps I whole rhs r) (f : Label)
    (onTrue onFalse : Target) (s : Supply) :
    let first := (l .fall (.label f)).run s
    let second := (r onTrue onFalse).run first.supply
    s.temps ≤ second.supply.temps ∧ ∀ c, CodeAt whole c.pc (first.code ++ second.code) →
      Carries I whole c ((Expr.and lhs rhs).performTest I c.memory) fun b c' =>
        ((if b then onTrue else onFalse).Taken I whole
          (c.pc + (first.code ++ second.code).length) c' ∨
            b = false ∧ c'.pending? I whole = some f) ∧ s.Keeps c c' := by
  obtain ⟨hLe, hCode⟩ := hLeft .fall (.label f) s
  obtain ⟨hLe', hCode'⟩ := hRight onTrue onFalse ((l .fall (.label f)).run s).supply
  refine ⟨Nat.le_trans hLe hLe', fun c hAt => ?_⟩
  rw [Expr.performTest_and]
  refine (hCode c hAt.left).bind ?_
  rintro b c₁ ⟨hTaken, hKeeps⟩
  refine ⟨hKeeps.memory, ?_⟩
  cases b with
  -- the first condition has decided, and the second one is jumped over
  | false => exact .pure ⟨.inr ⟨rfl, hTaken⟩, hKeeps⟩
  | true =>
    have hPc : c₁.pc = c.pc + ((l .fall (.label f)).run s).code.length := hTaken
    have hSecond := hCode' c₁ (hAt.right hPc)
    rw [hKeeps.memory] at hSecond
    refine hSecond.mono ?_
    rintro b' c' ⟨hTaken', hKeeps'⟩
    rw [List.length_append, ← Nat.add_assoc, ← hPc]
    exact ⟨.inl hTaken', hKeeps.trans hKeeps' hLe⟩

theorem carries_both (hOnce : MarksOnce whole) {lhs rhs : Expr}
    {l r : Target → Target → Emission Unit} (hLeft : CarriesJumps I whole lhs l)
    (hRight : CarriesJumps I whole rhs r) :
    CarriesJumps I whole (.and lhs rhs) (jumpsOnBoth l r) := by
  intro onTrue onFalse s
  cases onFalse with
  | label f =>
    -- both conditions fail to the same label
    obtain ⟨hLe, hCode⟩ := carries_row hLeft hRight f onTrue (.label f) s
    refine ⟨hLe, fun c hAt => ?_⟩
    refine (hCode c hAt).mono ?_
    rintro b c' ⟨hTaken | ⟨rfl, hTaken⟩, hKeeps⟩
    · exact ⟨hTaken, hKeeps⟩
    · exact ⟨hTaken, hKeeps⟩
  | fall =>
    let f : Label := ⟨s.labels + 1⟩
    let s₁ : Supply := ⟨s.labels + 1, s.temps⟩
    let first := (l .fall (.label f)).run s₁
    let second := (r onTrue .fall).run first.supply
    obtain ⟨hLe, hCode⟩ := carries_row hLeft hRight f onTrue .fall s₁
    have hRun : ((jumpsOnBoth l r onTrue .fall).run s).code =
        (first.code ++ second.code) ++ [.label f] := by
      rw [List.append_assoc]
      rfl
    refine ⟨hLe, fun c hAt => ?_⟩
    rw [hRun] at hAt ⊢
    -- the label behind the code stands for falling on
    have hMark : f.At whole (c.pc + (first.code ++ second.code).length) := (hAt.right rfl).head
    refine (hCode c hAt.left).andThen ?_
    rintro b c₁ ⟨hTaken, hKeeps⟩
    have hBehind : Passes I whole c₁ fun c' => (if b then onTrue else Target.fall).Taken I whole
        (c.pc + (first.code ++ second.code).length) c' ∧ s.Keeps c₁ c' := by
      rcases hTaken with hTaken | ⟨rfl, hPending⟩
      · exact .refl ⟨hTaken, .refl s c₁⟩
      · exact hOnce.passes_pending hPending hMark ⟨rfl, (Supply.Keeps.refl s c₁).go _⟩
    refine hBehind.bind ?_
    rintro c₂ ⟨hTaken', hSame⟩
    refine (hTaken'.pass (s := s) hMark).mono ?_
    rintro c' ⟨hTaken'', hSame'⟩
    rw [List.length_append, List.length_singleton, ← Nat.add_assoc]
    have hStart : s.Keeps c c₁ := ⟨hKeeps.memory, hKeeps.temps⟩
    exact ⟨hTaken'', (hStart.trans hSame (Nat.le_refl _)).trans hSame' (Nat.le_refl _)⟩

/-- One of two conditions holds unless both of them fail to: `jumpsOnEither` is `jumpsOnBoth` the
other way around. -/
theorem carries_either (hOnce : MarksOnce whole) {lhs rhs : Expr}
    {l r : Target → Target → Emission Unit} (hLeft : CarriesJumps I whole lhs l)
    (hRight : CarriesJumps I whole rhs r) :
    CarriesJumps I whole (.or lhs rhs) (jumpsOnEither l r) := by
  -- by duality: the code is that of a conjunction with all targets exchanged
  have hDual := carries_not (carries_both hOnce (carries_not hLeft) (carries_not hRight))
  intro onTrue onFalse s
  have hRun : jumpsOnEither l r onTrue onFalse =
      jumpsOnBoth (fun onTrue onFalse => l onFalse onTrue)
        (fun onTrue onFalse => r onFalse onTrue) onFalse onTrue := by
    cases onTrue <;> rfl
  have hTest : ∀ m, (Expr.or lhs rhs).performTest I m =
      (Expr.not (.and (.not lhs) (.not rhs))).performTest I m := by
    intro m
    simp only [Expr.performTest_or, Expr.performTest_not, Expr.performTest_and, bind_assoc,
      pure_bind]
    refine congrArg (lhs.performTest I m >>= ·) (funext fun a => ?_)
    cases a <;> simp
  rw [hRun]
  refine ⟨(hDual onTrue onFalse s).1, fun c hAt => ?_⟩
  rw [hTest]
  exact (hDual onTrue onFalse s).2 c hAt

/-! ### Truth values from jumps -/

theorem carries_materialize (hOnce : MarksOnce whole) {e : Expr}
    {j : Target → Target → Emission Unit} (hLogical : e.isLogical = true)
    (h : CarriesJumps I whole e j) : CarriesValue I whole e (materialize j) := by
  intro s
  let onFalse : Label := ⟨s.labels + 1⟩
  let after : Label := ⟨s.labels + 2⟩
  let temp : Operand := .temp (s.temps + 1)
  let s₁ : Supply := ⟨s.labels + 2, s.temps + 1⟩
  let jumps := (j .fall (.label onFalse)).run s₁
  let rest : List Instruction := [.assign temp (.use (.const (.bool true))), .jump after,
    .label onFalse, .assign temp (.use (.const (.bool false))), .label after]
  obtain ⟨hLe, hCode⟩ := h .fall (.label onFalse) s₁
  have hRun : (materialize j).run s = ⟨.use temp, jumps.supply, jumps.code ++ rest⟩ := rfl
  rw [hRun]
  refine ⟨Nat.le_of_succ_le hLe, fun c hAt =>
    ⟨do return Pure.pure (I.bool (← e.performTest I c.memory)), ?_, ?_⟩⟩
  · rw [Expr.perform_eq_test hLogical]
    simp only [bind_assoc, pure_bind, id]
  have hRest := hAt.right rfl
  have hOnFalse : onFalse.At whole (c.pc + jumps.code.length + 2) := hRest.tail.tail.head
  have hAfter : after.At whole (c.pc + jumps.code.length + 4) := hRest.tail.tail.tail.tail.head
  -- both ways meet at the last label, with the truth value in the temporary
  have hMeet : ∀ (b : Bool) (c₂ : Config Value), c₂.pc = c.pc + jumps.code.length + 4 →
      s.Keeps c c₂ → c₂.temps (s.temps + 1) = I.bool b → Passes I whole c₂ fun c' =>
        c'.pc = c.pc + (jumps.code ++ rest).length ∧ s.Keeps c c' ∧
          (Rvalue.use temp).Remains I jumps.supply c' (Pure.pure (I.bool b)) := by
    intro b c₂ hPc hKeeps hTemp
    have hLabel : after.At whole c₂.pc := hPc ▸ hAfter
    refine .step (Config.move_label hLabel) ?_ (.refl ⟨?_, hKeeps.go _, fun c' hKeeps' => ?_⟩)
    · exact Config.operations_eq_nil I hLabel fun _ _ hSame => by cases hSame
    · show c₂.pc + 1 = _
      rw [hPc, List.length_append, ← Nat.add_assoc]
      rfl
    · exact congrArg Pure.pure ((hKeeps'.temps _ hLe).trans hTemp)
  have hNew : s.temps < s.temps + 1 := Nat.lt_succ_self _
  have hJumps := hCode c hAt.left
  refine (hJumps.andThen ?_).map fun _ _ hTruth => hTruth
  rintro b c₁ ⟨hTaken, hKeeps⟩
  -- the temporary is reserved before the jumps, which leave it alone
  have hOld : s.Keeps c c₁ := ⟨hKeeps.memory, fun n hn => hKeeps.temps n (Nat.le_succ_of_le hn)⟩
  cases b with
  | true =>
    -- true: the jumps fall through to the assignment, behind which a jump leads to the last label
    have hPc : c₁.pc = c.pc + jumps.code.length := hTaken
    let c₂ := (c₁.assign temp (I.bool true)).skip
    have hHere : whole[c₁.pc]? = some (.assign temp (.use (.const (.bool true)))) :=
      hPc ▸ hRest.head
    have hJump : whole[c₂.pc]? = some (.jump after) := by
      show whole[c₁.pc + 1]? = _
      rw [hPc]
      exact hRest.tail.head
    refine .step (Config.move_assign hHere rfl) (Config.operations_assign I hHere) ?_
    refine (hOnce.passes_pending (c := c₂) (Config.pending_jump hJump) hAfter
      (P := fun c' => c' = { c₂ with pc := c.pc + jumps.code.length + 4 }) rfl).bind ?_
    rintro _ rfl
    exact hMeet true _ rfl ((hOld.assign hNew _).go _) (if_pos rfl)
  | false =>
    -- false: the jumps lead to the second assignment, which stands in front of the last label
    have hPending : c₁.pending? I whole = some onFalse := hTaken
    refine (hOnce.passes_pending hPending hOnFalse
      (P := fun c' => c' = { c₁ with pc := c.pc + jumps.code.length + 2 }) rfl).bind ?_
    rintro _ rfl
    refine .step (Config.move_label hOnFalse)
      (Config.operations_eq_nil I hOnFalse fun _ _ hSame => by cases hSame) ?_
    let c₂ : Config Value := { c₁ with pc := c.pc + jumps.code.length + 3 }
    have hHere : whole[c₂.pc]? = some (.assign temp (.use (.const (.bool false)))) :=
      hRest.tail.tail.tail.head
    have hAssign : c₂.move I whole = .next (c₂.assign temp (I.bool false)).skip :=
      Config.move_assign hHere rfl
    refine .step hAssign (Config.operations_assign I hHere) (hMeet false _ rfl ?_ (if_pos rfl))
    exact (hOld.go _).assign hNew _

/-! ### All expressions -/

/-- What the combinators of code do, as `Expr.CodeRules` asks for it: one rule for each form of an
expression. -/
theorem carries_rules (hOnce : MarksOnce whole) :
    Expr.CodeRules (CarriesValue I whole) (CarriesOperand I whole) (CarriesJumps I whole) where
  const := carries_const
  var := carries_var
  access array _ type _ h := carries_access array type h
  arith op _ _ type _ _ hLeft hRight := carries_arith op type hLeft hRight
  neg _ type _ h := carries_neg type h
  materialize _ _ hLogical _ h := carries_materialize hOnce hLogical h
  reduced _ _ h := carries_reduced h
  truth := carries_truth
  value _ _ _ h := carries_jumpsOnValue h
  not _ _ h := carries_not h
  rel op _ _ _ _ hLeft hRight := carries_rel op hLeft hRight
  and _ _ _ _ hLeft hRight := carries_both hOnce hLeft hRight
  or _ _ _ _ hLeft hRight := carries_either hOnce hLeft hRight

/-- **Code for expressions carries out their evaluation.** Wherever it stands in code that marks no
label twice, it performs the operations of the expression one by one, until one of them fails or
the value is there or control has been handed over to a target. -/
theorem Expr.carried (I : Interpretation Value Failure) (hOnce : MarksOnce whole) (e : Expr) :
    e.HasCode (CarriesValue I whole) (CarriesOperand I whole) (CarriesJumps I whole) :=
  e.emission_induction (carries_rules hOnce)

/-! ### Values and places -/

theorem CarriesOperand.sim {e : Expr} {o : Emission Operand} (h : CarriesOperand I whole e o) :
    SimOperand I whole e o := by
  intro s
  obtain ⟨hLe, hCode⟩ := h s
  refine ⟨hLe, fun c hAt => ?_⟩
  rw [← Expr.result_perform]
  exact (hCode c hAt).computes

theorem CarriesValue.sim {e : Expr} {a : Emission Rvalue} (h : CarriesValue I whole e a) :
    SimValue I whole e a := by
  intro s
  obtain ⟨hLe, hCode⟩ := h s
  refine ⟨hLe, fun c hAt => ?_⟩
  obtain ⟨p, hPerform, hCarries⟩ := hCode c hAt
  refine ⟨do return (← p.result).result, ?_, hCarries.computes.map ?_⟩
  · rw [← Expr.result_perform, hPerform, Performed.result_bind]
    cases p.result <;> rfl
  · rintro last c' ⟨hPc, hKeeps, hRemains⟩
    refine ⟨hPc, hKeeps, fun c'' hKeeps' => ?_⟩
    rw [← Rvalue.result_perform, hRemains c'' hKeeps']

/-- A jump that is pending is carried out where the label is marked (`Target.Within`). -/
theorem CarriesJumps.sim (hOnce : MarksOnce whole) {e : Expr}
    {j : Target → Target → Emission Unit} (h : CarriesJumps I whole e j) :
    SimJumps I whole e j := by
  intro onTrue onFalse s
  obtain ⟨hLe, hCode⟩ := h onTrue onFalse s
  refine ⟨hLe, fun c hAt hTrue hFalse => ?_⟩
  rw [← Expr.result_performTest]
  refine Carries.computes ((hCode c hAt).andThen ?_)
  rintro b c' ⟨hTaken, hKeeps⟩
  have hWithin : (if b then onTrue else onFalse).Within whole := by
    cases b with
    | true => exact hTrue
    | false => exact hFalse
  generalize (if b then onTrue else onFalse) = t at hTaken hWithin ⊢
  cases t with
  | fall => exact .refl ⟨hTaken, hKeeps⟩
  | label l =>
    obtain ⟨k, hMark⟩ := hWithin l rfl
    exact hOnce.passes_pending hTaken hMark ⟨hMark, hKeeps.go k⟩

/-- Two operands in a row compute what `Expr.evalPair` says. -/
theorem sim_pair {lhs rhs : Expr} {l r : Emission Operand} (hLeft : CarriesOperand I whole lhs l)
    (hRight : CarriesOperand I whole rhs r) (s : Supply) :
    ∀ c, CodeAt whole c.pc ((l.run s).code ++ (r.run (l.run s).supply).code) →
      Computes I whole c (lhs.evalPair I c.memory rhs) fun p c' =>
        c'.pc = c.pc + ((l.run s).code ++ (r.run (l.run s).supply).code).length ∧
          s.Keeps c c' ∧ (l.run s).value.Holds I (r.run (l.run s).supply).supply c' p.1 ∧
          (r.run (l.run s).supply).value.Holds I (r.run (l.run s).supply).supply c' p.2 := by
  intro c hAt
  rw [← Expr.result_performPair]
  exact ((carries_pair hLeft hRight s).2 c hAt).computes

/-- **Code for expressions does what they say.** Wherever it stands in code that marks no label
twice, it computes the value of the expression or goes where its truth decides, and it fails where
an operator does. -/
theorem Expr.simulated (I : Interpretation Value Failure) (hOnce : MarksOnce whole) (e : Expr) :
    e.HasCode (SimValue I whole) (SimOperand I whole) (SimJumps I whole) where
  value := (e.carried I hOnce).value.sim
  operand := (e.carried I hOnce).operand.sim
  jumps := (e.carried I hOnce).jumps.sim hOnce

end Rules

end

end JumpCode
