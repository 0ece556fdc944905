import JumpCode.Instruction
import JumpCode.Proofs.Semantics.Tree

/-!
# JumpCode — what code does

A machine carries out instructions one at a time. It stands at a place in the code, with a memory
and with values in the temporaries; a label is passed over, and a jump goes to the place of its
label.

* `Config.move` — one step;
* `Steps`, `Leads`, `Advances` — steps in a row, counted or not;
* `Steps.unique`, `Stops.after` — the machine has no choice.
-/

namespace JumpCode

/-! ## Steps -/

/-- Where the machine stands, and the values that it knows: a place in the code, the `Memory` and
the temporaries. -/
structure Config (Value : Type) where
  pc : Nat
  memory : Memory Value
  temps : Nat → Value

/-- What the machine does next, from one `Config` on. -/
inductive Move (Value Failure : Type)
  | next (c : Config Value)
  /-- An operator fails. -/
  | fail (failure : Failure)
  /-- The code has come to its end. -/
  | halt
  /-- A jump has no place to go. -/
  | lost

section Machine

variable {Value Failure : Type} (I : Interpretation Value Failure)

/-- The value of an `Operand`. -/
def Operand.eval (m : Memory Value) (temps : Nat → Value) : Operand → Value
  | var x => m.vars x
  | temp n => temps n
  | const c => I.constant c

/-- The value of an `Rvalue`, unless its operator fails. -/
def Rvalue.eval (m : Memory Value) (temps : Nat → Value) : Rvalue → Except Failure Value
  | use o => .ok (o.eval I m temps)
  | binary op l r => I.arith op (l.eval I m temps) (r.eval I m temps)
  | negate o => I.negate (o.eval I m temps)
  | index array offset => .ok (m.elements array (offset.eval I m temps))

/-- Whether a `Test` comes out as true. -/
def Test.eval (m : Memory Value) (temps : Nat → Value) : Test → Bool
  | compare op l r => I.compare op (l.eval I m temps) (r.eval I m temps)
  | truth o => I.truth (o.eval I m temps)

namespace Config

/-- One place further. -/
def skip (c : Config Value) : Config Value := { c with pc := c.pc + 1 }

/-- Goes to the place of a `Label`: the first one in the code that is marked with it. -/
def jump (code : List Instruction) (l : Label) (c : Config Value) : Move Value Failure :=
  if .label l ∈ code then .next { c with pc := code.idxOf (.label l) } else .lost

/-- Assigns a value to a variable or a temporary, and goes one place further. -/
def assign (c : Config Value) (target : Operand) (v : Value) : Config Value :=
  match target with
  | .var x => { c with memory := c.memory.set x v }
  | .temp n => { c with temps := fun k => if k = n then v else c.temps k }
  | .const _ => c

/-- Carries out the `Instruction` at which the machine stands. -/
def move [DecidableEq Value] (code : List Instruction) (c : Config Value) : Move Value Failure :=
  match code[c.pc]? with
  | none => .halt
  | some (.label _) => .next c.skip
  | some (.jump l) => c.jump code l
  | some (.branch test polarity l) =>
    if test.eval I c.memory c.temps = polarity then c.jump code l else .next c.skip
  | some (.assign target value) =>
    match value.eval I c.memory c.temps with
    | .ok v => .next (c.assign target v).skip
    | .error f => .fail f
  | some (.store array offset value) =>
    let m := c.memory.put array (offset.eval I c.memory c.temps) (value.eval I c.memory c.temps)
    .next { c with memory := m }.skip

end Config

/-! ## Runs -/

variable [DecidableEq Value] (code : List Instruction)

/-- That many times `Config.move` leads on, from one configuration to another. -/
inductive Steps : Nat → Config Value → Config Value → Prop
  | refl {c : Config Value} : Steps 0 c c
  | step {n : Nat} {c c₁ c' : Config Value} (hMove : c.move I code = .next c₁)
      (hRest : Steps n c₁ c') : Steps (n + 1) c c'

/-- Some `Steps` lead to a configuration of this kind. -/
def Leads (c : Config Value) (P : Config Value → Prop) : Prop := ∃ n c', Steps I code n c c' ∧ P c'

/-- At least one of the `Steps` leads away, and they lead to a configuration of this kind. -/
def Advances (c : Config Value) (P : Config Value → Prop) : Prop :=
  ∃ n c', Steps I code (n + 1) c c' ∧ P c'

/-- The machine goes no further: `Config.move` gives no next configuration. -/
def Config.Final (c : Config Value) : Prop := ∀ c', c.move I code ≠ .next c'

/-- After at most that many `Steps` the machine goes no further. -/
def Stops (n : Nat) (c : Config Value) : Prop :=
  ∃ k c', k ≤ n ∧ Steps I code k c c' ∧ c'.Final I code

end Machine

section Runs

variable {Value Failure : Type} [DecidableEq Value] {I : Interpretation Value Failure}
  {code : List Instruction} {c c₁ c' : Config Value} {P Q : Config Value → Prop} {n k : Nat}

theorem Steps.trans (h : Steps I code n c c₁) (h' : Steps I code k c₁ c') :
    Steps I code (n + k) c c' := by
  induction h with
  | refl =>
    rw [Nat.zero_add]
    exact h'
  | step hMove _ ih =>
    rw [Nat.succ_add]
    exact .step hMove (ih h')

namespace Leads

theorem refl (h : P c) : Leads I code c P := ⟨0, c, .refl, h⟩

theorem step (hMove : c.move I code = .next c₁) (h : Leads I code c₁ P) : Leads I code c P := by
  obtain ⟨n, c', hSteps, hP⟩ := h
  exact ⟨n + 1, c', .step hMove hSteps, hP⟩

/-- Wherever the first steps lead, the machine goes on from there (`Leads`). -/
theorem bind (h : Leads I code c P) (hNext : ∀ c', P c' → Leads I code c' Q) :
    Leads I code c Q := by
  obtain ⟨n, c₁, hSteps, hP⟩ := h
  obtain ⟨k, c', hSteps', hQ⟩ := hNext c₁ hP
  exact ⟨n + k, c', hSteps.trans hSteps', hQ⟩

theorem mono (h : Leads I code c P) (hPQ : ∀ c', P c' → Q c') : Leads I code c Q :=
  h.bind fun c' hP => .refl (hPQ c' hP)

end Leads

namespace Advances

theorem step (hMove : c.move I code = .next c₁) (h : P c₁) : Advances I code c P :=
  ⟨0, c₁, .step hMove .refl, h⟩

theorem leads (h : Advances I code c P) : Leads I code c P := by
  obtain ⟨n, c', hSteps, hP⟩ := h
  exact ⟨n + 1, c', hSteps, hP⟩

end Advances

/-- Steps before the last one do not matter to `Advances`. -/
theorem Leads.advances (h : Leads I code c P) (hNext : ∀ c', P c' → Advances I code c' Q) :
    Advances I code c Q := by
  obtain ⟨n, c₁, hSteps, hP⟩ := h
  obtain ⟨k, c', hSteps', hQ⟩ := hNext c₁ hP
  exact ⟨n + k, c', hSteps.trans hSteps', hQ⟩

/-- The machine has no choice: of two runs from one configuration, the longer one goes on from the
end of the shorter one. For `Config.move` is a function. -/
theorem Steps.unique (h : Steps I code n c c₁) (h' : Steps I code k c c') (hLe : n ≤ k) :
    Steps I code (k - n) c₁ c' := by
  induction h generalizing k with
  | refl => exact h'
  | step hMove _ ih =>
    cases h' with
    | refl => exact absurd hLe (Nat.not_succ_le_zero _)
    | step hMove' hRest =>
      -- both runs make the same first step
      cases hMove.symm.trans hMove'
      rw [Nat.succ_sub_succ]
      exact ih hRest (Nat.le_of_succ_le_succ hLe)

theorem Config.Final.steps (hFinal : c.Final I code) (h : Steps I code n c c') :
    n = 0 ∧ c' = c := by
  cases h with
  | refl => exact ⟨rfl, rfl⟩
  | step hMove _ => exact absurd hMove (hFinal _)

/-- Where the machine goes no further (`Config.Final`), no run has gone further. -/
theorem Steps.le_of_final (h : Steps I code n c c₁) (h' : Steps I code k c c')
    (hFinal : c'.Final I code) : n ≤ k := by
  rcases Nat.le_total n k with hLe | hLe
  · exact hLe
  -- otherwise the longer run would go on behind the end
  · have hRest := h'.unique h hLe
    have := (hFinal.steps hRest).1
    omega

/-- The machine goes no further in one place alone (`Config.Final`). -/
theorem Steps.final_unique (h : Steps I code n c c₁) (hFinal : c₁.Final I code)
    (h' : Steps I code k c c') (hFinal' : c'.Final I code) : c₁ = c' := by
  have hLe := h.le_of_final h' hFinal'
  exact (hFinal.steps (h.unique h' hLe)).2.symm

namespace Stops

/-- A machine that `Stops` does so with fewer steps from further on. -/
theorem after (h : Stops I code n c) (hSteps : Steps I code k c c₁) :
    k ≤ n ∧ Stops I code (n - k) c₁ := by
  obtain ⟨j, c', hj, hRun, hFinal⟩ := h
  have hLe := hSteps.le_of_final hRun hFinal
  refine ⟨Nat.le_trans hLe hj, j - k, c', ?_, hSteps.unique hRun hLe, hFinal⟩
  omega

/-- Where the machine `Advances`, it stops with fewer steps: this is the measure of the inductions
on a run. -/
theorem advances (h : Stops I code n c) (hAdvances : Advances I code c P) :
    ∃ k c', k < n ∧ P c' ∧ Stops I code k c' := by
  obtain ⟨k, c', hSteps, hP⟩ := hAdvances
  obtain ⟨hLe, hStops⟩ := h.after hSteps
  refine ⟨n - (k + 1), c', ?_, hP, hStops⟩
  omega

end Stops

/-- A machine `Stops` within some number of steps, or it has gone so many. -/
theorem stops_or_steps (n : Nat) (c : Config Value) :
    Stops I code n c ∨ ∃ c', Steps I code n c c' := by
  induction n generalizing c with
  | zero => exact .inr ⟨c, .refl⟩
  | succ n ih =>
    -- either the machine is stuck here already, or one step is left to be counted
    by_cases hFinal : c.Final I code
    · exact .inl ⟨0, c, Nat.zero_le _, .refl, hFinal⟩
    · obtain ⟨c₁, hMove⟩ : ∃ c₁, c.move I code = .next c₁ := by
        simpa [Config.Final] using hFinal
      rcases ih c₁ with ⟨k, c', hk, hSteps, hEnd⟩ | ⟨c', hSteps⟩
      · exact .inl ⟨k + 1, c', Nat.succ_le_succ hk, .step hMove hSteps, hEnd⟩
      · exact .inr ⟨c', .step hMove hSteps⟩

end Runs

end JumpCode
