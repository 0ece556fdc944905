import JumpCode.Proofs.Code.Words
import JumpCode.Proofs.Simulation.Program

/-!
# JumpCode — code for expressions on its own

What code for an expression does can be said without the code around it: started at its first
instruction, the machine performs the operations of the expression, and then runs off the end of
the code or is about to jump to a label outside of it.

That takes labels and temporaries that are new. A `Supply` has no others. The counters of a
`WordSupply` may wrap around and draw a number a second time. Then code can be led back to itself by
the very jump that is to leave it, or write a temporary that holds something; so what is said of
`WordSupply` is said as long as all counts fit.

* `CarriesOut` — a piece of code does all of a computation, nothing else, and comes to an end;
* `Expr.code_carriesOut` — code for jumps, for values and for operands, on a `Supply`;
* `Expr.code_carriesOut_inWords` — the same on counters of 32 bits that do not wrap around;
* `Expr.code_goes_astray` — code that is never left, and code that writes what is not its own, on
  counters that do.
-/

namespace JumpCode

open Emission

section

variable {Value Failure : Type} {I : Interpretation Value Failure} {code : List Instruction}
  {m : Memory Value} {s : Supply} {t : Target} {c : Config Value}

/-! ## Where a piece of code is left -/

/-- The label of a `Target` has been reserved from a `Supply`. -/
def Target.Reserved (s : Supply) (t : Target) : Prop := ∀ l, t = .label l → l.number ≤ s.labels

/-- A piece of code has been left through a `Target`: the machine has run off its end, or it is
about to jump (`Config.pending?`) to a label that is not in the piece. -/
def Target.Exited (I : Interpretation Value Failure) (code : List Instruction)
    (c : Config Value) : Target → Prop
  | .label l => c.pending? I code = some l ∧ .label l ∉ code
  | .fall => c.pc = code.length

/-- What is left through a target that has been reserved before is left for good: by `LabelsOn` the
piece marks new labels only. -/
theorem Target.Taken.exited {outside : Label → Prop} {s' : Supply} {k : Nat}
    (h : t.Taken I code k c) (hEnd : k = code.length) (hReserved : t.Reserved s)
    (hLabels : LabelsOn outside [] s code s') : t.Exited I code c := by
  cases t with
  | fall => exact h.trans hEnd
  | label l =>
    refine ⟨h, fun hMem => ?_⟩
    -- labels of the piece have been reserved with it
    have hNew := (hLabels.label_mem_iff.mp hMem).1
    have hOld := hReserved l rfl
    omega

variable [DecidableEq Value]

/-- Where a piece of code has been left (`Target.Exited`), there is nothing more to be done in it.
-/
theorem Target.Exited.final (h : t.Exited I code c) : c.Final I code := by
  intro c' hMove
  cases t with
  | fall =>
    rw [Config.move_end h] at hMove
    cases hMove
  | label l =>
    rw [Config.move_pending h.1, Config.jump, if_neg h.2] at hMove
    cases hMove

theorem Config.Fails.final {failure : Failure} (h : c.Fails I code failure m) :
    c.Final I code := by
  intro c' hMove
  rw [h.2] at hMove
  cases hMove

/-! ## Whole runs -/

/-- A piece of code carries out a computation: the machine comes to an end (`Config.Final`), and
wherever it does, it has performed the operations of the computation, in their order (`Performs`),
and is left in a configuration of a kind that goes with the value. If an operation fails, that is
where it ends, with all operations before it performed. -/
def CarriesOut {α : Type} (I : Interpretation Value Failure) (code : List Instruction)
    (start : Config Value) (p : Performed Value Failure α) (P : α → Config Value → Prop) : Prop :=
  (∃ operations c', Performs I code operations start c' ∧ c'.Final I code) ∧
    ∀ operations c', Performs I code operations start c' → c'.Final I code →
      match p.result with
      | .ok a => operations = p.operations ∧ P a c'
      | .error failure => operations ++ c'.operations I code = p.operations ∧
          c'.Fails I code failure start.memory

/-- The machine has no choice: an end that it can come to (`Carries`) is the only one
(`CarriesOut`). -/
theorem Carries.out {α : Type} {p : Performed Value Failure α} {P : α → Config Value → Prop}
    (h : Carries I code c p P) (hFinal : ∀ a c', P a c' → c'.Final I code) :
    CarriesOut I code c p P := by
  obtain ⟨operations, result⟩ := p
  cases result with
  | ok a =>
    obtain ⟨c', hPerforms, hP⟩ := h
    -- the end that the code comes to is final, and a machine has one final end at most
    have hEnd := hFinal a c' hP
    refine ⟨⟨operations, c', hPerforms, hEnd⟩, ?_⟩
    intro operations' c'' hPerforms' hEnd'
    obtain ⟨rfl, rfl⟩ := hPerforms.final_unique hEnd hPerforms' hEnd'
    exact ⟨rfl, hP⟩
  | error failure =>
    obtain ⟨before, c', hPerforms, hLast, hFails⟩ := h
    refine ⟨⟨before, c', hPerforms, hFails.final⟩, ?_⟩
    intro operations' c'' hPerforms' hEnd'
    obtain ⟨rfl, rfl⟩ := hPerforms.final_unique hFails.final hPerforms' hEnd'
    exact ⟨hLast.symm, hFails⟩

/-! ## All expressions -/

/-- **Code for expressions is correct on its own**, for every expression, from every supply and in
every memory.

Code for jumps evaluates the expression and is left through the one target if it is true and
through the other if not, whether they are labels that have been reserved, the same label twice or
the end of the code. Code for a value runs off its end and leaves a last operation to the value, and
code for an operand runs off its end with the value in the operand. Neither changes the memory or a
temporary that has been reserved before. The operations performed are those of the expression, in
their order, and the code ends before its end only where one of them fails. -/
theorem Expr.code_carriesOut (I : Interpretation Value Failure) (e : Expr) (s : Supply)
    {start : Config Value} (hStart : start.pc = 0) :
    (∀ onTrue onFalse : Target, onTrue.Reserved s → onFalse.Reserved s →
      let code := ((e.emitJumps onTrue onFalse).run s).code
      CarriesOut I code start (e.performTest I start.memory) fun b c' =>
        (if b then onTrue else onFalse).Exited I code c' ∧ s.Keeps start c') ∧
    (let emitted := e.emitValue.run s
     ∃ p, e.perform I start.memory = p >>= id ∧ CarriesOut I emitted.code start p fun last c' =>
       Target.fall.Exited I emitted.code c' ∧ s.Keeps start c' ∧
         emitted.value.perform I c'.memory c'.temps = last) ∧
    (let emitted := e.emitOperand.run s
     CarriesOut I emitted.code start (e.perform I start.memory) fun v c' =>
       Target.fall.Exited I emitted.code c' ∧ s.Keeps start c' ∧
         emitted.value.eval I c'.memory c'.temps = v) := by
  have hWhole : ∀ code : List Instruction, CodeAt code start.pc code := fun code =>
    ⟨[], [], by rw [List.append_nil, List.nil_append], hStart⟩
  have hLength : ∀ n, start.pc + n = n := by omega
  refine ⟨?_, ?_, ?_⟩
  · intro onTrue onFalse hTrue hFalse code
    have hLabels := e.labels.jumps onTrue onFalse s
    have hCarries := ((e.carried I hLabels.marksOnce).jumps onTrue onFalse s).2 start (hWhole code)
    refine (hCarries.mono ?_).out fun b c' h => h.1.final
    rintro b c' ⟨hTaken, hKeeps⟩
    -- labels that were reserved before are not marked inside
    have hReserved : (if b then onTrue else onFalse).Reserved s := by
      cases b with
      | true => exact hTrue
      | false => exact hFalse
    exact ⟨hTaken.exited (hLength _) hReserved hLabels, hKeeps⟩
  · intro emitted
    have hLabels := e.labels.value s
    obtain ⟨p, hPerform, hCarries⟩ :=
      ((e.carried I hLabels.marksOnce).value s).2 start (hWhole emitted.code)
    refine ⟨p, hPerform, (hCarries.mono ?_).out fun last c' h => h.1.final⟩
    rintro last c' ⟨hPc, hKeeps, hRemains⟩
    exact ⟨hPc.trans (hLength _), hKeeps, hRemains c' (.refl _ c')⟩
  · intro emitted
    have hLabels := e.labels.operand s
    have hCarries := ((e.carried I hLabels.marksOnce).operand s).2 start (hWhole emitted.code)
    refine (hCarries.mono ?_).out fun v c' h => h.1.final
    rintro v c' ⟨hPc, hKeeps, hHolds⟩
    exact ⟨hPc.trans (hLength _), hKeeps, hHolds c' (.refl _ c')⟩

/-- **Code for expressions is correct on its own on counters of 32 bits that do not wrap around**,
for every expression, from any such counters and in every memory. What `Expr.code_carriesOut` says
of code on a `Supply` holds of it too: code for jumps is left through the target that the truth of
the expression decides, code for a value or an operand runs off its end, the operations performed
are those of the expression, and neither the memory nor a temporary that has been reserved before is
changed.

That the counters do not wrap around is said by counting on without bound: `Supply.Fits` holds of
what has been reserved then. Where they do, `Expr.code_goes_astray` shows what may happen. -/
theorem Expr.code_carriesOut_inWords (I : Interpretation Value Failure) (e : Expr) (s : WordSupply)
    {start : Config Value} (hStart : start.pc = 0) :
    (∀ onTrue onFalse : Target, onTrue.Reserved s.toSupply → onFalse.Reserved s.toSupply →
      ((e.emitJumps onTrue onFalse).run s.toSupply).supply.Fits →
      let code := ((e.emitJumps onTrue onFalse).run s).code
      CarriesOut I code start (e.performTest I start.memory) fun b c' =>
        (if b then onTrue else onFalse).Exited I code c' ∧ s.toSupply.Keeps start c') ∧
    ((e.emitValue.run s.toSupply).supply.Fits →
      let emitted := e.emitValue.run s
      ∃ p, e.perform I start.memory = p >>= id ∧
        CarriesOut I emitted.code start p fun last c' =>
          Target.fall.Exited I emitted.code c' ∧ s.toSupply.Keeps start c' ∧
            emitted.value.perform I c'.memory c'.temps = last) ∧
    ((e.emitOperand.run s.toSupply).supply.Fits →
      let emitted := e.emitOperand.run s
      CarriesOut I emitted.code start (e.perform I start.memory) fun v c' =>
        Target.fall.Exited I emitted.code c' ∧ s.toSupply.Keeps start c' ∧
          emitted.value.eval I c'.memory c'.temps = v) := by
  -- as long as the counts fit, the code is the one that a supply with these counts comes to
  obtain ⟨hJumps, hValue, hOperand⟩ := e.run_inWords s.toSupply
  rw [WordSupply.inWords_toSupply] at hJumps hValue hOperand
  obtain ⟨hJumpsDo, hValueDoes, hOperandDoes⟩ := e.code_carriesOut I s.toSupply hStart
  refine ⟨fun onTrue onFalse hTrue hFalse hFits => ?_, fun hFits => ?_, fun hFits => ?_⟩
  · rw [hJumps onTrue onFalse hFits]
    exact hJumpsDo onTrue onFalse hTrue hFalse
  · rw [hValue hFits]
    exact hValueDoes
  · rw [hOperand hFits]
    exact hOperandDoes

end

/-- Whether a sum is below 2 or a quotient is. The quotient would be one by zero. -/
def guardedExpr : Expr :=
  .or (.rel .less (.arith .add (.const (.int 0)) (.const (.int 1)) .int) (.const (.int 2)))
    (.rel .less (.arith .div (.const (.int 1)) (.const (.int 0)) .int) (.const (.int 2)))

/-- The code for `guardedExpr` that jumps to a label if the sum or the quotient is below 2, with
that label alone reserved before. -/
def guardedCode : List Instruction :=
  ((guardedExpr.emitJumps (.label ⟨1⟩) .fall).run (⟨1, 0⟩ : WordSupply)).code

/-- The memory that holds zero in all places, at the beginning of a piece of code
(`Config.initial`). -/
def zeroConfig : Config Int := .initial ⟨fun _ => 0, fun _ _ => 0⟩ fun _ => 0

/-- The sum decides: it is computed and nothing else, and the code is left by a jump. -/
theorem Expr.code_carriesOut_guarded :
    (Target.label ⟨1⟩).Reserved (WordSupply.toSupply ⟨1, 0⟩) ∧
      Target.fall.Reserved (WordSupply.toSupply ⟨1, 0⟩) ∧
      ((guardedExpr.emitJumps (.label ⟨1⟩) .fall).run (WordSupply.toSupply ⟨1, 0⟩)).supply.Fits ∧
      ∃ c', Performs Interpretation.integers guardedCode [.arith .add 0 1] zeroConfig c' ∧
        (Target.label ⟨1⟩).Exited Interpretation.integers guardedCode c' := by
  have hTrue : (Target.label ⟨1⟩).Reserved (WordSupply.toSupply ⟨1, 0⟩) := by
    intro l hSame
    cases hSame
    exact Nat.le_refl 1
  have hFalse : Target.fall.Reserved (WordSupply.toSupply ⟨1, 0⟩) := fun l hSame => by cases hSame
  have hFits : ((guardedExpr.emitJumps (.label ⟨1⟩) .fall).run
      (WordSupply.toSupply ⟨1, 0⟩)).supply.Fits := ⟨by decide, by decide⟩
  have hStart : zeroConfig.pc = 0 := rfl
  have hCode := (Expr.code_carriesOut_inWords Interpretation.integers guardedExpr ⟨1, 0⟩
    hStart).1 (.label ⟨1⟩) .fall hTrue hFalse hFits
  obtain ⟨⟨operations, c', hPerforms, hFinal⟩, hEnds⟩ := hCode
  obtain ⟨rfl, hExited, -⟩ := hEnds operations c' hPerforms hFinal
  exact ⟨hTrue, hFalse, hFits, c', hPerforms, hExited⟩

/-- Whether 0 is below 1 if and only if it is. Both truth values are computed, and then compared. -/
def twiceExpr : Expr :=
  .rel .equal (.rel .less (.const (.int 0)) (.const (.int 1)))
    (.rel .less (.const (.int 0)) (.const (.int 1)))

/-- The code of `twiceExpr` when all temporaries that 32 bits can count have been reserved. The two
truth values take the temporaries 0 and 1. -/
def twiceCode : List Instruction :=
  ((twiceExpr.emitJumps .fall .fall).run (⟨0, 4294967295⟩ : WordSupply)).code

/-- `twiceCode` runs off its end, with a truth value in temporary 1. -/
theorem twiceCode_passes : Passes Interpretation.integers twiceCode zeroConfig fun c' =>
    c'.Final Interpretation.integers twiceCode ∧ c'.temps 1 = 1 := by
  -- the first comparison holds, and that is noted in temporary 0
  refine .step rfl rfl (.step rfl rfl (.step rfl rfl (.step rfl rfl ?_)))
  -- the second one, in temporary 1
  refine .step rfl rfl (.step rfl rfl (.step rfl rfl (.step rfl rfl ?_)))
  refine .refl ⟨?_, rfl⟩
  intro c' hMove
  cases hMove

/-- **Where counters wrap around, code goes astray.**

When all labels that 32 bits can count have been reserved, the code that is to leave through label 1
draws label 1 again for a place of its own. It jumps there whenever the comparison is true, and it
always is, so that it is never left. When all temporaries have been reserved, the code draws 0 and 1
for the two truth values, and temporary 1, which has been reserved before, is written again. -/
theorem Expr.code_goes_astray :
    ((Target.label ⟨1⟩).Reserved (WordSupply.toSupply ⟨4294967295, 0⟩) ∧
      Target.fall.Reserved (WordSupply.toSupply ⟨4294967295, 0⟩) ∧
      let code :=
        ((twiceExpr.emitJumps (.label ⟨1⟩) .fall).run (⟨4294967295, 0⟩ : WordSupply)).code
      ¬ CarriesOut Interpretation.integers code zeroConfig
        (twiceExpr.performTest Interpretation.integers zeroConfig.memory) fun b c' =>
          (if b then .label ⟨1⟩ else .fall : Target).Exited Interpretation.integers code c' ∧
            (WordSupply.toSupply ⟨4294967295, 0⟩).Keeps zeroConfig c') ∧
    Target.fall.Reserved (WordSupply.toSupply ⟨0, 4294967295⟩) ∧
      ¬ CarriesOut Interpretation.integers twiceCode zeroConfig
        (twiceExpr.performTest Interpretation.integers zeroConfig.memory) fun b c' =>
          (if b then .fall else .fall : Target).Exited Interpretation.integers twiceCode c' ∧
            (WordSupply.toSupply ⟨0, 4294967295⟩).Keeps zeroConfig c' := by
  refine ⟨⟨?_, fun l hSame => (by cases hSame), ?_⟩, fun l hSame => (by cases hSame), ?_⟩
  · intro l hSame
    cases hSame
    decide
  · rintro code ⟨⟨operations, c', hPerforms, hFinal⟩, hEnds⟩
    -- the comparison is true, and leaving through a label takes one that is not in the code
    obtain ⟨-, hExited, -⟩ := hEnds operations c' hPerforms hFinal
    have hInside : Instruction.label ⟨1⟩ ∈ code := by decide +kernel
    exact hExited.2 hInside
  · intro hCarries
    obtain ⟨c', hPerforms, hFinal, hWritten⟩ := twiceCode_passes
    obtain ⟨-, -, hKeeps⟩ := hCarries.2 [] c' hPerforms hFinal
    -- temporary 1 held zero at the beginning
    have hKept : c'.temps 1 = 0 := hKeeps.temps 1 (by decide)
    rw [hWritten] at hKept
    cases hKept

end JumpCode
