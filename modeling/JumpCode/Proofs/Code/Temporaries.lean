import JumpCode.Proofs.Code.Labels
import JumpCode.Proofs.Code.Typing

/-!
# JumpCode — temporaries of a piece of code

Every temporary that is reserved while a piece of code is emitted is written in it: at one place,
or, if it holds the value of a logical expression, at one place for each truth value. The piece uses
no other temporaries but those that it was handed.

* `Expr.temps` — the code of expressions;
* `Stmt.Layout.temps` — the code of statements.
-/

namespace JumpCode

open Emission

/-! ## Reads and writes -/

/-- The operands that an `Instruction` reads; what it writes is not among them. -/
@[simp] def Instruction.reads : Instruction → List Operand
  | label _ => []
  | jump _ => []
  | branch test _ _ => test.operands
  | assign _ value => value.operands
  | store _ offset value => [offset, value]

/-- The temporary that an `Instruction` writes, if it writes one and not a variable. -/
@[simp] def Instruction.written? : Instruction → Option Nat
  | assign (.temp t) _ => some t
  | _ => none

/-- An instruction reads or writes a temporary: it is among its `reads`, or `written?`. -/
def Instruction.Uses (i : Instruction) (t : Nat) : Prop := .temp t ∈ i.reads ∨ i.written? = some t

/-- What the truth value of a logical expression is assigned by, behind the jumps that decide it:
the end of the code of `materialize`. -/
def decision (t : Nat) (onFalse after : Label) : List Instruction :=
  [.assign (.temp t) (.use (.const (.bool true))), .jump after, .label onFalse,
    .assign (.temp t) (.use (.const (.bool false))), .label after]

theorem decision_reads {t : Nat} {onFalse after : Label} {i : Instruction}
    (h : i ∈ decision t onFalse after) (t' : Nat) : .temp t' ∉ i.reads := by
  simp only [decision, List.mem_cons, List.not_mem_nil, or_false] at h
  rcases h with rfl | rfl | rfl | rfl | rfl <;> simp [Rvalue.operands]

theorem decision_writes {t t' : Nat} {onFalse after : Label} {i : Instruction}
    (h : i ∈ decision t onFalse after) (hWrite : i.written? = some t') : t' = t := by
  simp only [decision, List.mem_cons, List.not_mem_nil, or_false] at h
  rcases h with rfl | rfl | rfl | rfl | rfl <;> simp_all

theorem run_materialize (j : Target → Target → Emission Unit) (s : Supply) :
    (materialize j).run s =
      ⟨.use (.temp (s.temps + 1)),
        ((j .fall (.label ⟨s.labels + 1⟩)).run ⟨s.labels + 2, s.temps + 1⟩).supply,
        ((j .fall (.label ⟨s.labels + 1⟩)).run ⟨s.labels + 2, s.temps + 1⟩).code ++
          decision (s.temps + 1) ⟨s.labels + 1⟩ ⟨s.labels + 2⟩⟩ := rfl

/-- An instruction neither writes the temporary `t` nor jumps to labels that have been reserved
between two supplies (`Label.Between`). -/
structure Instruction.Apart (t : Nat) (s s' : Supply) (i : Instruction) : Prop where
  writes : i.written? ≠ some t
  targets (l : Label) (hTarget : i.target? = some l) : ¬ l.Between s s'

theorem Instruction.Apart.narrow {t : Nat} {s s' v v' : Supply} {i : Instruction}
    (h : i.Apart t s s') (hLow : s.labels ≤ v.labels) (hHigh : v'.labels ≤ s'.labels) :
    i.Apart t v v' where
  writes := h.writes
  targets l hTarget hBetween :=
    h.targets l hTarget ⟨Nat.lt_of_le_of_lt hLow hBetween.1, Nat.le_trans hBetween.2 hHigh⟩

theorem decision_target {t : Nat} {onFalse after l : Label} {i : Instruction}
    (h : i ∈ decision t onFalse after) (hTarget : i.target? = some l) : l = after := by
  simp only [decision, List.mem_cons, List.not_mem_nil, or_false] at h
  rcases h with rfl | rfl | rfl | rfl | rfl <;> simp_all [Instruction.target?]

/-- Code with labels of its own writes a temporary: at one place, or in the piece that computes a
logical expression, which has two. Nothing else jumps into this piece (`Instruction.Apart`). -/
inductive Written (s s' : Supply) (code : List Instruction) (t : Nat) : Prop
  | once (front back : List Instruction) (value : Rvalue)
      (hCode : code = front ++ .assign (.temp t) value :: back)
      (hOthers : ∀ i ∈ front ++ back, i.written? ≠ some t) : Written s s' code t
  | truth (front piece back : List Instruction) (e : Expr) (v v' : Supply)
      (hLogical : e.isLogical = true) (hRun : e.emitValue.run v = ⟨.use (.temp t), v', piece⟩)
      (hLow : s.labels ≤ v.labels) (hHigh : v'.labels ≤ s'.labels)
      (hCode : code = front ++ (piece ++ back))
      (hOthers : ∀ i ∈ front ++ back, i.Apart t v v') : Written s s' code t

namespace Written

variable {s s' w w' : Supply} {code code' : List Instruction} {t : Nat}

theorem mono (h : Written s s' code t) (hLow : w.labels ≤ s.labels)
    (hHigh : s'.labels ≤ w'.labels) : Written w w' code t := by
  cases h with
  | once front back value hCode hOthers => exact .once front back value hCode hOthers
  | truth front piece back e v v' hLogical hRun hFrom hTo hCode hOthers =>
    exact .truth front piece back e v v' hLogical hRun (Nat.le_trans hLow hFrom)
      (Nat.le_trans hTo hHigh) hCode hOthers

theorem append (h : Written s s' code t) (h' : ∀ i ∈ code', i.Apart t s s') :
    Written s s' (code ++ code') t := by
  cases h with
  | once front back value hCode hOthers =>
    refine .once front (back ++ code') value (by simp [hCode]) fun i hi => ?_
    rw [← List.append_assoc] at hi
    exact (List.mem_append.mp hi).elim (hOthers i) fun hi => (h' i hi).writes
  | truth front piece back e v v' hLogical hRun hLow hHigh hCode hOthers =>
    refine .truth front piece (back ++ code') e v v' hLogical hRun hLow hHigh (by simp [hCode])
      fun i hi => ?_
    rw [← List.append_assoc] at hi
    exact (List.mem_append.mp hi).elim (hOthers i) fun hi => (h' i hi).narrow hLow hHigh

theorem prepend (h : Written s s' code t) (h' : ∀ i ∈ code', i.Apart t s s') :
    Written s s' (code' ++ code) t := by
  cases h with
  | once front back value hCode hOthers =>
    refine .once (code' ++ front) back value (by simp [hCode]) fun i hi => ?_
    rw [List.append_assoc] at hi
    exact (List.mem_append.mp hi).elim (fun hi => (h' i hi).writes) (hOthers i)
  | truth front piece back e v v' hLogical hRun hLow hHigh hCode hOthers =>
    refine .truth (code' ++ front) piece back e v v' hLogical hRun hLow hHigh (by simp [hCode])
      fun i hi => ?_
    rw [List.append_assoc] at hi
    exact (List.mem_append.mp hi).elim (fun hi => (h' i hi).narrow hLow hHigh) (hOthers i)

end Written

/-! ## Accounts of temporaries -/

/-- If an `Operand` is a temporary, it has been reserved since there were `base` of them, and is
none that is yet to be reserved. -/
def Operand.Since (base : Nat) (s : Supply) (o : Operand) : Prop :=
  ∀ t, o = .temp t → base < t ∧ t ≤ s.temps

theorem Operand.Since.mono {base base' : Nat} {s s' : Supply} {o : Operand} (h : o.Since base s)
    (hBase : base' ≤ base) (hLe : s.temps ≤ s'.temps) : o.Since base' s' := fun t ht => by
  have := h t ht
  omega

/-- A piece of code writes the temporaries that are reserved with it and no others, each of them as
`Written` says, and reads those that have been reserved since there were `base` of them. It jumps to
its own labels and to labels outside. -/
structure TempsOn (outside : Label → Prop) (base : Nat) (s : Supply) (code : List Instruction)
    (s' : Supply) : Prop where
  labels : s.labels ≤ s'.labels
  le : s.temps ≤ s'.temps
  targets (i : Instruction) (hCode : i ∈ code) (l : Label) (hTarget : i.target? = some l) :
    l.Between s s' ∨ outside l
  reads (i : Instruction) (hCode : i ∈ code) (o : Operand) (hRead : o ∈ i.reads) :
    o.Since base s'
  writes (i : Instruction) (hCode : i ∈ code) (t : Nat) (hWrite : i.written? = some t) :
    s.temps < t ∧ t ≤ s'.temps
  written (hOutside : ∀ l, outside l → l.number ≤ s.labels) (t : Nat) (hLow : s.temps < t)
    (hHigh : t ≤ s'.temps) : Written s s' code t

namespace TempsOn

variable {outside outside' : Label → Prop} {base base' : Nat} {s s₁ s' : Supply}
  {code code' : List Instruction}

theorem mono (h : TempsOn outside base s code s') (hBase : base' ≤ base)
    (hOutside : ∀ l, outside l → outside' l) : TempsOn outside' base' s code s' where
  labels := h.labels
  le := h.le
  targets i hCode l hTarget := (h.targets i hCode l hTarget).imp_right (hOutside l)
  reads i hCode o hRead := (h.reads i hCode o hRead).mono hBase (Nat.le_refl _)
  writes := h.writes
  written hOutside' := h.written fun l hl => hOutside' l (hOutside l hl)

theorem append (h : TempsOn outside base s code s₁) (h' : TempsOn outside base s₁ code' s') :
    TempsOn outside base s (code ++ code') s' where
  labels := Nat.le_trans h.labels h'.labels
  le := Nat.le_trans h.le h'.le
  targets i hCode l hTarget := by
    rcases List.mem_append.mp hCode with hCode | hCode
    · exact (h.targets i hCode l hTarget).imp_left fun hOwn =>
        ⟨hOwn.1, Nat.le_trans hOwn.2 h'.labels⟩
    · exact (h'.targets i hCode l hTarget).imp_left fun hOwn =>
        ⟨Nat.lt_of_le_of_lt h.labels hOwn.1, hOwn.2⟩
  reads i hCode o hRead := by
    rcases List.mem_append.mp hCode with hCode | hCode
    · exact (h.reads i hCode o hRead).mono (Nat.le_refl _) h'.le
    · exact h'.reads i hCode o hRead
  writes i hCode t hWrite := by
    have hLe := h.le
    have hLe' := h'.le
    rcases List.mem_append.mp hCode with hCode | hCode
    · have := h.writes i hCode t hWrite
      omega
    · have := h'.writes i hCode t hWrite
      omega
  written hOutside t hLow hHigh := by
    -- each piece writes its own temporaries alone, and jumps to its own labels or far back
    by_cases hFirst : t ≤ s₁.temps
    · refine ((h.written hOutside t hLow hFirst).append fun i hi => ⟨fun hWrite => ?_,
        fun l hTarget hBetween => ?_⟩).mono (Nat.le_refl _) h'.labels
      · have := h'.writes i hi t hWrite
        omega
      · have hBack := hOutside l
        rcases h'.targets i hi l hTarget with hOwn | hOut
        · exact absurd hBetween.2 (Nat.not_le.mpr hOwn.1)
        · exact absurd hBetween.1 (Nat.not_lt.mpr (hBack hOut))
    · have hOutside' l (hOut : outside l) : l.number ≤ s₁.labels :=
        Nat.le_trans (hOutside l hOut) h.labels
      refine ((h'.written hOutside' t (by omega) hHigh).prepend fun i hi => ⟨fun hWrite => ?_,
        fun l hTarget hBetween => ?_⟩).mono h.labels (Nat.le_refl _)
      · have := h.writes i hi t hWrite
        omega
      · rcases h.targets i hi l hTarget with hOwn | hOut
        · exact absurd hBetween.1 (Nat.not_lt.mpr hOwn.2)
        · exact absurd hBetween.1 (Nat.not_lt.mpr (hOutside' l hOut))

theorem nil : TempsOn outside base s [] s where
  labels := Nat.le_refl _
  le := Nat.le_refl _
  targets := by simp
  reads := by simp
  writes := by simp
  written := by omega

/-- An instruction that writes no temporary. -/
theorem instruction {i : Instruction} (hReads : ∀ o ∈ i.reads, o.Since base s)
    (hWrites : i.written? = none) (hTarget : ∀ l, i.target? = some l → outside l) :
    TempsOn outside base s [i] s where
  labels := Nat.le_refl _
  le := Nat.le_refl _
  targets j hCode l hj := .inr (hTarget l (List.mem_singleton.mp hCode ▸ hj))
  reads j hCode o hRead := hReads o (List.mem_singleton.mp hCode ▸ hRead)
  writes j hCode t hWrite := by
    rw [List.mem_singleton.mp hCode, hWrites] at hWrite
    cases hWrite
  written := by omega

theorem label (l : Label) : TempsOn outside base s [.label l] s :=
  instruction (by simp) rfl fun _ h => by cases h

theorem jump {l : Label} (h : outside l) : TempsOn outside base s [.jump l] s :=
  instruction (by simp) rfl fun _ hTarget => Option.some.inj hTarget ▸ h

/-- A temporary is reserved for a value and written at once: there is one place. -/
theorem assign {value : Rvalue} (hReads : ∀ o ∈ value.operands, o.Since base s) :
    TempsOn outside base s [.assign (.temp (s.temps + 1)) value] ⟨s.labels, s.temps + 1⟩ where
  labels := Nat.le_refl _
  le := Nat.le_succ _
  targets i hCode l hTarget := by
    rw [List.mem_singleton.mp hCode] at hTarget
    cases hTarget
  reads i hCode o hRead := by
    rw [List.mem_singleton.mp hCode] at hRead
    exact (hReads o hRead).mono (Nat.le_refl _) (Nat.le_succ _)
  writes i hCode t hWrite := by
    rw [List.mem_singleton.mp hCode] at hWrite
    obtain rfl := Option.some.inj hWrite
    exact ⟨Nat.lt_succ_self _, Nat.le_refl _⟩
  written _ t hLow hHigh := by
    obtain rfl : t = s.temps + 1 := Nat.le_antisymm hHigh hLow
    exact .once [] [] value rfl (by simp)

/-- A label that is reserved for a piece of code is one of its own. -/
theorem reserve (h : TempsOn (fun l => l = s.nextLabel ∨ outside l) base s.skipLabel code s') :
    TempsOn outside base s code s' where
  labels := Nat.le_of_succ_le h.labels
  le := h.le
  targets i hCode l hTarget := by
    rcases h.targets i hCode l hTarget with ⟨hLow, hHigh⟩ | rfl | hOut
    · exact .inl ⟨Nat.lt_of_succ_lt hLow, hHigh⟩
    · exact .inl ⟨Nat.lt_succ_self _, h.labels⟩
    · exact .inr hOut
  reads := h.reads
  writes := h.writes
  written hOutside t hLow hHigh := by
    refine (h.written ?_ t hLow hHigh).mono (Nat.le_succ _) (Nat.le_refl _)
    rintro l (rfl | hOut)
    · exact Nat.le_refl _
    · exact Nat.le_succ_of_le (hOutside l hOut)

end TempsOn

/-! ## Emissions -/

/-- Whatever `Supply` an emission starts from, its code accounts for its temporaries (`TempsOn`), if
it has been given some operands to read; and so do the operands of what it makes. -/
def Temps {α : Type} (outside : Label → Prop) (given : List Operand) (m : Emission α)
    (made : α → List Operand) : Prop :=
  ∀ base s, base ≤ s.temps → (∀ o ∈ given, o.Since base s) →
    TempsOn outside base s (m.run s).code (m.run s).supply ∧
      ∀ o ∈ made (m.run s).value, o.Since base (m.run s).supply

namespace Temps

variable {α β : Type} {outside outside' : Label → Prop} {given : List Operand} {m : Emission α}
  {f : α → Emission β} {mid : α → List Operand} {made : β → List Operand}

theorem mono (h : Temps outside given m mid) (hOutside : ∀ l, outside l → outside' l) :
    Temps outside' given m mid := fun base s hBase hGiven => by
  obtain ⟨hCode, hMade⟩ := h base s hBase hGiven
  exact ⟨hCode.mono (Nat.le_refl _) hOutside, hMade⟩

theorem pure {b : β} (h : ∀ o ∈ made b, o ∈ given) : Temps outside given (pure b) made :=
  fun _ _ _ hGiven => ⟨.nil, fun o ho => hGiven o (h o ho)⟩

theorem bind (h : Temps outside given m mid)
    (h' : ∀ a, Temps outside (mid a ++ given) (f a) made) : Temps outside given (m >>= f) made := by
  intro base s hBase hGiven
  obtain ⟨hCode, hMid⟩ := h base s hBase hGiven
  obtain ⟨hCode', hMade⟩ := h' _ base (m.run s).supply (Nat.le_trans hBase hCode.le) fun o ho =>
    (List.mem_append.mp ho).elim (hMid o) fun ho =>
      (hGiven o ho).mono (Nat.le_refl _) hCode.le
  exact ⟨hCode.append hCode', hMade⟩

theorem emit {i : Instruction} (hReads : ∀ o ∈ i.reads, o ∈ given) (hWrites : i.written? = none)
    (hTarget : ∀ l, i.target? = some l → outside l) : Temps outside given (emit i) fun _ => [] :=
  fun _ _ _ hGiven => ⟨.instruction (fun o ho => hGiven o (hReads o ho)) hWrites hTarget, by simp⟩

theorem mark (l : Label) : Temps outside given (mark l) fun _ => [] :=
  .emit (by simp) rfl fun _ h => by cases h

theorem newLabel_bind {f : Label → Emission β}
    (h : ∀ l, Temps (fun l' => l' = l ∨ outside l') given (f l) made) :
    Temps outside given (newLabel >>= f) made := fun base s hBase hGiven => by
  obtain ⟨hCode, hMade⟩ := h s.nextLabel base s.skipLabel hBase hGiven
  exact ⟨hCode.reserve, hMade⟩

/-- A value goes to a fresh temporary. -/
theorem assign {value : Rvalue} (h : ∀ o ∈ value.operands, o ∈ given) :
    Temps outside given (newTemp >>= fun temp => Emission.emit (.assign temp value) >>= fun _ =>
      Pure.pure temp) fun o => [o] := by
  intro base s hBase hGiven
  refine ⟨.assign fun o ho => hGiven o (h o ho), fun o ho => ?_⟩
  obtain rfl := List.mem_singleton.mp ho
  rintro t ⟨⟩
  exact ⟨Nat.lt_succ_of_le hBase, Nat.le_refl _⟩

end Temps

/-! ## Expressions -/

/-- The code for a value accounts for its temporaries: `Temps` holds with the operands of the
`Rvalue`. -/
def TempsValue (_ : Expr) (v : Emission Rvalue) : Prop :=
  ∀ given, Temps (fun _ => False) given v Rvalue.operands

/-- The code for an operand accounts for its temporaries, the operand among them. -/
def TempsOperand (_ : Expr) (o : Emission Operand) : Prop :=
  ∀ given, Temps (fun _ => False) given o fun o => [o]

/-- The code for jumps accounts for its temporaries, whatever its targets are. -/
def TempsJumps (_ : Expr) (j : Target → Target → Emission Unit) : Prop :=
  ∀ onTrue onFalse given, Temps (Target.Either onTrue onFalse) given (j onTrue onFalse) fun _ => []

theorem temps_jumpsOnTest {given : List Operand} {test : Test}
    (h : ∀ o ∈ test.operands, o ∈ given) (onTrue onFalse : Target) :
    Temps (Target.Either onTrue onFalse) given (jumpsOnTest test onTrue onFalse) fun _ => [] := by
  have hBranch (polarity : Bool) (l : Label) (hl : Target.Either onTrue onFalse l) :
      Temps (Target.Either onTrue onFalse) given (emit (.branch test polarity l)) fun _ => [] :=
    .emit h rfl fun _ hTarget => Option.some.inj hTarget ▸ hl
  cases onTrue with
  | label l =>
    cases onFalse with
    | label l' =>
      exact (hBranch true l (.inl rfl)).bind fun _ =>
        .emit (by simp) rfl fun _ hTarget => Option.some.inj hTarget ▸ .inr rfl
    | fall => exact hBranch true l (.inl rfl)
  | fall =>
    cases onFalse with
    | label l' => exact hBranch false l' (.inr rfl)
    | fall => exact .pure (by simp)

theorem temps_reduced {e : Expr} {v : Emission Rvalue} (h : TempsValue e v) :
    TempsOperand e (reduced v) := by
  refine fun given => (h given).bind fun value => ?_
  have hOperands : ∀ o ∈ value.operands, o ∈ value.operands ++ given := fun o =>
    List.mem_append_left _
  cases value with
  | use o => exact .pure hOperands
  | _ => exact .assign hOperands

theorem temps_materialize {e : Expr} {j : Target → Target → Emission Unit}
    (hLogical : e.isLogical = true) (hCode : e.emitValue = materialize j) (h : TempsJumps e j) :
    TempsValue e (materialize j) := by
  intro given base s hBase hGiven
  obtain ⟨hJumps, -⟩ := h .fall (.label ⟨s.labels + 1⟩) [] (s.temps + 1)
    ⟨s.labels + 2, s.temps + 1⟩ (Nat.le_refl _) (by simp)
  have hWhole := run_materialize j s
  rw [hWhole]
  -- the code is kept as that of the whole expression, which is what `Written.truth` speaks of
  rw [← hCode] at hWhole
  generalize (j .fall (.label ⟨s.labels + 1⟩)).run ⟨s.labels + 2, s.temps + 1⟩ = jumps
    at hJumps hWhole ⊢
  have hLe : s.temps + 1 ≤ jumps.supply.temps := hJumps.le
  have hLabels : s.labels + 2 ≤ jumps.supply.labels := hJumps.labels
  dsimp only
  refine ⟨⟨Nat.le_of_add_right_le hLabels, Nat.le_of_succ_le hLe, ?_, ?_, ?_, fun _ => ?_⟩, ?_⟩
  · -- both labels of the decision are reserved first, before those of the jumps
    intro i hi l hl
    unfold Label.Between
    left
    rcases List.mem_append.mp hi with hi | hi
    · rcases hJumps.targets i hi l hl with ⟨hLow, hHigh⟩ | hOut
      · exact ⟨Nat.lt_of_le_of_lt (Nat.le_add_right _ 2) hLow, hHigh⟩
      · obtain rfl := Target.Either.of_fails (P := (· = ⟨s.labels + 1⟩)) rfl l hOut
        exact ⟨Nat.lt_succ_self _, Nat.le_of_succ_le hLabels⟩
    · obtain rfl := decision_target hi hl
      exact ⟨Nat.lt_add_of_pos_right (by decide), hLabels⟩
  · intro i hi o ho
    rcases List.mem_append.mp hi with hi | hi
    · exact (hJumps.reads i hi o ho).mono (Nat.le_succ_of_le hBase) (Nat.le_refl _)
    · rintro t rfl
      exact absurd ho (decision_reads hi t)
  · intro i hi t ht
    rcases List.mem_append.mp hi with hi | hi
    · have : s.temps + 1 < t ∧ t ≤ jumps.supply.temps := hJumps.writes i hi t ht
      omega
    · obtain rfl := decision_writes hi ht
      omega
  · intro t hLow hHigh
    -- the truth value goes to the temporary before those of the jumps
    by_cases hOwn : t = s.temps + 1
    · subst hOwn
      exact .truth [] _ [] e s _ hLogical hWhole (Nat.le_refl _) (Nat.le_refl _) (by simp) (by simp)
    · have hWritten := hJumps.written (Target.Either.of_fails (Nat.le_succ _)) t
        (show s.temps + 1 < t by omega) hHigh
      refine (hWritten.append fun i hi => ⟨fun ht => ?_, fun l hl => ?_⟩).mono
        (Nat.le_add_right _ 2) (Nat.le_refl _)
      · exact hOwn (decision_writes hi ht)
      · obtain rfl := decision_target hi hl
        exact fun hBetween => Nat.lt_irrefl _ hBetween.1
  · intro o ho
    obtain rfl := List.mem_singleton.mp ho
    rintro t ⟨⟩
    exact ⟨Nat.lt_succ_of_le hBase, hLe⟩

/-- What the combinators of code do with temporaries, as `Expr.CodeRules`. -/
theorem temps_rules : Expr.CodeRules TempsValue TempsOperand TempsJumps where
  const c given := by
    intro base s _ _
    exact ⟨.nil, by simp [Rvalue.operands, Operand.Since]⟩
  var x given := by
    intro base s _ _
    exact ⟨.nil, by simp [Rvalue.operands, Operand.Since]⟩
  access array index type i h given := (h given).bind fun o => .pure (by simp [Rvalue.operands])
  arith op lhs rhs type l r hLeft hRight given :=
    (hLeft given).bind fun a => (hRight _).bind fun b => .pure (by simp [Rvalue.operands])
  neg operand type o h given := (h given).bind fun a => .pure (by simp [Rvalue.operands])
  materialize e j hLogical hCode h := temps_materialize hLogical hCode h
  reduced e v h := temps_reduced h
  truth b onTrue onFalse given := by
    have hGoto (t : Target) (ht : ∀ l, t = .label l → Target.Either onTrue onFalse l) :
        Temps (Target.Either onTrue onFalse) given (goto t) fun _ => [] := by
      cases t with
      | label l =>
        exact .emit (by simp) rfl fun _ hTarget => Option.some.inj hTarget ▸ ht l rfl
      | fall => exact .pure (by simp)
    cases b with
    | true => exact hGoto onTrue fun _ => .inl
    | false => exact hGoto onFalse fun _ => .inr
  value e o _ h onTrue onFalse given :=
    ((h given).mono fun _ => False.elim).bind fun a =>
      temps_jumpsOnTest (by simp [Test.operands]) onTrue onFalse
  not operand j h onTrue onFalse given := (h onFalse onTrue given).mono fun _ => Or.symm
  rel op lhs rhs l r hLeft hRight onTrue onFalse given :=
    ((hLeft given).mono fun _ => False.elim).bind fun a =>
      ((hRight _).mono fun _ => False.elim).bind fun b =>
        temps_jumpsOnTest (by simp [Test.operands]) onTrue onFalse
  and lhs rhs l r hLeft hRight onTrue onFalse given := by
    cases onFalse with
    | label onFalse =>
      exact ((hLeft _ _ given).mono (Target.Either.of_fails (.inr rfl))).bind fun _ =>
        hRight onTrue (.label onFalse) _
    | fall =>
      -- the first condition fails to a label behind both
      refine .newLabel_bind fun onFalse => ?_
      exact ((hLeft _ _ given).mono (Target.Either.of_fails (.inl rfl))).bind fun _ =>
        ((hRight onTrue .fall _).mono fun _ => .inr).bind fun _ => .mark onFalse
  or lhs rhs l r hLeft hRight onTrue onFalse given := by
    cases onTrue with
    | label onTrue =>
      exact ((hLeft _ _ given).mono (Target.Either.of_succeeds (.inl rfl))).bind fun _ =>
        hRight (.label onTrue) onFalse _
    | fall =>
      refine .newLabel_bind fun onTrue => ?_
      exact ((hLeft _ _ given).mono (Target.Either.of_succeeds (.inl rfl))).bind fun _ =>
        ((hRight .fall onFalse _).mono fun _ => .inr).bind fun _ => .mark onTrue

/-- **Temporaries of expressions.** The code of an `Expr` accounts for its temporaries, in each of
its three forms. -/
theorem Expr.temps (e : Expr) : e.HasCode TempsValue TempsOperand TempsJumps :=
  e.emission_induction temps_rules

/-! ## Statements -/

theorem Temps.of_run {α : Type} {outside : Label → Prop} {m : Emission α} {made : α → List Operand}
    (h : Temps outside [] m made) {s s' : Supply} {a : α} {code : List Instruction}
    (hRun : m.run s = ⟨a, s', code⟩) :
    TempsOn outside s.temps s code s' ∧ ∀ o ∈ made a, o.Since s.temps s' := by
  have hTemps := h s.temps s (Nat.le_refl _) (by simp)
  rwa [hRun] at hTemps

theorem Expr.temps_jumps {c : Expr} {onTrue onFalse : Target} {s s' : Supply}
    {code : List Instruction} (hRun : (c.emitJumps onTrue onFalse).run s = ⟨(), s', code⟩) :
    TempsOn (Target.Either onTrue onFalse) s.temps s code s' :=
  ((c.temps.jumps onTrue onFalse []).of_run hRun).1

theorem Expr.temps_set {a : Expr} {x : Symbol} {value : Rvalue} {s s' : Supply}
    {code : List Instruction} (hRun : a.emitValue.run s = ⟨value, s', code⟩) :
    TempsOn (fun _ => False) s.temps s (code ++ [.assign (.var x) value]) s' := by
  obtain ⟨hCode, hValue⟩ := (a.temps.value []).of_run hRun
  exact hCode.append (.instruction hValue rfl fun _ h => by cases h)

theorem Access.temps_store {target : Access} {a : Expr} {offset value : Operand} {s s₁ s' : Supply}
    {code code' : List Instruction} (hIndex : target.index.emitOperand.run s = ⟨offset, s₁, code⟩)
    (hValue : a.emitOperand.run s₁ = ⟨value, s', code'⟩) :
    TempsOn (fun _ => False) s.temps s (code ++ (code' ++ [.store target.array offset value]))
      s' := by
  obtain ⟨hCode, hOffset⟩ := (target.index.temps.operand []).of_run hIndex
  obtain ⟨hCode', hStored⟩ := (a.temps.operand []).of_run hValue
  refine hCode.append ((hCode'.mono hCode.le fun _ => id).append
    (.instruction ?_ rfl fun _ h => by cases h))
  simp only [List.forall_mem_singleton] at hOffset hStored
  simp [hOffset.mono (Nat.le_refl _) hCode'.le, hStored.mono hCode.le (Nat.le_refl _)]

/-- **Temporaries of statements.** The code of a statement accounts for its temporaries (`TempsOn`);
the labels outside are those of `Surrounding`. The induction is on `Stmt.Layout`. -/
theorem Stmt.Layout.temps {x : Stmt} {leave : Option Label} {start after : Label} {s s' : Supply}
    {code : List Instruction} (h : x.Layout leave start after s code s') :
    TempsOn (Surrounding leave start after) s.temps s code s' := by
  induction h with
  | null => exact .nil
  | seq_nil => exact .nil
  | seq_one _ ih => exact ih
  | seq_cons _ _ ihFirst ihOthers =>
    refine .reserve ((ihFirst.mono (Nat.le_refl _) ?_).append
      ((TempsOn.label _).append (ihOthers.mono ihFirst.le ?_)))
    · exact Surrounding.all (.inr (.inl rfl)) (.inl rfl) fun _ hLeave => .inr (.inr (.inr hLeave))
    · exact Surrounding.all (.inl rfl) (.inr (.inr (.inl rfl))) fun _ hLeave =>
        .inr (.inr (.inr hLeave))
  | ifThen hTest _ ih =>
    have hJumps := Expr.temps_jumps hTest
    refine .reserve ((hJumps.mono (Nat.le_refl _) ?_).append
      ((TempsOn.label _).append (ih.mono hJumps.le ?_)))
    · exact Target.Either.of_fails (.inr (.inr (.inl rfl)))
    · exact Surrounding.all (.inl rfl) (.inr (.inr (.inl rfl))) fun _ hLeave =>
        .inr (.inr (.inr hLeave))
  | @ifElse leave start after s s₁ s₂ s' c _ _ _ _ _ hTest _ _ ih ih' =>
    have hJumps := Expr.temps_jumps hTest
    have hGiven : Surrounding leave start after after := .inr (.inl rfl)
    -- two labels are reserved: for the branch that the condition fails to, and for the body
    refine .reserve (.reserve ((hJumps.mono (Nat.le_refl _) ?_).append ((TempsOn.label _).append
      ((ih.mono hJumps.le ?_).append ((TempsOn.jump (.inr (.inr hGiven))).append
        ((TempsOn.label _).append (ih'.mono (Nat.le_trans hJumps.le ih.le) ?_)))))))
    · exact Target.Either.of_fails (.inl rfl)
    · exact Surrounding.all (.inr (.inl rfl)) (.inr (.inr hGiven)) fun _ hLeave =>
        .inr (.inr (.inr (.inr hLeave)))
    · exact Surrounding.all (.inl rfl) (.inr (.inr hGiven)) fun _ hLeave =>
        .inr (.inr (.inr (.inr hLeave)))
  | whileLoop hTest _ ih =>
    have hJumps := Expr.temps_jumps hTest
    refine (hJumps.mono (Nat.le_refl _) ?_).append (.reserve ((TempsOn.label _).append
      ((ih.mono hJumps.le ?_).append (.jump (.inr (.inl rfl))))))
    · exact Target.Either.of_fails (.inr (.inl rfl))
    · exact Surrounding.all (.inl rfl) (.inr (.inl rfl))
        (Surrounding.breaks (.inr (.inr (.inl rfl))))
  | doLoop _ hTest ih =>
    have hJumps := Expr.temps_jumps hTest
    refine .reserve ((ih.mono (Nat.le_refl _) ?_).append
      ((TempsOn.label _).append (hJumps.mono ih.le ?_)))
    · exact Surrounding.all (.inr (.inl rfl)) (.inl rfl)
        (Surrounding.breaks (.inr (.inr (.inl rfl))))
    · exact Target.Either.of_succeeds (.inr (.inl rfl))
  | breakTo => exact .jump (.inr (.inr rfl))
  | set hValue => exact (Expr.temps_set hValue).mono (Nat.le_refl _) fun _ => False.elim
  | store hIndex hValue =>
    exact (Access.temps_store hIndex hValue).mono (Nat.le_refl _) fun _ => False.elim

end JumpCode
