import JumpCode.Proofs.Code.ExprInduction
import JumpCode.Proofs.Code.Layout

/-!
# JumpCode — labels of a piece of code

Every label that is reserved while a piece of code is emitted is marked in it, once, and jumps go
to labels of the piece or to those that were handed to it.

Since labels are reserved in one place and marked in another, `LabelsOn` keeps account of labels
that a piece marks though they have been reserved before it. Reserving one settles the account
(`LabelsOn.reserve`).

* `Expr.labels` — the code of expressions;
* `Stmt.Layout.labels` — the code of statements;
* `Program.CodeOn.labels` — the code of programs.
-/

namespace JumpCode

open Emission

/-- The label that an instruction may jump to, if it is a jump or a branch. -/
def Instruction.target? : Instruction → Option Label
  | jump target => some target
  | branch _ _ target => some target
  | _ => none

/-- A label has been reserved between two supplies, behind the first and up to the second. -/
def Label.Between (l : Label) (s s' : Supply) : Prop := s.labels < l.number ∧ l.number ≤ s'.labels

/-- How often a label is among those reserved between two supplies: once if it is `Label.Between`
them, and else never. -/
def Label.share (l : Label) (s s' : Supply) : Nat :=
  if s.labels < l.number ∧ l.number ≤ s'.labels then 1 else 0

theorem Label.share_self (l : Label) (s : Supply) : l.share s s = 0 := by
  unfold share
  split <;> omega

/-- What is reserved in two stretches is reserved in one or in the other. -/
theorem Label.share_append (l : Label) {s s₁ s' : Supply} (hLe : s.labels ≤ s₁.labels)
    (hLe' : s₁.labels ≤ s'.labels) : l.share s s₁ + l.share s₁ s' = l.share s s' := by
  unfold share
  split <;> split <;> split <;> omega

/-- The next label is the first of those that are reserved from here on. -/
theorem Label.share_skipLabel (l : Label) {s s' : Supply} (hLe : s.labels + 1 ≤ s'.labels) :
    l.share s.skipLabel s' + (if s.nextLabel = l then 1 else 0) = l.share s s' := by
  -- a label is its number
  have hNext : s.nextLabel = l ↔ s.labels + 1 = l.number := by
    obtain ⟨number⟩ := l
    rw [Supply.nextLabel, Label.mk.injEq]
  simp only [hNext]
  show (if s.labels + 1 < l.number ∧ l.number ≤ s'.labels then 1 else 0) + _ =
    if s.labels < l.number ∧ l.number ≤ s'.labels then 1 else 0
  split <;> split <;> split <;> omega

/-! ## Accounts of labels -/

/-- A piece of code marks the labels that are reserved with it once each, and those that it owes;
its jumps go to its own labels or to labels outside. -/
structure LabelsOn (outside : Label → Prop) (owed : List Label) (s : Supply)
    (code : List Instruction) (s' : Supply) : Prop where
  le : s.labels ≤ s'.labels
  marks (l : Label) :
    code.count (.label l) = l.share s s' + owed.count l
  targets (i : Instruction) (hCode : i ∈ code) (l : Label) (hTarget : i.target? = some l) :
    l.Between s s' ∨ outside l

namespace LabelsOn

variable {outside outside' : Label → Prop} {owed owed' : List Label} {s s₁ s' : Supply}
  {code code' : List Instruction} {l : Label}

theorem mono (h : LabelsOn outside owed s code s') (hOutside : ∀ l, outside l → outside' l) :
    LabelsOn outside' owed s code s' where
  le := h.le
  marks := h.marks
  targets i hCode l hTarget := (h.targets i hCode l hTarget).imp_right (hOutside l)

theorem perm (h : LabelsOn outside owed s code s') (hPerm : owed.Perm owed') :
    LabelsOn outside owed' s code s' where
  le := h.le
  marks l := by rw [h.marks l, hPerm.count_eq]
  targets := h.targets

theorem nil : LabelsOn outside [] s [] s where
  le := Nat.le_refl _
  marks l := by
    rw [l.share_self]
    rfl
  targets i hCode := absurd hCode List.not_mem_nil

/-- Two pieces one behind the other mark what both mark, and owe what both owe. -/
theorem append (h : LabelsOn outside owed s code s₁) (h' : LabelsOn outside owed' s₁ code' s') :
    LabelsOn outside (owed ++ owed') s (code ++ code') s' where
  le := Nat.le_trans h.le h'.le
  marks l := by
    -- the ranges of the two pieces are next to each other
    rw [List.count_append, List.count_append, h.marks l, h'.marks l, ← l.share_append h.le h'.le]
    omega
  targets i hCode l hTarget := by
    have hLe := h.le
    have hLe' := h'.le
    unfold Label.Between
    rcases List.mem_append.mp hCode with hFirst | hSecond
    · rcases h.targets i hFirst l hTarget with ⟨_, _⟩ | hOut
      · left
        omega
      · exact .inr hOut
    · rcases h'.targets i hSecond l hTarget with ⟨_, _⟩ | hOut
      · left
        omega
      · exact .inr hOut

/-- An instruction that is no label may jump outside. -/
theorem instruction {i : Instruction} (hLabel : ∀ l, i ≠ .label l)
    (hTarget : ∀ l, i.target? = some l → outside l) : LabelsOn outside [] s [i] s where
  le := Nat.le_refl _
  marks l := by
    rw [l.share_self, List.count_singleton, beq_eq_false_iff_ne.mpr (hLabel l)]
    rfl
  targets j hCode l hj := by
    rw [List.mem_singleton] at hCode
    subst hCode
    exact .inr (hTarget l hj)

/-- A jump goes outside. -/
theorem jump (h : outside l) : LabelsOn outside [] s [.jump l] s :=
  instruction (fun _ => Instruction.noConfusion) fun _ hTarget => Option.some.inj hTarget ▸ h

/-- A label by itself is owed: it has been reserved elsewhere. -/
theorem mark (l : Label) : LabelsOn outside [l] s [.label l] s where
  le := Nat.le_refl _
  marks l' := by
    rw [l'.share_self, Nat.zero_add, List.count_singleton, List.count_singleton]
    by_cases hSame : l = l'
    · simp [hSame]
    · simp [hSame]
  targets i hCode l' hTarget := by
    rw [List.mem_singleton] at hCode
    subst hCode
    cases hTarget

/-- A label that is reserved for a piece of code is one of its own: what the piece owed is settled.
-/
theorem reserve (h : LabelsOn (fun l => l = s.nextLabel ∨ outside l) (s.nextLabel :: owed)
    s.skipLabel code s') : LabelsOn outside owed s code s' where
  le := Nat.le_trans (Nat.le_succ _) h.le
  marks l := by
    -- the label that was owed is the one by which the range grows
    rw [h.marks l, List.count_cons, ← l.share_skipLabel h.le]
    simp only [beq_iff_eq]
    omega
  targets i hCode l hTarget := by
    have hLe : s.labels + 1 ≤ s'.labels := h.le
    unfold Label.Between
    rcases h.targets i hCode l hTarget with ⟨hLow, hHigh⟩ | rfl | hOut
    · rw [Supply.skipLabel_labels] at hLow
      left
      omega
    · rw [Supply.nextLabel_number]
      left
      omega
    · exact .inr hOut

/-- A piece of code that owes no labels marks those that are reserved with it and no others. -/
theorem label_mem_iff (h : LabelsOn outside [] s code s') : .label l ∈ code ↔ l.Between s s' := by
  rw [← List.count_pos_iff, h.marks l, List.count_nil, Nat.add_zero, Label.share]
  unfold Label.Between
  split <;> simp_all

end LabelsOn

/-! ## Emissions -/

/-- Whatever supply an emission starts from, the labels of its code are in order (`LabelsOn`). -/
def Labels {α : Type} (outside : Label → Prop) (owed : List Label) (m : Emission α) : Prop :=
  ∀ s, LabelsOn outside owed s (m.run s).code (m.run s).supply

namespace Labels

variable {α β : Type} {outside outside' : Label → Prop} {owed owed' : List Label}
  {m : Emission α} {f : α → Emission β}

theorem mono (h : Labels outside owed m) (hOutside : ∀ l, outside l → outside' l) :
    Labels outside' owed m := fun s => (h s).mono hOutside

theorem perm (h : Labels outside owed m) (hPerm : owed.Perm owed') : Labels outside owed' m :=
  fun s => (h s).perm hPerm

theorem pure (a : α) : Labels outside [] (pure a : Emission α) := fun _ => .nil

theorem bind (h : Labels outside owed m) (h' : ∀ a, Labels outside owed' (f a)) :
    Labels outside (owed ++ owed') (m >>= f) := fun s => (h s).append (h' _ _)

theorem newLabel_bind {f : Label → Emission β}
    (h : ∀ l, Labels (fun l' => l' = l ∨ outside l') (l :: owed) (f l)) :
    Labels outside owed (newLabel >>= f) := fun s => .reserve (h s.nextLabel s.skipLabel)

theorem newTemp_bind {f : Operand → Emission β} (h : ∀ o, Labels outside owed (f o)) :
    Labels outside owed (newTemp >>= f) := fun s =>
  have hRest := h (.temp (s.temps + 1)) ⟨s.labels, s.temps + 1⟩
  ⟨hRest.le, hRest.marks, hRest.targets⟩

theorem emit {i : Instruction} (hLabel : ∀ l, i ≠ .label l)
    (hTarget : ∀ l, i.target? = some l → outside l) : Labels outside [] (emit i) :=
  fun _ => .instruction hLabel hTarget

theorem assign (target : Operand) (value : Rvalue) :
    Labels outside [] (Emission.emit (.assign target value)) :=
  emit (fun _ => Instruction.noConfusion) fun _ h => by cases h

theorem jump {l : Label} (h : outside l) : Labels outside [] (Emission.emit (.jump l)) :=
  fun _ => .jump h

theorem branch {l : Label} (test : Test) (polarity : Bool) (h : outside l) :
    Labels outside [] (Emission.emit (.branch test polarity l)) :=
  emit (fun _ => Instruction.noConfusion) fun _ hTarget => Option.some.inj hTarget ▸ h

theorem mark (l : Label) : Labels outside [l] (mark l) := fun _ => .mark l

end Labels

/-! ## Expressions -/

/-- A label is one of two targets. -/
def Target.Either (onTrue onFalse : Target) (l : Label) : Prop :=
  onTrue = .label l ∨ onFalse = .label l

/-- What holds of the label where a test fails to holds of all its targets. -/
theorem Target.Either.of_fails {P : Label → Prop} {l : Label} (h : P l) :
    ∀ l', Target.Either .fall (.label l) l' → P l' := by
  rintro l' (hNone | hLabel)
  · cases hNone
  · exact Target.label.inj hLabel ▸ h

/-- What holds of the label where a test succeeds to holds of all its targets. -/
theorem Target.Either.of_succeeds {P : Label → Prop} {l : Label} (h : P l) :
    ∀ l', Target.Either (.label l) .fall l' → P l' := by
  rintro l' (hLabel | hNone)
  · exact Target.label.inj hLabel ▸ h
  · cases hNone

theorem labels_jumpsOnTest (test : Test) (onTrue onFalse : Target) :
    Labels (Target.Either onTrue onFalse) [] (jumpsOnTest test onTrue onFalse) := by
  cases onTrue with
  | label l =>
    cases onFalse with
    | label l' => exact (Labels.branch test true (.inl rfl)).bind fun _ => .jump (.inr rfl)
    | fall => exact .branch test true (.inl rfl)
  | fall =>
    cases onFalse with
    | label l' => exact .branch test false (.inr rfl)
    | fall => exact .pure ()

theorem labels_reduced {outside : Label → Prop} {v : Emission Rvalue}
    (h : Labels outside [] v) : Labels outside [] (reduced v) := by
  refine h.bind fun value => ?_
  cases value with
  | use o => exact .pure o
  | _ => exact .newTemp_bind fun o => (Labels.assign o _).bind fun _ => .pure o

theorem labels_materialize {j : Target → Target → Emission Unit} {outside : Label → Prop}
    (h : ∀ onTrue onFalse, Labels (Target.Either onTrue onFalse) [] (j onTrue onFalse)) :
    Labels outside [] (materialize j) := by
  refine .newLabel_bind fun onFalse => .newLabel_bind fun after => .newTemp_bind fun temp => ?_
  -- both labels are owed until they are marked
  refine Labels.perm ?_ (List.Perm.swap after onFalse [])
  have hJumps : Labels (fun l => l = after ∨ l = onFalse ∨ outside l) []
      (j .fall (.label onFalse)) :=
    (h .fall (.label onFalse)).mono (Target.Either.of_fails (.inr (.inl rfl)))
  exact hJumps.bind fun _ => (Labels.assign _ _).bind fun _ =>
    (Labels.jump (.inl rfl)).bind fun _ => (Labels.mark onFalse).bind fun _ =>
      (Labels.assign _ _).bind fun _ => (Labels.mark after).bind fun _ => .pure _

theorem labels_jumpsOnBoth {l r : Target → Target → Emission Unit}
    (hLeft : ∀ onTrue onFalse, Labels (Target.Either onTrue onFalse) [] (l onTrue onFalse))
    (hRight : ∀ onTrue onFalse, Labels (Target.Either onTrue onFalse) [] (r onTrue onFalse))
    (onTrue onFalse : Target) :
    Labels (Target.Either onTrue onFalse) [] (jumpsOnBoth l r onTrue onFalse) := by
  cases onFalse with
  | label onFalse =>
    -- with a label to fail to, none has to be reserved
    exact ((hLeft .fall (.label onFalse)).mono (Target.Either.of_fails (.inr rfl))).bind fun _ =>
      hRight onTrue (.label onFalse)
  | fall =>
    -- otherwise the first test fails over the second one
    refine .newLabel_bind fun onFalse => ?_
    exact ((hLeft .fall (.label onFalse)).mono (Target.Either.of_fails (.inl rfl))).bind fun _ =>
      ((hRight onTrue .fall).mono fun _ => .inr).bind fun _ => .mark onFalse

theorem labels_jumpsOnEither {l r : Target → Target → Emission Unit}
    (hLeft : ∀ onTrue onFalse, Labels (Target.Either onTrue onFalse) [] (l onTrue onFalse))
    (hRight : ∀ onTrue onFalse, Labels (Target.Either onTrue onFalse) [] (r onTrue onFalse))
    (onTrue onFalse : Target) :
    Labels (Target.Either onTrue onFalse) [] (jumpsOnEither l r onTrue onFalse) := by
  cases onTrue with
  | label onTrue =>
    -- with a label to succeed to, none has to be reserved
    exact ((hLeft (.label onTrue) .fall).mono (Target.Either.of_succeeds (.inl rfl))).bind fun _ =>
      hRight (.label onTrue) onFalse
  | fall =>
    -- otherwise the first test succeeds over the second one
    refine .newLabel_bind fun onTrue => ?_
    exact ((hLeft (.label onTrue) .fall).mono (Target.Either.of_succeeds (.inl rfl))).bind fun _ =>
      ((hRight .fall onFalse).mono fun _ => .inr).bind fun _ => .mark onTrue

/-- What the combinators of code do with labels, as `Expr.CodeRules`. -/
theorem labels_rules : Expr.CodeRules (fun _ v => Labels (fun _ => False) [] v)
    (fun _ o => Labels (fun _ => False) [] o)
    (fun _ j => ∀ onTrue onFalse, Labels (Target.Either onTrue onFalse) [] (j onTrue onFalse))
    where
  const _ := .pure _
  var _ := .pure _
  access _ _ _ _ h := h.bind fun _ => .pure _
  arith _ _ _ _ _ _ hLeft hRight := hLeft.bind fun _ => hRight.bind fun _ => .pure _
  neg _ _ _ h := h.bind fun _ => .pure _
  materialize _ _ _ _ h := labels_materialize h
  reduced _ _ h := labels_reduced h
  truth b onTrue onFalse := by
    cases b with
    | true =>
      cases onTrue with
      | label l => exact .jump (.inl rfl)
      | fall => exact .pure ()
    | false =>
      cases onFalse with
      | label l => exact .jump (.inr rfl)
      | fall => exact .pure ()
  value _ _ _ h onTrue onFalse :=
    (h.mono fun _ => False.elim).bind fun o => labels_jumpsOnTest (.truth o) onTrue onFalse
  not _ _ h onTrue onFalse := (h onFalse onTrue).mono fun _ => Or.symm
  rel op _ _ _ _ hLeft hRight onTrue onFalse :=
    (hLeft.mono fun _ => False.elim).bind fun a => (hRight.mono fun _ => False.elim).bind fun b =>
      labels_jumpsOnTest (.compare op a b) onTrue onFalse
  and _ _ _ _ hLeft hRight := labels_jumpsOnBoth hLeft hRight
  or _ _ _ _ hLeft hRight := labels_jumpsOnEither hLeft hRight

/-- **Labels of expressions.** Code for values and operands jumps within itself alone, and code for
jumps also to its targets; both mark what they reserve (`Labels`). -/
theorem Expr.labels (e : Expr) : e.HasCode (fun _ v => Labels (fun _ => False) [] v)
    (fun _ o => Labels (fun _ => False) [] o)
    (fun _ j => ∀ onTrue onFalse, Labels (Target.Either onTrue onFalse) [] (j onTrue onFalse)) :=
  e.emission_induction labels_rules

/-! ## Statements -/

/-- The labels of the code that an emission has come to. -/
theorem Labels.of_run {α : Type} {outside : Label → Prop} {owed : List Label} {m : Emission α}
    {s s' : Supply} {a : α} {code : List Instruction} (h : Labels outside owed m)
    (hRun : m.run s = ⟨a, s', code⟩) : LabelsOn outside owed s code s' := by
  have hLabels := h s
  rw [hRun] at hLabels
  exact hLabels

/-- A label is handed to the code of a statement: `start` and `after`, and `leave` if the statement
is in a loop. -/
def Surrounding (leave : Option Label) (start after l : Label) : Prop :=
  l = start ∨ l = after ∨ leave = some l

/-- What holds of the labels around a statement one by one holds of them all. -/
theorem Surrounding.all {P : Label → Prop} {leave : Option Label} {start after : Label}
    (hStart : P start) (hAfter : P after) (hLeave : ∀ l, leave = some l → P l) :
    ∀ l, Surrounding leave start after l → P l := by
  rintro l (rfl | rfl | hSame)
  · exact hStart
  · exact hAfter
  · exact hLeave l hSame

/-- A loop hands one label to its body for breaks. -/
theorem Surrounding.breaks {P : Label → Prop} {after : Label} (h : P after) :
    ∀ l, some after = some l → P l := fun _ hSame => Option.some.inj hSame ▸ h

/-- **Labels of statements.** The code of a statement marks its own labels, and its jumps go to
them, to the labels around it, or behind the innermost loop (`Surrounding`). -/
theorem Stmt.Layout.labels {x : Stmt} {leave : Option Label} {start after : Label} {s s' : Supply}
    {code : List Instruction} (h : x.Layout leave start after s code s') :
    LabelsOn (Surrounding leave start after) [] s code s' := by
  induction h with
  | null => exact .nil
  | seq_nil => exact .nil
  | seq_one _ ih => exact ih
  | @seq_cons leave start after s _ _ _ _ _ _ _ _ _ ihFirst ihOthers =>
    -- the label between the parts is the end of the one and the start of the other
    refine .reserve ((ihFirst.mono ?_).append ((LabelsOn.mark _).append (ihOthers.mono ?_)))
    · exact Surrounding.all (.inr (.inl rfl)) (.inl rfl) fun _ hLeave => .inr (.inr (.inr hLeave))
    · exact Surrounding.all (.inl rfl) (.inr (.inr (.inl rfl))) fun _ hLeave =>
        .inr (.inr (.inr hLeave))
  | @ifThen leave start after s s₁ _ c _ _ _ hTest _ ih =>
    have hJumps := (c.labels.jumps .fall (.label after)).of_run hTest
    refine .reserve ((hJumps.mono ?_).append ((LabelsOn.mark _).append (ih.mono ?_)))
    · exact Target.Either.of_fails (.inr (.inr (.inl rfl)))
    · exact Surrounding.all (.inl rfl) (.inr (.inr (.inl rfl))) fun _ hLeave =>
        .inr (.inr (.inr hLeave))
  | @ifElse leave start after s s₁ s₂ s' c _ _ _ _ _ hTest _ _ ih ih' =>
    have hJumps := (c.labels.jumps .fall (.label s.skipLabel.nextLabel)).of_run hTest
    -- both branches end behind the statement
    have hGiven : Surrounding leave start after after := .inr (.inl rfl)
    -- the labels are reserved in one order and owed in the other
    refine .reserve (.reserve (.perm ?_ (List.Perm.swap s.skipLabel.nextLabel s.nextLabel [])))
    refine (hJumps.mono ?_).append ((LabelsOn.mark _).append ((ih.mono ?_).append
      ((LabelsOn.jump (.inr (.inr hGiven))).append ((LabelsOn.mark _).append (ih'.mono ?_)))))
    · exact Target.Either.of_fails (.inl rfl)
    · exact Surrounding.all (.inr (.inl rfl)) (.inr (.inr hGiven)) fun _ hLeave =>
        .inr (.inr (.inr (.inr hLeave)))
    · exact Surrounding.all (.inl rfl) (.inr (.inr hGiven)) fun _ hLeave =>
        .inr (.inr (.inr (.inr hLeave)))
  | @whileLoop leave start after s s₁ _ _ c _ _ _ hTest _ ih =>
    have hJumps := (c.labels.jumps .fall (.label after)).of_run hTest
    -- falling off the body goes back to the start, and a break to the end
    refine (hJumps.mono ?_).append (.reserve ((LabelsOn.mark _).append ((ih.mono ?_).append
      (.jump (.inr (.inl rfl))))))
    · exact Target.Either.of_fails (.inr (.inl rfl))
    · exact Surrounding.all (.inl rfl) (.inr (.inl rfl))
        (Surrounding.breaks (.inr (.inr (.inl rfl))))
  | @doLoop leave start after s s₁ s' _ c _ _ _ _ hTest ih =>
    have hJumps := (c.labels.jumps (.label start) .fall).of_run hTest
    -- the body falls through to the test, which goes back to the start
    refine .reserve ((ih.mono ?_).append ((LabelsOn.mark _).append (hJumps.mono ?_)))
    · exact Surrounding.all (.inr (.inl rfl)) (.inl rfl)
        (Surrounding.breaks (.inr (.inr (.inl rfl))))
    · exact Target.Either.of_succeeds (.inr (.inl rfl))
  | breakTo => exact .jump (.inr (.inr rfl))
  | @set leave start after s s' x a value code hValue =>
    have hCode := a.labels.value.of_run hValue
    exact (hCode.mono fun _ => False.elim).append
      (.instruction (fun _ => Instruction.noConfusion) fun _ h => by cases h)
  | @store leave start after s s₁ s' target a offset value code code' hIndex hValue =>
    have hOffset := target.index.labels.operand.of_run hIndex
    have hCode := a.labels.operand.of_run hValue
    exact (hOffset.mono fun _ => False.elim).append ((hCode.mono fun _ => False.elim).append
      (.instruction (fun _ => Instruction.noConfusion) fun _ h => by cases h))

/-- **Labels of programs.** All labels that are reserved with a program are marked in its code,
once, and no jump leaves it. -/
theorem Program.CodeOn.labels {p : Program} {s s' : Supply} {code : List Instruction}
    (h : p.CodeOn s code s') : LabelsOn (fun _ => False) [] s code s' := by
  obtain ⟨body, rfl, hLayout⟩ := h
  refine .reserve (.reserve (.perm ?_ (List.Perm.swap s.skipLabel.nextLabel s.nextLabel [])))
  refine (LabelsOn.mark _).append ((hLayout.labels.mono ?_).append (.mark _))
  -- outside of all loops there is no break
  exact Surrounding.all (.inr (.inl rfl)) (.inl rfl) fun _ hNone => by cases hNone

end JumpCode
