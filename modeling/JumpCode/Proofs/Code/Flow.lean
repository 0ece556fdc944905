import JumpCode.Proofs.Code.Labels
import JumpCode.Proofs.Code.Temporaries
import Mathlib.Data.Set.Insert

/-!
# JumpCode — temporaries that have been written for certain

Whatever way control takes through a piece of code, some temporaries have been written when it comes
to an instruction. How many there are for certain is worked out from the start of the piece on: at a
label it is what has been written wherever control may come from.

Such a set goes with each label when the label is reserved, so the sets grow with the code: a piece
of code extends any sets for the labels reserved before it by sets for its own (`FlowsOn`).

* `Expr.defines` — the code of expressions reads only what has been written for certain.
-/

namespace JumpCode

open Emission

/-! ## What is known at instructions -/

/-- The temporaries that have been written for certain when control comes to a label. -/
abbrev Known := Label → Set Nat

/-- If an `Operand` is a temporary, it is in the set. -/
def Operand.In (D : Set Nat) (o : Operand) : Prop := ∀ t, o = .temp t → t ∈ D

theorem Operand.In.mono {D D' : Set Nat} {o : Operand} (h : o.In D) (hD : D ⊆ D') : o.In D' :=
  fun t ht => hD (h t ht)

/-- What has been written for certain behind an instruction, with `D` written before it. Behind a
jump control comes by way of a label alone. -/
@[simp] def Instruction.behind (δ : Known) (D : Set Nat) : Instruction → Set Nat
  | label l => δ l
  | jump _ => Set.univ
  | assign (.temp t) _ => insert t D
  | _ => D

/-- An instruction reads only what has been written for certain, and where control may go from it no
more is claimed to be written. -/
structure Instruction.Defined (δ : Known) (D : Set Nat) (i : Instruction) : Prop where
  reads (o : Operand) (hRead : o ∈ i.reads) : o.In D
  arrives (l : Label) (hArrives : i.target? = some l ∨ i = .label l) : δ l ⊆ D

/-- What has been written for certain behind a piece of code, by `Instruction.behind` from the start
of it. -/
def flow (δ : Known) (D : Set Nat) (code : List Instruction) : Set Nat :=
  code.foldl (fun D i => i.behind δ D) D

/-- All instructions of a piece of code read only what has been written for certain: each is
`Instruction.Defined` where it stands. -/
def Flows (δ : Known) : Set Nat → List Instruction → Prop
  | _, [] => True
  | D, i :: code => i.Defined δ D ∧ Flows δ (i.behind δ D) code

@[simp] theorem flow_nil (δ : Known) (D : Set Nat) : flow δ D [] = D := rfl

@[simp] theorem flow_append (δ : Known) (D : Set Nat) (a b : List Instruction) :
    flow δ D (a ++ b) = flow δ (flow δ D a) b := by simp [flow]

theorem flows_append {δ : Known} {D : Set Nat} {a b : List Instruction} :
    Flows δ D (a ++ b) ↔ Flows δ D a ∧ Flows δ (flow δ D a) b := by
  induction a generalizing D with
  | nil => simp [Flows]
  | cons i a ih => simp [Flows, flow, ih, and_assoc]

/-! ## Sets that grow with the code -/

/-- Two choices of sets give the labels that are reserved so far the same ones. -/
def Known.Agrees (δ δ' : Known) (s : Supply) : Prop := ∀ l : Label, l.number ≤ s.labels → δ l = δ' l

theorem Known.Agrees.trans {δ δ₁ δ₂ : Known} {s s' : Supply} (h : δ.Agrees δ₁ s)
    (h' : δ₁.Agrees δ₂ s') (hLe : s.labels ≤ s'.labels) : δ.Agrees δ₂ s := fun l hl =>
  (h l hl).trans (h' l (Nat.le_trans hl hLe))

/-- If `pre` holds of the sets for the labels reserved so far, whatever the others are, then with
sets for its own labels the code reads only what has been written, with `D` written before it and
`D'` behind. -/
structure FlowsOn (pre : Known → Prop) (s : Supply) (D : Set Nat) (code : List Instruction)
    (s' : Supply) (D' : Set Nat) : Prop where
  le : s.labels ≤ s'.labels
  extend (δ : Known) (hPre : ∀ δ', δ.Agrees δ' s → pre δ') :
    ∃ δ₁ : Known, δ.Agrees δ₁ s ∧ ∀ δ', δ₁.Agrees δ' s' → Flows δ' D code ∧ flow δ' D code = D'

namespace FlowsOn

variable {pre : Known → Prop} {s s₁ s' : Supply} {D D₁ D' : Set Nat} {code code' : List Instruction}

/-- A piece of code behind another one: the sets for the labels of the first extend to those of the
second. -/
theorem append (h : FlowsOn pre s D code s₁ D₁) (h' : FlowsOn pre s₁ D₁ code' s' D') :
    FlowsOn pre s D (code ++ code') s' D' where
  le := Nat.le_trans h.le h'.le
  extend δ hPre := by
    obtain ⟨δ₁, hAgrees, hFlows⟩ := h.extend δ hPre
    obtain ⟨δ₂, hAgrees', hFlows'⟩ := h'.extend δ₁ fun δ' hδ' => hPre δ' (hAgrees.trans hδ' h.le)
    refine ⟨δ₂, hAgrees.trans hAgrees' h.le, fun δ' hδ' => ?_⟩
    -- sets that agree behind the second piece agree behind the first one as well
    obtain ⟨hFirst, hMiddle⟩ := hFlows δ' (hAgrees'.trans hδ' h'.le)
    obtain ⟨hSecond, hEnd⟩ := hFlows' δ' hδ'
    rw [flows_append, flow_append, hMiddle]
    exact ⟨⟨hFirst, hSecond⟩, hEnd⟩

theorem nil : FlowsOn pre s D [] s D where
  le := Nat.le_refl _
  extend δ _ := ⟨δ, fun _ _ => rfl, fun _ _ => ⟨trivial, rfl⟩⟩

theorem instruction {i : Instruction} (h : ∀ δ, pre δ → i.Defined δ D ∧ i.behind δ D = D') :
    FlowsOn pre s D [i] s D' where
  le := Nat.le_refl _
  extend δ hPre := by
    refine ⟨δ, fun _ _ => rfl, fun δ' hδ' => ?_⟩
    obtain ⟨hDefined, hBehind⟩ := h δ' (hPre δ' hδ')
    exact ⟨⟨hDefined, trivial⟩, hBehind⟩

/-- A label may be reserved for any set `X`, which then is what `Known` says of it. -/
theorem reserveLabel (X : Set Nat)
    (h : FlowsOn (fun δ => pre δ ∧ δ s.nextLabel = X) s.skipLabel D code s' D') :
    FlowsOn pre s D code s' D' where
  le := Nat.le_trans (Nat.le_succ _) h.le
  extend δ hPre := by
    -- the new label gets its set; no label that is already reserved is the new one
    let δ₀ : Known := fun l => if l = s.nextLabel then X else δ l
    have hOld : δ.Agrees δ₀ s := by
      intro l hl
      have hNe : l ≠ s.nextLabel := by
        rintro rfl
        exact Nat.not_succ_le_self _ hl
      exact (if_neg hNe).symm
    -- what holds of the old labels is left as it is, since `pre` looks at no others
    have hPre' : ∀ δ', δ₀.Agrees δ' s.skipLabel → pre δ' ∧ δ' s.nextLabel = X := by
      intro δ' hδ'
      refine ⟨hPre δ' (hOld.trans hδ' (Nat.le_succ _)), ?_⟩
      exact (hδ' s.nextLabel (Nat.le_refl _)).symm.trans (if_pos rfl)
    obtain ⟨δ₁, hAgrees, hFlows⟩ := h.extend δ₀ hPre'
    exact ⟨δ₁, hOld.trans hAgrees (Nat.le_succ _), hFlows⟩

end FlowsOn

/-! ## Emissions -/

/-- Whatever supply an emission starts from, with `D` written before its code, the code reads only
what has been written, if `pre` holds of the labels around it; and `post` holds of what has been
written behind it and of its value. -/
def Defines {α : Type} (pre : Known → Prop) (D : Set Nat) (m : Emission α)
    (post : Set Nat → α → Prop) : Prop :=
  ∀ s, ∃ D', post D' (m.run s).value ∧ FlowsOn pre s D (m.run s).code (m.run s).supply D'

namespace Defines

variable {α β : Type} {pre : Known → Prop} {D : Set Nat} {m : Emission α} {f : α → Emission β}
  {mid mid' : Set Nat → α → Prop} {post : Set Nat → β → Prop}

theorem mono (h : Defines pre D m mid) (hPost : ∀ D a, mid D a → mid' D a) :
    Defines pre D m mid' := fun s => by
  obtain ⟨D', hMid, hFlows⟩ := h s
  exact ⟨D', hPost D' _ hMid, hFlows⟩

theorem pure {b : β} (h : post D b) : Defines pre D (pure b) post := fun _ => ⟨D, h, .nil⟩

theorem bind (h : Defines pre D m mid) (h' : ∀ a D', mid D' a → Defines pre D' (f a) post) :
    Defines pre D (m >>= f) post := by
  intro s
  obtain ⟨D₁, hMid, hFlows⟩ := h s
  obtain ⟨D', hPost, hFlows'⟩ := h' _ D₁ hMid (m.run s).supply
  exact ⟨D', hPost, hFlows.append hFlows'⟩

theorem emit {i : Instruction} {post : Set Nat → Unit → Prop} {D' : Set Nat}
    (h : ∀ δ, pre δ → i.Defined δ D ∧ i.behind δ D = D') (hPost : post D' ()) :
    Defines pre D (emit i) post := fun _ => ⟨D', hPost, .instruction h⟩

theorem newLabel_bind {f : Label → Emission β} (X : Set Nat)
    (h : ∀ l, Defines (fun δ => pre δ ∧ δ l = X) D (f l) post) :
    Defines pre D (newLabel >>= f) post := fun s => by
  obtain ⟨D', hPost, hFlows⟩ := h s.nextLabel s.skipLabel
  exact ⟨D', hPost, hFlows.reserveLabel⟩

theorem newTemp_bind {f : Operand → Emission β} (h : ∀ n, Defines pre D (f (.temp n)) post) :
    Defines pre D (newTemp >>= f) post := fun s => by
  obtain ⟨D', hPost, hFlows⟩ := h (s.temps + 1) ⟨s.labels, s.temps + 1⟩
  exact ⟨D', hPost, hFlows.le, hFlows.extend⟩

/-- A label may be reserved for a set with the temporary that is reserved next, although this has no
number yet. -/
theorem newLabel_newTemp_bind {f : Label → Operand → Emission β} (X : Nat → Set Nat)
    (h : ∀ l n, Defines (fun δ => pre δ ∧ δ l = X n) D (f l (.temp n)) post) :
    Defines pre D (newLabel >>= fun l => newTemp >>= f l) post := fun s => by
  obtain ⟨D', hPost, hFlows⟩ := h s.nextLabel (s.temps + 1) ⟨s.labels + 1, s.temps + 1⟩
  have hFlows' : FlowsOn _ s.skipLabel D _ _ D' := ⟨hFlows.le, hFlows.extend⟩
  exact ⟨D', hPost, hFlows'.reserveLabel⟩

end Defines

/-! ## Expressions -/

/-- The code for a value reads only what has been written, and so does the `Rvalue`. -/
def DefinesValue (_ : Expr) (v : Emission Rvalue) : Prop :=
  ∀ pre D, Defines pre D v fun D' value => D ⊆ D' ∧ ∀ o ∈ value.operands, o.In D'

/-- The code for an operand reads only what has been written, and the `Operand` has been written. -/
def DefinesOperand (_ : Expr) (o : Emission Operand) : Prop :=
  ∀ pre D, Defines pre D o fun D' operand => D ⊆ D' ∧ operand.In D'

/-- The code for jumps reads only what has been written, if no more is claimed to be written where
they go. -/
def DefinesJumps (_ : Expr) (j : Target → Target → Emission Unit) : Prop :=
  ∀ (onTrue onFalse : Target) (pre : Known → Prop) (D : Set Nat),
    (∀ δ, pre δ → ∀ l, Target.Either onTrue onFalse l → δ l ⊆ D) →
      Defines pre D (j onTrue onFalse) fun D' _ => D ⊆ D'

/-- Behind a jump everything may be claimed: control does not come there but by a label. -/
theorem defines_jump {pre : Known → Prop} {D : Set Nat} {l : Label} (h : ∀ δ, pre δ → δ l ⊆ D) :
    Defines pre D (emit (.jump l)) fun D' _ => D' = Set.univ := by
  refine .emit (fun δ hδ => ⟨⟨by simp, ?_⟩, rfl⟩) rfl
  rintro l' (⟨⟨⟩⟩ | ⟨⟨⟩⟩)
  exact h δ hδ

/-- Behind a label that has been written for certain which is so wherever control comes from. -/
theorem defines_mark {pre : Known → Prop} {D X : Set Nat} {l : Label} (h : ∀ δ, pre δ → δ l = X)
    (hX : X ⊆ D) : Defines pre D (mark l) fun D' _ => D' = X := by
  refine .emit (fun δ hδ => ⟨⟨by simp, ?_⟩, h δ hδ⟩) rfl
  rintro l' (⟨⟨⟩⟩ | ⟨⟨⟩⟩)
  exact (h δ hδ).symm ▸ hX

/-- Behind an assignment to a temporary it has been written besides. -/
theorem defines_assign {pre : Known → Prop} {D : Set Nat} {n : Nat} {value : Rvalue}
    (h : ∀ o ∈ value.operands, o.In D) :
    Defines pre D (emit (.assign (.temp n) value)) fun D' _ => D' = insert n D := by
  refine .emit (fun δ hδ => ⟨⟨h, ?_⟩, rfl⟩) rfl
  rintro l' (⟨⟨⟩⟩ | ⟨⟨⟩⟩)

theorem defines_jumpsOnTest {pre : Known → Prop} {D : Set Nat} {test : Test}
    {onTrue onFalse : Target} (hReads : ∀ o ∈ test.operands, o.In D)
    (hTargets : ∀ δ, pre δ → ∀ l, Target.Either onTrue onFalse l → δ l ⊆ D) :
    Defines pre D (jumpsOnTest test onTrue onFalse) fun D' _ => D ⊆ D' := by
  have hBranch (polarity : Bool) (l : Label) (hl : Target.Either onTrue onFalse l) :
      Defines pre D (emit (.branch test polarity l)) fun D' _ => D ⊆ D' := by
    refine .emit (fun δ hδ => ⟨⟨hReads, ?_⟩, rfl⟩) (Set.Subset.refl _)
    rintro l' (⟨⟨⟩⟩ | ⟨⟨⟩⟩)
    exact hTargets δ hδ l hl
  cases onTrue with
  | label l =>
    cases onFalse with
    | label l' =>
      -- a branch falls on to a jump, which nothing passes
      refine (hBranch true l (.inl rfl)).bind fun _ _ hD => ?_
      exact (defines_jump fun δ hδ => (hTargets δ hδ l' (.inr rfl)).trans hD).mono
        fun _ _ hAll => hAll ▸ Set.subset_univ _
    | fall => exact hBranch true l (.inl rfl)
  | fall =>
    cases onFalse with
    | label l' => exact hBranch false l' (.inr rfl)
    | fall => exact .pure (Set.Subset.refl _)

theorem defines_reduced {e : Expr} {v : Emission Rvalue} (h : DefinesValue e v) :
    DefinesOperand e (reduced v) := by
  refine fun pre D => (h pre D).bind fun value D' ⟨hD, hValue⟩ => ?_
  have hAssign : Defines pre D'
      (newTemp >>= fun temp => emit (.assign temp value) >>= fun _ => pure temp)
      fun D' operand => D ⊆ D' ∧ operand.In D' := by
    refine .newTemp_bind fun n => ?_
    refine (defines_assign hValue).bind fun _ D₁ hD₁ => .pure ?_
    subst hD₁
    refine ⟨hD.trans (Set.subset_insert n D'), ?_⟩
    rintro t ⟨⟩
    exact Set.mem_insert n D'
  -- only an operand that is there already needs no temporary
  cases value with
  | use o => exact .pure ⟨hD, hValue o (by simp [Rvalue.operands])⟩
  | _ => exact hAssign

/-- A truth value is written on both ways to the label behind it. -/
theorem defines_materialize {e : Expr} {j : Target → Target → Emission Unit}
    (h : DefinesJumps e j) : DefinesValue e (materialize j) := by
  intro pre D
  -- where the jumps fail nothing has been added, behind it all the truth value has been written
  refine .newLabel_bind D fun onFalse => .newLabel_newTemp_bind (insert · D) fun after n => ?_
  have hTruth (b : Bool) : ∀ o ∈ (Rvalue.use (.const (.bool b))).operands, ∀ D, o.In D := by
    simp [Rvalue.operands, Operand.In]
  refine (h .fall (.label onFalse) _ D fun δ hδ =>
    Target.Either.of_fails hδ.1.2.subset).bind fun _ D₁ hD₁ => ?_
  refine (defines_assign fun o ho => hTruth true o ho _).bind fun _ D₂ hD₂ => ?_
  subst hD₂
  -- behind the jump nothing is reached, so that everything counts as written there
  refine (defines_jump fun δ hδ => hδ.2.subset.trans (Set.insert_subset_insert hD₁)).bind
    fun _ D₃ hD₃ => ?_
  subst hD₃
  refine (defines_mark (fun δ hδ => hδ.1.2) (Set.subset_univ D)).bind fun _ D₄ hD₄ => ?_
  subst hD₄
  refine (defines_assign fun o ho => hTruth false o ho _).bind fun _ D₅ hD₅ => ?_
  subst hD₅
  refine (defines_mark (fun δ hδ => hδ.2) (Set.Subset.refl _)).bind fun _ D₆ hD₆ => .pure ?_
  subst hD₆
  refine ⟨Set.subset_insert n _, fun o ho => ?_⟩
  obtain rfl := List.mem_singleton.mp ho
  rintro t ⟨⟩
  exact Set.mem_insert n _

/-- Two conditions that are tested in a row, the second only as far as the first has fallen on. -/
theorem defines_row {a b : Expr} {l r : Target → Target → Emission Unit} (hLeft : DefinesJumps a l)
    (hRight : DefinesJumps b r) {t₁ t₂ t₃ t₄ : Target} {pre : Known → Prop} {D : Set Nat}
    (h : ∀ δ, pre δ → ∀ l, Target.Either t₁ t₂ l → δ l ⊆ D)
    (h' : ∀ δ, pre δ → ∀ l, Target.Either t₃ t₄ l → δ l ⊆ D) :
    Defines pre D (l t₁ t₂ >>= fun _ => r t₃ t₄) fun D' _ => D ⊆ D' :=
  (hLeft t₁ t₂ pre D h).bind fun _ _ hD =>
    (hRight t₃ t₄ pre _ fun δ hδ l hl => (h' δ hδ l hl).trans hD).mono fun _ _ => hD.trans

/-- What the combinators of code do with what has been written, as `Expr.CodeRules`. -/
theorem defines_rules : Expr.CodeRules DefinesValue DefinesOperand DefinesJumps where
  const c pre D := .pure ⟨Set.Subset.refl _, by simp [Rvalue.operands, Operand.In]⟩
  var x pre D := .pure ⟨Set.Subset.refl _, by simp [Rvalue.operands, Operand.In]⟩
  access array index type i h pre D :=
    (h pre D).bind fun o D' ⟨hD, ho⟩ => .pure ⟨hD, by simpa [Rvalue.operands] using ho⟩
  arith op lhs rhs type l r hLeft hRight pre D :=
    (hLeft pre D).bind fun a D₁ ⟨hD₁, ha⟩ => (hRight pre D₁).bind fun b D₂ ⟨hD₂, hb⟩ =>
      .pure ⟨hD₁.trans hD₂, by simpa [Rvalue.operands] using ⟨ha.mono hD₂, hb⟩⟩
  neg operand type o h pre D :=
    (h pre D).bind fun a D' ⟨hD, ha⟩ => .pure ⟨hD, by simpa [Rvalue.operands] using ha⟩
  materialize e j _ _ h := defines_materialize h
  reduced e v h := defines_reduced h
  truth b onTrue onFalse pre D hTargets := by
    have hGoto (t : Target) (ht : ∀ l, t = .label l → Target.Either onTrue onFalse l) :
        Defines pre D (goto t) fun D' _ => D ⊆ D' := by
      cases t with
      | label l =>
        -- behind a jump everything counts as written
        exact (defines_jump fun δ hδ => hTargets δ hδ l (ht l rfl)).mono fun _ _ hAll =>
          hAll ▸ Set.subset_univ _
      | fall => exact .pure (Set.Subset.refl _)
    cases b with
    | true => exact hGoto onTrue fun _ => .inl
    | false => exact hGoto onFalse fun _ => .inr
  value e o _ h onTrue onFalse pre D hTargets := by
    refine (h pre D).bind fun a D' ⟨hD, ha⟩ => ?_
    refine (defines_jumpsOnTest ?_ fun δ hδ l hl => (hTargets δ hδ l hl).trans hD).mono
      fun _ _ => hD.trans
    simpa [Test.operands] using ha
  not operand j h onTrue onFalse pre D hTargets :=
    h onFalse onTrue pre D fun δ hδ l hl => hTargets δ hδ l hl.symm
  rel op lhs rhs l r hLeft hRight onTrue onFalse pre D hTargets := by
    refine (hLeft pre D).bind fun a D₁ ⟨hD₁, ha⟩ => (hRight pre D₁).bind fun b D₂ ⟨hD₂, hb⟩ => ?_
    have hD := hD₁.trans hD₂
    refine (defines_jumpsOnTest ?_ fun δ hδ l hl => (hTargets δ hδ l hl).trans hD).mono
      fun _ _ => hD.trans
    simpa [Test.operands] using ⟨ha.mono hD₂, hb⟩
  and lhs rhs l r hLeft hRight onTrue onFalse pre D hTargets := by
    cases onFalse with
    | label onFalse =>
      refine defines_row hLeft hRight (fun δ hδ => ?_) hTargets
      exact Target.Either.of_fails (hTargets δ hδ onFalse (.inr rfl))
    | fall =>
      -- at the label behind the code nothing has been added
      refine .newLabel_bind D fun onFalse => ?_
      refine (hLeft .fall (.label onFalse) _ D fun δ hδ =>
        Target.Either.of_fails hδ.2.subset).bind fun _ D₁ hD₁ => ?_
      refine (hRight onTrue .fall _ D₁ fun δ hδ l hl =>
        (hTargets δ hδ.1 l hl).trans hD₁).bind fun _ D₂ hD₂ => ?_
      exact (defines_mark (fun δ hδ => hδ.2) (hD₁.trans hD₂)).mono fun _ _ hEnd => hEnd.symm.subset
  or lhs rhs l r hLeft hRight onTrue onFalse pre D hTargets := by
    cases onTrue with
    | label onTrue =>
      refine defines_row hLeft hRight (fun δ hδ => ?_) hTargets
      exact Target.Either.of_succeeds (hTargets δ hδ onTrue (.inl rfl))
    | fall =>
      -- and so it is where the first condition holds
      refine .newLabel_bind D fun onTrue => ?_
      refine (hLeft (.label onTrue) .fall _ D fun δ hδ =>
        Target.Either.of_succeeds hδ.2.subset).bind fun _ D₁ hD₁ => ?_
      refine (hRight .fall onFalse _ D₁ fun δ hδ l hl =>
        (hTargets δ hδ.1 l hl).trans hD₁).bind fun _ D₂ hD₂ => ?_
      exact (defines_mark (fun δ hδ => hδ.2) (hD₁.trans hD₂)).mono fun _ _ hEnd => hEnd.symm.subset

/-- **The code of expressions reads only what has been written**, whatever it has been made for: a
value, an operand or jumps. -/
theorem Expr.defines (e : Expr) : e.HasCode DefinesValue DefinesOperand DefinesJumps :=
  e.emission_induction defines_rules

/-! ## Code by itself -/

/-- Code that starts with nothing written: there are sets with which it `Flows`, if nothing is
claimed to be written at the labels that have been reserved before. -/
theorem Defines.exists_flows {α : Type} {m : Emission α} {s s' : Supply} {a : α}
    {code : List Instruction} (hRun : m.run s = ⟨a, s', code⟩)
    (h : Defines (fun δ => ∀ l : Label, l.number ≤ s.labels → δ l = ∅) ∅ m fun _ _ => True) :
    ∃ δ, Flows δ ∅ code := by
  obtain ⟨D', -, hFlows⟩ := h s
  obtain ⟨δ, -, hAll⟩ := hFlows.extend (fun _ => ∅) fun δ' hδ' l hl => (hδ' l hl).symm
  rw [hRun] at hAll
  exact ⟨δ, (hAll δ fun _ _ => rfl).1⟩

/-- An instruction that goes nowhere else and writes no temporary. -/
theorem defines_last {pre : Known → Prop} {D : Set Nat} {i : Instruction}
    (hReads : ∀ o ∈ i.reads, o.In D) (hTarget : i.target? = none) (hLabel : ∀ l, i ≠ .label l)
    (hBehind : ∀ δ, i.behind δ D = D) : Defines pre D (emit i) fun _ _ => True := by
  refine .emit (fun δ hδ => ⟨⟨hReads, ?_⟩, hBehind δ⟩) trivial
  rintro l (h | rfl)
  · rw [hTarget] at h
    cases h
  · exact absurd rfl (hLabel l)

theorem Expr.flows_jumps {c : Expr} {onTrue onFalse : Target} {s s' : Supply}
    {code : List Instruction} (hRun : (c.emitJumps onTrue onFalse).run s = ⟨(), s', code⟩)
    (hTargets : ∀ l, Target.Either onTrue onFalse l → l.number ≤ s.labels) :
    ∃ δ, Flows δ ∅ code :=
  Defines.exists_flows hRun ((c.defines.jumps onTrue onFalse _ ∅ fun _ hδ l hl =>
    (hδ l (hTargets l hl)).subset).mono fun _ _ _ => trivial)

theorem Expr.flows_set {a : Expr} {x : Symbol} {value : Rvalue} {s s' : Supply}
    {code : List Instruction} (hRun : a.emitValue.run s = ⟨value, s', code⟩) :
    ∃ δ, Flows δ ∅ (code ++ [.assign (.var x) value]) := by
  have hWhole : (a.emitValue >>= fun value => emit (.assign (.var x) value)).run s =
      ⟨(), s', code ++ [.assign (.var x) value]⟩ := by
    rw [run_bind, hRun]
    rfl
  refine Defines.exists_flows hWhole ((a.defines.value _ ∅).bind fun value D ⟨_, hValue⟩ => ?_)
  exact defines_last hValue rfl (by simp) fun _ => rfl

theorem Access.flows_store {target : Access} {a : Expr} {offset value : Operand} {s s₁ s' : Supply}
    {code code' : List Instruction} (hIndex : target.index.emitOperand.run s = ⟨offset, s₁, code⟩)
    (hValue : a.emitOperand.run s₁ = ⟨value, s', code'⟩) :
    ∃ δ, Flows δ ∅ (code ++ (code' ++ [.store target.array offset value])) := by
  have hWhole : (target.index.emitOperand >>= fun offset => a.emitOperand >>= fun value =>
      emit (.store target.array offset value)).run s =
        ⟨(), s', code ++ (code' ++ [.store target.array offset value])⟩ := by
    rw [run_bind, hIndex, run_bind, hValue]
    rfl
  refine Defines.exists_flows hWhole ((target.index.defines.operand _ ∅).bind
    fun offset D ⟨_, hOffset⟩ => (a.defines.operand _ D).bind fun value D' ⟨hD, hStored⟩ => ?_)
  exact defines_last (by simp [hOffset.mono hD, hStored]) rfl (by simp) fun _ => rfl

end JumpCode
