import JumpCode.Proofs.Formed
import JumpCode.Stmt.Emission

/-!
# JumpCode — the layout of code for statements

Emission looks up where a break goes among the exits that have been bound. `Stmt.Layout` says of a
piece of code that it is what a statement comes to, with the label behind the innermost loop given
beforehand; so each form of statement has its parts in plain sight.

* `Emits` — an emission for statements comes to a value and a piece of code;
* `Stmt.Formed.layout` — for a well-formed statement emission never fails, and its code is laid out
  so, whatever exits have been bound before.
-/

namespace JumpCode

open Emission LoopEmission

/-! ## Supplies -/

namespace Supply

/-- The label that is reserved next from a `Supply`. -/
def nextLabel (s : Supply) : Label := ⟨s.labels + 1⟩

/-- The `Supply` behind the label that is reserved next. -/
def skipLabel (s : Supply) : Supply := ⟨s.labels + 1, s.temps⟩

@[simp] theorem skipLabel_labels (s : Supply) : s.skipLabel.labels = s.labels + 1 := rfl

@[simp] theorem nextLabel_number (s : Supply) : s.nextLabel.number = s.labels + 1 := rfl

/-- A `Supply` comes before another one, if this has reserved as much or more of both. -/
structure Before (s s' : Supply) : Prop where
  labels : s.labels ≤ s'.labels
  temps : s.temps ≤ s'.temps

theorem Before.refl (s : Supply) : s.Before s := ⟨Nat.le_refl _, Nat.le_refl _⟩

theorem Before.trans {s s₁ s' : Supply} (h : s.Before s₁) (h' : s₁.Before s') : s.Before s' :=
  ⟨Nat.le_trans h.labels h'.labels, Nat.le_trans h.temps h'.temps⟩

theorem before_skipLabel (s : Supply) : s.Before s.skipLabel := ⟨Nat.le_succ _, Nat.le_refl _⟩

end Supply

/-! ## Layouts -/

/-- Code for a statement. Control goes from `start` to `after`, and at a break to `leave`. There is
one rule for each form of statement, and one more for a sequence of one. -/
inductive Stmt.Layout : Option Label → Label → Label → Supply → Stmt → List Instruction →
    Supply → Prop
  | null {leave : Option Label} {start after : Label} {s : Supply} :
      Layout leave start after s .null [] s
  | seq_nil {leave : Option Label} {start after : Label} {s : Supply} :
      Layout leave start after s (.seq []) [] s
  | seq_one {leave : Option Label} {start after : Label} {s s' : Supply} {x : Stmt}
      {code : List Instruction} (hOnly : Layout leave start after s x code s') :
      Layout leave start after s (.seq [x]) code s'
  | seq_cons {leave : Option Label} {start after : Label} {s s₁ s' : Supply} {x y : Stmt}
      {rest : List Stmt} {first others : List Instruction}
      (hFirst : Layout leave start s.nextLabel s.skipLabel x first s₁)
      (hOthers : Layout leave s.nextLabel after s₁ (.seq (y :: rest)) others s') :
      Layout leave start after s (.seq (x :: y :: rest))
        (first ++ .label s.nextLabel :: others) s'
  | ifThen {leave : Option Label} {start after : Label} {s s₁ s' : Supply} {c : Expr} {x : Stmt}
      {test body : List Instruction}
      (hTest : (c.emitJumps .fall (.label after)).run s.skipLabel = ⟨(), s₁, test⟩)
      (hBody : Layout leave s.nextLabel after s₁ x body s') :
      Layout leave start after s (.ifThen c x) (test ++ .label s.nextLabel :: body) s'
  | ifElse {leave : Option Label} {start after : Label} {s s₁ s₂ s' : Supply} {c : Expr}
      {x y : Stmt} {test body otherwise : List Instruction}
      (hTest : (c.emitJumps .fall (.label s.skipLabel.nextLabel)).run s.skipLabel.skipLabel =
        ⟨(), s₁, test⟩)
      (hBody : Layout leave s.nextLabel after s₁ x body s₂)
      (hOtherwise : Layout leave s.skipLabel.nextLabel after s₂ y otherwise s') :
      Layout leave start after s (.ifElse c x y)
        (test ++ .label s.nextLabel :: (body ++ .jump after ::
          .label s.skipLabel.nextLabel :: otherwise)) s'
  | whileLoop {leave : Option Label} {start after : Label} {s s₁ s' : Supply} {exit : LoopExit}
      {c : Expr} {x : Stmt} {test body : List Instruction}
      (hTest : (c.emitJumps .fall (.label after)).run s = ⟨(), s₁, test⟩)
      (hBody : Layout (some after) s₁.nextLabel start s₁.skipLabel x body s') :
      Layout leave start after s (.whileLoop exit c x)
        (test ++ .label s₁.nextLabel :: (body ++ [.jump start])) s'
  | doLoop {leave : Option Label} {start after : Label} {s s₁ s' : Supply} {exit : LoopExit}
      {c : Expr} {x : Stmt} {body test : List Instruction}
      (hBody : Layout (some after) start s.nextLabel s.skipLabel x body s₁)
      (hTest : (c.emitJumps (.label start) .fall).run s₁ = ⟨(), s', test⟩) :
      Layout leave start after s (.doLoop exit x c) (body ++ .label s.nextLabel :: test) s'
  | breakTo {l start after : Label} {s : Supply} {exit : LoopExit} :
      Layout (some l) start after s (.breakTo exit) [.jump l] s
  | set {leave : Option Label} {start after : Label} {s s' : Supply} {x : Symbol} {a : Expr}
      {value : Rvalue} {code : List Instruction} (hValue : a.emitValue.run s = ⟨value, s', code⟩) :
      Layout leave start after s (.set x a) (code ++ [.assign (.var x) value]) s'
  | store {leave : Option Label} {start after : Label} {s s₁ s' : Supply} {target : Access}
      {a : Expr} {offset value : Operand} {code code' : List Instruction}
      (hIndex : target.index.emitOperand.run s = ⟨offset, s₁, code⟩)
      (hValue : a.emitOperand.run s₁ = ⟨value, s', code'⟩) :
      Layout leave start after s (.store target a)
        (code ++ (code' ++ [.store target.array offset value])) s'

/-! ## Emission for statements -/

/-- From some exits and a supply, a `LoopEmission` comes to a value, exits, a supply and code. -/
def Emits {α : Type} (m : LoopEmission α) (exits : Exits) (s : Supply) (a : α) (exits' : Exits)
    (s' : Supply) (code : List Instruction) : Prop :=
  (m.emission exits).run s = ⟨(.ok a, exits'), s', code⟩

section Emits

variable {α β : Type} {exits exits₁ exits' : Exits} {s s₁ s' : Supply} {a : α} {b : β}
  {code code' : List Instruction}

theorem emits_pure : Emits (pure a) exits s a exits s [] := rfl

theorem emits_bindExit (exit : LoopExit) (l : Label) :
    Emits (bindExit exit l) exits s () ((exit, l) :: exits) s [] := rfl

/-- What comes after a part that comes to a value goes on from there. -/
theorem Emits.bind {m : LoopEmission α} {f : α → LoopEmission β}
    (h : Emits m exits s a exits₁ s₁ code) (h' : Emits (f a) exits₁ s₁ b exits' s' code') :
    Emits (m >>= f) exits s b exits' s' (code ++ code') := by
  unfold Emits at *
  rw [LoopEmissionOn.emission_bind, run_bind, h]
  dsimp only
  rw [h']

theorem emits_lift {m : Emission α} (h : m.run s = ⟨a, s', code⟩) :
    Emits (plain m) exits s a exits s' code := by
  unfold Emits
  rw [LoopEmissionOn.emission_plain, run_bind, h, run_pure, List.append_nil]

theorem emits_newLabel : Emits (plain newLabel) exits s s.nextLabel exits s.skipLabel [] :=
  emits_lift rfl

theorem emits_instruction (i : Instruction) :
    Emits (plain (Emission.emit i)) exits s () exits s [i] := emits_lift rfl

theorem emits_mark (l : Label) : Emits (plain (mark l)) exits s () exits s [.label l] :=
  emits_lift rfl

theorem emits_boundLabel {exit : LoopExit} {l : Label} (h : exits.label? exit = some l) :
    Emits (boundLabel exit) exits s l exits s [] := by
  unfold Emits
  rw [LoopEmissionOn.emission_boundLabel, h]
  rfl

end Emits

/-! ## Well-formed statements -/

/-- Inside of a loop its exit has been met, and it is bound to the label behind the loop. -/
def Exits.Bind (exits : Exits) (loop : Option LoopExit) (n : Nat) (leave : Option Label) : Prop :=
  ∀ exit, loop = some exit → exit.number < n ∧ ∃ l, leave = some l ∧ exits.label? exit = some l

/-- Exits that have been met before stay bound as they are. -/
def Exits.Keep (exits exits' : Exits) (n : Nat) : Prop :=
  ∀ exit : LoopExit, exit.number < n → exits'.label? exit = exits.label? exit

theorem Exits.Bind.keep {exits exits' : Exits} {loop : Option LoopExit} {n n' : Nat}
    {leave : Option Label} (h : exits.Bind loop n leave) (hKeep : exits.Keep exits' n)
    (hLe : n ≤ n') : exits'.Bind loop n' leave := by
  intro exit hLoop
  obtain ⟨hMet, l, hLeave, hBound⟩ := h exit hLoop
  exact ⟨Nat.lt_of_lt_of_le hMet hLe, l, hLeave, (hKeep exit hMet).trans hBound⟩

theorem Exits.Keep.trans {exits exits₁ exits' : Exits} {n n₁ : Nat} (h : exits.Keep exits₁ n)
    (h' : exits₁.Keep exits' n₁) (hLe : n ≤ n₁) : exits.Keep exits' n := fun exit hMet =>
  (h' exit (Nat.lt_of_lt_of_le hMet hLe)).trans (h exit hMet)

/-- A loop binds its exit for its body, before any code of it is emitted. -/
theorem Exits.bind_cons (exits : Exits) (n : Nat) (l : Label) :
    Exits.Bind ((⟨n⟩, l) :: exits) (some ⟨n⟩) (n + 1) (some l) := by
  rintro exit ⟨⟩
  exact ⟨Nat.lt_succ_self n, l, rfl, List.lookup_cons_self⟩

/-- A loop does not touch the exits that have been met before it. -/
theorem Exits.keep_cons {exits exits' : Exits} {n : Nat} {l : Label}
    (h : Exits.Keep ((⟨n⟩, l) :: exits) exits' (n + 1)) : exits.Keep exits' n := by
  intro exit hMet
  rw [h exit (Nat.lt_succ_of_lt hMet)]
  have hOther : (exit == (⟨n⟩ : LoopExit)) = false := by
    rw [beq_eq_false_iff_ne]
    rintro rfl
    exact Nat.lt_irrefl n hMet
  rw [Exits.label?, List.lookup_cons, hOther]
  rfl

/-- A statement has code that is laid out between two labels (`Stmt.Layout`), and its emission
leaves the exits met before as they are. -/
def Stmt.LaidOut (x : Stmt) (exits : Exits) (n : Nat) (leave : Option Label) (start after : Label)
    (s : Supply) : Prop :=
  ∃ exits' s' code, Emits (x.emit start after) exits s () exits' s' code ∧
    x.Layout leave start after s code s' ∧ exits.Keep exits' n

/-- **Well-formed statements have code.** Whatever exits have been bound before, emission comes to
code that is laid out between the labels; loops bind their own exits alone. The induction is on
`Stmt.Formed`. -/
theorem Stmt.Formed.layout {x : Stmt} {loop : Option LoopExit} {n n' : Nat}
    (h : x.Formed loop n n') {exits : Exits} {leave : Option Label} (start after : Label)
    (s : Supply) (hBind : exits.Bind loop n leave) :
    x.LaidOut exits n leave start after s := by
  induction h generalizing exits leave start after s with
  | null => exact ⟨exits, s, [], emits_pure, .null, fun _ _ => rfl⟩
  | seq_nil => exact ⟨exits, s, [], emits_pure, .seq_nil, fun _ _ => rfl⟩
  | @seq_cons loop n n₁ n' x rest hFirst hRest ihFirst ihRest =>
    -- a label stands between two statements, none behind the last
    cases rest with
    | nil =>
      obtain ⟨exits', s', code, hEmits, hLayout, hKeep⟩ := ihFirst start after s hBind
      refine ⟨exits', s', code, ?_, .seq_one hLayout, hKeep⟩
      rw [emit, emitAll]
      exact hEmits
    | cons y rest =>
      obtain ⟨exits₁, s₁, first, hEmits, hLayout, hKeep⟩ :=
        ihFirst start s.nextLabel s.skipLabel hBind
      obtain ⟨exits', s', others, hEmits', hLayout', hKeep'⟩ :=
        ihRest s.nextLabel after s₁ (hBind.keep hKeep hFirst.le)
      refine ⟨exits', s', _, ?_, .seq_cons hLayout hLayout', hKeep.trans hKeep' hFirst.le⟩
      rw [emit] at hEmits'
      rw [emit, emitAll]
      exact emits_newLabel.bind (hEmits.bind ((emits_mark _).bind hEmits'))
  | @ifThen loop n n' c x _ _ ih =>
    -- jumps need no exits: whatever they come to is the test
    let test := (c.emitJumps .fall (.label after)).run s.skipLabel
    have hTest : (c.emitJumps .fall (.label after)).run s.skipLabel =
      ⟨(), test.supply, test.code⟩ := rfl
    obtain ⟨exits', s', body, hEmits, hLayout, hKeep⟩ := ih s.nextLabel after test.supply hBind
    refine ⟨exits', s', _, ?_, .ifThen hTest hLayout, hKeep⟩
    rw [emit]
    exact emits_newLabel.bind ((emits_lift hTest).bind ((emits_mark _).bind hEmits))
  | @ifElse loop n n₁ n' c x y _ hBody _ ih ih' =>
    let test := (c.emitJumps .fall (.label s.skipLabel.nextLabel)).run s.skipLabel.skipLabel
    have hTest : (c.emitJumps .fall (.label s.skipLabel.nextLabel)).run s.skipLabel.skipLabel =
      ⟨(), test.supply, test.code⟩ := rfl
    obtain ⟨exits₁, s₁, body, hEmits, hLayout, hKeep⟩ := ih s.nextLabel after test.supply hBind
    -- the first branch binds only exits of loops inside of it
    obtain ⟨exits', s', otherwise, hEmits', hLayout', hKeep'⟩ :=
      ih' s.skipLabel.nextLabel after s₁ (hBind.keep hKeep hBody.le)
    refine ⟨exits', s', _, ?_, .ifElse hTest hLayout hLayout', hKeep.trans hKeep' hBody.le⟩
    rw [emit]
    exact emits_newLabel.bind (emits_newLabel.bind ((emits_lift hTest).bind
      ((emits_mark _).bind (hEmits.bind ((emits_instruction _).bind
        ((emits_mark _).bind hEmits'))))))
  | @whileLoop loop n n' c x _ _ ih =>
    let test := (c.emitJumps .fall (.label after)).run s
    have hTest : (c.emitJumps .fall (.label after)).run s = ⟨(), test.supply, test.code⟩ := rfl
    -- inside of the body a break goes behind this loop
    obtain ⟨exits', s', body, hEmits, hLayout, hKeep⟩ := ih test.supply.nextLabel start
      test.supply.skipLabel (exits.bind_cons n after)
    refine ⟨exits', s', _, ?_, .whileLoop hTest hLayout, Exits.keep_cons hKeep⟩
    rw [emit]
    exact (emits_bindExit _ _).bind ((emits_lift hTest).bind (emits_newLabel.bind
      ((emits_mark _).bind (hEmits.bind (emits_instruction _)))))
  | @doLoop loop n n' c x _ _ ih =>
    -- the body comes first, and falls through to the test
    obtain ⟨exits', s₁, body, hEmits, hLayout, hKeep⟩ := ih start s.nextLabel s.skipLabel
      (exits.bind_cons n after)
    let test := (c.emitJumps (.label start) .fall).run s₁
    have hTest : (c.emitJumps (.label start) .fall).run s₁ = ⟨(), test.supply, test.code⟩ := rfl
    refine ⟨exits', test.supply, _, ?_, .doLoop hLayout hTest, Exits.keep_cons hKeep⟩
    rw [emit]
    exact (emits_bindExit _ _).bind (emits_newLabel.bind (hEmits.bind
      ((emits_mark _).bind (emits_lift hTest))))
  | @breakTo exit n =>
    -- inside of a loop its exit is bound, so that emission cannot fail
    obtain ⟨_, l, rfl, hBound⟩ := hBind exit rfl
    refine ⟨exits, s, [.jump l], ?_, .breakTo, fun _ _ => rfl⟩
    rw [emit]
    exact (emits_boundLabel hBound).bind (emits_instruction _)
  | @set loop n x a _ _ =>
    let value := a.emitValue.run s
    have hValue : a.emitValue.run s = ⟨value.value, value.supply, value.code⟩ := rfl
    refine ⟨exits, value.supply, _, ?_, .set hValue, fun _ _ => rfl⟩
    rw [emit]
    exact (emits_lift hValue).bind (emits_instruction _)
  | @store loop n target a _ _ _ =>
    let index := target.index.emitOperand.run s
    have hIndex : target.index.emitOperand.run s = ⟨index.value, index.supply, index.code⟩ := rfl
    let value := a.emitOperand.run index.supply
    have hValue : a.emitOperand.run index.supply = ⟨value.value, value.supply, value.code⟩ := rfl
    refine ⟨exits, value.supply, _, ?_, .store hIndex hValue, fun _ _ => rfl⟩
    rw [emit]
    exact (emits_lift hIndex).bind ((emits_lift hValue).bind (emits_instruction _))

/-! ## Programs -/

/-- The code of a whole program: that of its statement (`Stmt.Layout`), between two labels of its
own. -/
def Program.CodeOn (p : Program) (s : Supply) (code : List Instruction) (s' : Supply) : Prop :=
  ∃ body, code = .label s.nextLabel :: (body ++ [.label s.skipLabel.nextLabel]) ∧
    p.body.Layout none s.nextLabel s.skipLabel.nextLabel s.skipLabel.skipLabel body s'

/-- **Programs have code.** For a program that has been read emission never fails, whatever exits
have been bound before. -/
theorem Program.emits_of_read {tokens : List (Located Token)}
    {ending : Option (Located LexError)} {p : Program}
    (h : (readTokens tokens ending).outcome = .ok p) (exits : Exits) (s : Supply) :
    ∃ exits' s' code, Emits p.emit exits s () exits' s' code ∧ p.CodeOn s code s' := by
  obtain ⟨n, hFormed⟩ := formed_of_read h
  have hOutside : exits.Bind none 0 none := fun _ hLoop => by cases hLoop
  obtain ⟨exits', s', body, hEmits, hLayout, _⟩ :=
    hFormed.layout s.nextLabel s.skipLabel.nextLabel s.skipLabel.skipLabel hOutside
  refine ⟨exits', s', _, ?_, body, rfl, hLayout⟩
  rw [Program.emit]
  exact emits_newLabel.bind (emits_newLabel.bind ((emits_mark _).bind
    (hEmits.bind (emits_mark _))))

end JumpCode
