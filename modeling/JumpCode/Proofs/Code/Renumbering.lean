import JumpCode.Proofs.Breaks

/-!
# JumpCode — code up to its numbers

Emission takes the numbers of labels and temporaries from the supply and looks at nothing else
that has been emitted. So the same program comes to the same code wherever it is emitted, up to the
numbers, and these are counted from the ones that have been reserved before.

Code is carried over to other counters piece by piece: an emission on a `Supply` and the one that it
corresponds to there draw corresponding numbers, and they hand on corresponding labels, operands and
targets.

* `Renumbering` — other numbers for labels and temporaries;
* `Companion` — counters that go along with a `Supply`;
* `Expr.renumbers`, `Stmt.renumbers`, `Program.renumbers` — the code of expressions, of statements
  and of programs, on any such counters;
* `Program.emitWith_behind` — one piece of code stands for all that a program ever comes to;
* `code_up_to_numbers` — any two emissions of a program.
-/

namespace JumpCode

open Emission LoopEmission

/-! ## Other numbers -/

/-- Other numbers for labels and for temporaries: a function on the numbers of each. -/
structure Renumbering where
  label : Nat → Nat
  temp : Nat → Nat

/-- Numbers that are counted from the `Supply` `d`, where they have been counted from
`Supply.fresh`. -/
def Renumbering.behind (d : Supply) : Renumbering := ⟨(· + d.labels), (· + d.temps)⟩

/-- Numbers that are counted from the second `Supply`, where they have been counted from the first.
A number below the first count would become too small, so that it has to be known that there is
none. -/
def Renumbering.fromTo (s s' : Supply) : Renumbering :=
  -- the difference is exact for numbers behind the first supply, and code has no others
  ⟨fun n => n + s'.labels - s.labels, fun n => n + s'.temps - s.temps⟩

variable (r : Renumbering)

def Label.renumber (l : Label) : Label := ⟨r.label l.number⟩

def Target.renumber : Target → Target
  | .label l => .label (l.renumber r)
  | .fall => .fall

def Operand.renumber : Operand → Operand
  | .temp n => .temp (r.temp n)
  | o => o

def Rvalue.renumber : Rvalue → Rvalue
  | .use o => .use (o.renumber r)
  | .binary op lhs rhs => .binary op (lhs.renumber r) (rhs.renumber r)
  | .negate o => .negate (o.renumber r)
  | .index array offset => .index array (offset.renumber r)

def Test.renumber : Test → Test
  | .compare op lhs rhs => .compare op (lhs.renumber r) (rhs.renumber r)
  | .truth o => .truth (o.renumber r)

/-- An `Instruction` with other numbers, in its labels, its operands and what it writes. Variables
and constants stay as they are. -/
def Instruction.renumber : Instruction → Instruction
  | .label l => .label (l.renumber r)
  | .jump target => .jump (target.renumber r)
  | .branch test polarity target => .branch (test.renumber r) polarity (target.renumber r)
  | .assign target value => .assign (target.renumber r) (value.renumber r)
  | .store array offset value => .store array (offset.renumber r) (value.renumber r)

section

variable (s s' : Supply)

@[simp] theorem Label.renumber_behind (l : Label) :
    (l.renumber (.behind s)).renumber (.fromTo s s') = l.renumber (.behind s') := by
  simp only [renumber, Renumbering.behind, Renumbering.fromTo, Label.mk.injEq]
  omega

@[simp] theorem Operand.renumber_behind (o : Operand) :
    (o.renumber (.behind s)).renumber (.fromTo s s') = o.renumber (.behind s') := by
  cases o with
  | temp n =>
    simp only [renumber, Renumbering.behind, Renumbering.fromTo, Operand.temp.injEq]
    omega
  | _ => rfl

@[simp] theorem Rvalue.renumber_behind (v : Rvalue) :
    (v.renumber (.behind s)).renumber (.fromTo s s') = v.renumber (.behind s') := by
  cases v <;> simp [renumber]

@[simp] theorem Test.renumber_behind (t : Test) :
    (t.renumber (.behind s)).renumber (.fromTo s s') = t.renumber (.behind s') := by
  cases t <;> simp [renumber]

/-- Numbers counted from one supply become numbers counted from another: `Renumbering.fromTo` undoes
the first `Renumbering.behind`. -/
theorem Instruction.renumber_behind (i : Instruction) :
    (i.renumber (.behind s)).renumber (.fromTo s s') = i.renumber (.behind s') := by
  cases i <;> simp [renumber]

end

/-! ## Corresponding counters -/

/-- A `Supply` that much later: its counts are moved by those of `d`. -/
def Supply.behind (s d : Supply) : Supply := ⟨s.labels + d.labels, s.temps + d.temps⟩

theorem Supply.fresh_behind (d : Supply) : Supply.fresh.behind d = d := by
  simp [fresh, behind]

/-- Counters that go along with supplies, up to a limit. Each `Supply` has its `counters`, and as
long as the supply keeps `Within` the limit, whatever number it draws, its counters draw the one
that `numbers` puts in its place. -/
structure Companion (S : Type) [Counters S] where
  numbers : Renumbering
  counters : Supply → S
  Within : Supply → Prop
  within_of_before {s s' : Supply} : s.Before s' → Within s' → Within s
  label {s : Supply} : Within ⟨s.labels + 1, s.temps⟩ →
    Counters.label (counters s) = (numbers.label (s.labels + 1), counters ⟨s.labels + 1, s.temps⟩)
  temp {s : Supply} : Within ⟨s.labels, s.temps + 1⟩ →
    Counters.temp (counters s) = (numbers.temp (s.temps + 1), counters ⟨s.labels, s.temps + 1⟩)

/-- A later supply goes along with an earlier one without a limit, at the distance `d` that it has
(`Supply.behind`). -/
def Companion.behind (d : Supply) : Companion Supply where
  numbers := .behind d
  counters s := s.behind d
  Within _ := True
  within_of_before _ _ := trivial
  label {s} _ := by
    show (s.labels + d.labels + 1, _) = (s.labels + 1 + d.labels, _)
    simp only [Supply.behind, Nat.add_right_comm]
  temp {s} _ := by
    show (s.temps + d.temps + 1, _) = (s.temps + 1 + d.temps, _)
    simp only [Supply.behind, Nat.add_right_comm]

/-! ## Corresponding emissions -/

section

variable {S : Type} [Counters S] {k : Companion S}

/-- Whether an emission on a `Supply` corresponds to another one on the counters of a `Companion`.
The first never gives back what it has reserved (`Supply.Before`). Where it comes to an end within
the limit, they come to corresponding values and leave corresponding counters, and their code is the
same up to the numbers. -/
structure Renumbers (k : Companion S) {α : Type} (act : α → α) (m : Emission α)
    (m' : EmissionOn S α) : Prop where
  grows (s : Supply) : s.Before (m.run s).supply
  run (s : Supply) : k.Within (m.run s).supply → m'.run (k.counters s) =
    ⟨act (m.run s).value, k.counters (m.run s).supply,
      (m.run s).code.map (.renumber k.numbers)⟩

namespace Renumbers

variable {α β : Type} {act : α → α} {act' : β → β} {m : Emission α} {m' : EmissionOn S α}

theorem pure (a : α) : Renumbers k act (pure a) (pure (act a)) where
  grows s := .refl s
  run _ _ := rfl

theorem bind {f : α → Emission β} {f' : α → EmissionOn S β} (h : Renumbers k act m m')
    (h' : ∀ a, Renumbers k act' (f a) (f' (act a))) :
    Renumbers k act' (m >>= f) (m' >>= f') where
  grows s := (h.grows s).trans ((h' _).grows _)
  run s hWithin := by
    -- counts grow, so that the limit has not been passed in between
    have hFirst := h.run s (k.within_of_before ((h' _).grows _) hWithin)
    have hSecond := (h' (m.run s).value).run (m.run s).supply hWithin
    rw [run_bind, run_bind, hFirst]
    dsimp only
    rw [hSecond, List.map_append]

theorem newLabel : Renumbers k (Label.renumber k.numbers) newLabel newLabel where
  grows s := ⟨Nat.le_succ _, Nat.le_refl _⟩
  run s hWithin := by
    show (⟨⟨(Counters.label (k.counters s)).1⟩, (Counters.label (k.counters s)).2, []⟩ :
      Emitted Label S) = _
    rw [k.label hWithin]
    rfl

theorem newTemp : Renumbers k (Operand.renumber k.numbers) newTemp newTemp where
  grows s := ⟨Nat.le_refl _, Nat.le_succ _⟩
  run s hWithin := by
    show (⟨.temp (Counters.temp (k.counters s)).1, (Counters.temp (k.counters s)).2, []⟩ :
      Emitted Operand S) = _
    rw [k.temp hWithin]
    rfl

theorem emit (i : Instruction) :
    Renumbers k id (emit i) (Emission.emit (i.renumber k.numbers)) where
  grows s := .refl s
  run _ _ := rfl

theorem mark (l : Label) : Renumbers k id (mark l) (Emission.mark (l.renumber k.numbers)) :=
  .emit (.label l)

end Renumbers

/-! ## Expressions -/

/-- Jumps that correspond for corresponding targets: `Renumbers` holds of them, whatever two targets
they are given. -/
def JumpsRenumber (k : Companion S) (j : Target → Target → Emission Unit)
    (j' : Target → Target → EmissionOn S Unit) : Prop :=
  ∀ onTrue onFalse, Renumbers k id (j onTrue onFalse)
    (j' (onTrue.renumber k.numbers) (onFalse.renumber k.numbers))

theorem renumbers_jumpsOnTest (test : Test) (onTrue onFalse : Target) :
    Renumbers k id (jumpsOnTest test onTrue onFalse)
      (jumpsOnTest (test.renumber k.numbers) (onTrue.renumber k.numbers)
        (onFalse.renumber k.numbers)) := by
  cases onTrue with
  | label onTrue =>
    cases onFalse with
    | label onFalse => exact (Renumbers.emit _).bind fun _ => .emit _
    | fall => exact .emit _
  | fall =>
    cases onFalse with
    | label onFalse => exact .emit _
    | fall => exact .pure ()

theorem renumbers_goto (target : Target) :
    Renumbers k id (goto target) (goto (target.renumber k.numbers)) := by
  cases target with
  | label l => exact .emit _
  | fall => exact .pure ()

theorem renumbers_reduced {v : Emission Rvalue} {v' : EmissionOn S Rvalue}
    (h : Renumbers k (Rvalue.renumber k.numbers) v v') :
    Renumbers k (Operand.renumber k.numbers) (reduced v) (reduced v') := by
  refine h.bind fun value => ?_
  cases value with
  | use o => exact .pure o
  | _ => exact Renumbers.newTemp.bind fun o => (Renumbers.emit _).bind fun _ => .pure o

section

variable {j l : Target → Target → Emission Unit} {j' l' : Target → Target → EmissionOn S Unit}

theorem renumbers_materialize (h : JumpsRenumber k j j') :
    Renumbers k (Rvalue.renumber k.numbers) (materialize j) (materialize j') :=
  Renumbers.newLabel.bind fun onFalse => Renumbers.newLabel.bind fun after =>
    Renumbers.newTemp.bind fun temp => (h .fall (.label onFalse)).bind fun _ =>
      (Renumbers.emit (.assign temp (.use (.const (.bool true))))).bind fun _ =>
        (Renumbers.emit (.jump after)).bind fun _ => (Renumbers.mark onFalse).bind fun _ =>
          (Renumbers.emit (.assign temp (.use (.const (.bool false))))).bind fun _ =>
            (Renumbers.mark after).bind fun _ => .pure (Rvalue.use temp)

theorem renumbers_jumpsOnBoth (hLeft : JumpsRenumber k l l') (hRight : JumpsRenumber k j j') :
    JumpsRenumber k (jumpsOnBoth l j) (jumpsOnBoth l' j') := by
  intro onTrue onFalse
  cases onFalse with
  | label onFalse => exact (hLeft .fall (.label onFalse)).bind fun _ => hRight onTrue _
  | fall =>
    exact Renumbers.newLabel.bind fun onFalse =>
      (hLeft .fall (.label onFalse)).bind fun _ => (hRight onTrue .fall).bind fun _ =>
        .mark onFalse

theorem renumbers_jumpsOnEither (hLeft : JumpsRenumber k l l') (hRight : JumpsRenumber k j j') :
    JumpsRenumber k (jumpsOnEither l j) (jumpsOnEither l' j') := by
  intro onTrue onFalse
  cases onTrue with
  | label onTrue => exact (hLeft (.label onTrue) .fall).bind fun _ => hRight _ onFalse
  | fall =>
    exact Renumbers.newLabel.bind fun onTrue =>
      (hLeft (.label onTrue) .fall).bind fun _ => (hRight .fall onFalse).bind fun _ =>
        .mark onTrue

end

/-- The code of an `Expr` is the same on corresponding counters, up to the numbers: that for its
value and that for jumps. -/
structure Expr.Renumbers (k : Companion S) (e : Expr) : Prop where
  value : JumpCode.Renumbers k (Rvalue.renumber k.numbers) e.emitValue e.emitValue
  jumps : JumpsRenumber k e.emitJumps e.emitJumps

namespace Expr.Renumbers

variable {e : Expr}

theorem operand (h : e.Renumbers k) :
    JumpCode.Renumbers k (Operand.renumber k.numbers) e.emitOperand e.emitOperand :=
  renumbers_reduced h.value

/-- Jumps on an expression that is not `isLogical` come from its value, or are decided at once. -/
theorem of_value (hLogical : e.isLogical = false)
    (h : JumpCode.Renumbers k (Rvalue.renumber k.numbers) e.emitValue e.emitValue) :
    e.Renumbers k where
  value := h
  jumps := by
    by_cases hConstant : e.isTruthConstant = true
    · cases e with
      | const c =>
        cases c with
        | bool b =>
          intro onTrue onFalse
          cases b with
          | true => exact renumbers_goto onTrue
          | false => exact renumbers_goto onFalse
        | _ => cases hConstant
      | _ => cases hConstant
    · have hOther := Bool.eq_false_iff.mpr hConstant
      rw [emitJumps_eq_jumpsOnValue hLogical hOther, emitJumps_eq_jumpsOnValue hLogical hOther]
      exact fun onTrue onFalse => (renumbers_reduced h).bind fun o =>
        renumbers_jumpsOnTest (.truth o) onTrue onFalse

/-- The value of an expression that is `isLogical` comes from its jumps, by `materialize`. -/
theorem of_jumps (hLogical : e.isLogical = true)
    (h : JumpsRenumber k e.emitJumps e.emitJumps) : e.Renumbers k where
  value := by
    rw [emitValue_eq_materialize hLogical, emitValue_eq_materialize hLogical]
    exact renumbers_materialize h
  jumps := h

end Expr.Renumbers

/-- **Expressions come to the same code up to the numbers**, on any counters that go along with a
supply. The induction is on the `Expr`, and `Expr.Renumbers` carries values and jumps together. -/
theorem Expr.renumbers (e : Expr) : e.Renumbers k := by
  -- the two emissions are opened side by side, form by form
  induction e with
  | const c =>
    refine .of_value rfl ?_
    rw [emitValue, emitValue]
    exact .pure _
  | var x =>
    refine .of_value rfl ?_
    rw [emitValue, emitValue]
    exact .pure _
  | access array index type ih =>
    refine .of_value rfl ?_
    rw [emitValue, emitValue]
    exact ih.operand.bind fun o => .pure (Rvalue.index array o)
  | arith op lhs rhs type ihLeft ihRight =>
    refine .of_value rfl ?_
    rw [emitValue, emitValue]
    exact ihLeft.operand.bind fun a => ihRight.operand.bind fun b =>
      .pure (Rvalue.binary op a b)
  | neg operand type ih =>
    refine .of_value rfl ?_
    rw [emitValue, emitValue]
    exact ih.operand.bind fun o => .pure (Rvalue.negate o)
  | not operand ih =>
    refine .of_jumps rfl ?_
    rw [emitJumps, emitJumps]
    exact fun onTrue onFalse => ih.jumps onFalse onTrue
  | rel op lhs rhs ihLeft ihRight =>
    refine .of_jumps rfl ?_
    rw [emitJumps, emitJumps]
    exact fun onTrue onFalse => ihLeft.operand.bind fun a =>
      ihRight.operand.bind fun b =>
        renumbers_jumpsOnTest (.compare op a b) onTrue onFalse
  | and lhs rhs ihLeft ihRight =>
    refine .of_jumps rfl ?_
    rw [emitJumps, emitJumps]
    exact renumbers_jumpsOnBoth ihLeft.jumps ihRight.jumps
  | or lhs rhs ihLeft ihRight =>
    refine .of_jumps rfl ?_
    rw [emitJumps, emitJumps]
    exact renumbers_jumpsOnEither ihLeft.jumps ihRight.jumps

end

/-! ## Statements -/

section

variable {S : Type} [Counters S] {k : Companion S}

/-- `Exits` that are bound to labels with other numbers. -/
def Exits.renumber (r : Renumbering) (exits : Exits) : Exits :=
  exits.map fun (exit, l) => (exit, l.renumber r)

theorem Exits.label?_renumber (r : Renumbering) (exits : Exits) (exit : LoopExit) :
    (exits.renumber r).label? exit = (exits.label? exit).map (.renumber r) := by
  induction exits with
  | nil => rfl
  | cons first exits ih =>
    simp only [label?, renumber, List.map_cons] at ih ⊢
    rw [List.lookup_cons, List.lookup_cons]
    split
    · rfl
    · exact ih

/-- What a `LoopEmission` comes to, with other numbers: in its value, if it has one, and in its
exits. -/
def LoopEmission.act {α : Type} (r : Renumbering) (act : α → α) :
    Except UnboundExit α × Exits → Except UnboundExit α × Exits
  | (outcome, exits) => (outcome.map act, exits.renumber r)

/-- Emissions with exits correspond if they do so from corresponding `Exits`. -/
def LoopRenumbers (k : Companion S) {α : Type} (act : α → α)
    (m : LoopEmission α) (m' : LoopEmissionOn S α) : Prop :=
  ∀ exits : Exits, Renumbers k (LoopEmission.act k.numbers act) (m.emission exits)
    (m'.emission (exits.renumber k.numbers))

namespace LoopRenumbers

variable {α β : Type} {act : α → α} {act' : β → β} {m : LoopEmission α} {m' : LoopEmissionOn S α}

theorem pure (a : α) : LoopRenumbers k act (pure a) (pure (act a)) := fun exits =>
  Renumbers.pure (Except.ok a, exits)

theorem bind {f : α → LoopEmission β} {f' : α → LoopEmissionOn S β}
    (h : LoopRenumbers k act m m') (h' : ∀ a, LoopRenumbers k act' (f a) (f' (act a))) :
    LoopRenumbers k act' (m >>= f) (m' >>= f') := by
  intro exits
  rw [LoopEmissionOn.emission_bind, LoopEmissionOn.emission_bind]
  refine (h exits).bind fun result => ?_
  obtain ⟨outcome, exits'⟩ := result
  cases outcome with
  | ok a => exact h' a exits'
  | error unbound => exact Renumbers.pure (Except.error unbound, exits')

theorem plain {m : Emission α} {m' : EmissionOn S α} (h : Renumbers k act m m') :
    LoopRenumbers k act (LoopEmission.plain m) (LoopEmission.plain m') := by
  intro exits
  rw [LoopEmissionOn.emission_plain, LoopEmissionOn.emission_plain]
  exact h.bind fun a => Renumbers.pure (Except.ok a, exits)

theorem bindExit (exit : LoopExit) (l : Label) :
    LoopRenumbers k id (bindExit exit l) (LoopEmission.bindExit exit (l.renumber k.numbers)) :=
  fun exits => Renumbers.pure (Except.ok (), (exit, l) :: exits)

theorem boundLabel (exit : LoopExit) :
    LoopRenumbers k (Label.renumber k.numbers) (boundLabel exit)
      (LoopEmission.boundLabel exit) := by
  intro exits
  rw [LoopEmissionOn.emission_boundLabel, LoopEmissionOn.emission_boundLabel,
    Exits.label?_renumber]
  cases exits.label? exit with
  | none => exact Renumbers.pure (Except.error (UnboundExit.mk exit), exits)
  | some l => exact Renumbers.pure (Except.ok l, exits)

end LoopRenumbers

mutual

/-- **Statements come to the same code up to the numbers**, between labels that correspond. The
induction goes along with `Stmt.emit`, and each form has its parts bound together by
`LoopRenumbers.bind`. -/
theorem Stmt.renumbers (x : Stmt) (start after : Label) :
    LoopRenumbers k id (x.emit start after)
      (x.emit (start.renumber k.numbers) (after.renumber k.numbers)) := by
  -- each form is emitted from its parts in a row, and renumbers as they do; the labels that it
  -- draws for them are renumbered together with the counter
  cases x with
  | null =>
    rw [emit, emit]
    exact .pure ()
  | seq items =>
    rw [emit, emit]
    exact Stmt.renumbers_all items start after
  | ifThen c body =>
    rw [emit, emit]
    exact (LoopRenumbers.plain .newLabel).bind fun inside =>
      (LoopRenumbers.plain (c.renumbers.jumps .fall (.label after))).bind fun _ =>
        (LoopRenumbers.plain (.mark inside)).bind fun _ => body.renumbers inside after
  | ifElse c body otherwise =>
    rw [emit, emit]
    exact (LoopRenumbers.plain .newLabel).bind fun onTrue =>
      (LoopRenumbers.plain .newLabel).bind fun onFalse =>
        (LoopRenumbers.plain (c.renumbers.jumps .fall (.label onFalse))).bind fun _ =>
          (LoopRenumbers.plain (.mark onTrue)).bind fun _ =>
            (body.renumbers onTrue after).bind fun _ =>
              (LoopRenumbers.plain (.emit (.jump after))).bind fun _ =>
                (LoopRenumbers.plain (.mark onFalse)).bind fun _ =>
                  otherwise.renumbers onFalse after
  | whileLoop exit c body =>
    rw [emit, emit]
    exact (LoopRenumbers.bindExit exit after).bind fun _ =>
      (LoopRenumbers.plain (c.renumbers.jumps .fall (.label after))).bind fun _ =>
        (LoopRenumbers.plain .newLabel).bind fun inside =>
          (LoopRenumbers.plain (.mark inside)).bind fun _ =>
            (body.renumbers inside start).bind fun _ =>
              .plain (.emit (.jump start))
  | doLoop exit body c =>
    rw [emit, emit]
    exact (LoopRenumbers.bindExit exit after).bind fun _ =>
      (LoopRenumbers.plain .newLabel).bind fun test =>
        (body.renumbers start test).bind fun _ =>
          (LoopRenumbers.plain (.mark test)).bind fun _ =>
            .plain (c.renumbers.jumps (.label start) .fall)
  -- the exit is bound to a label that has been renumbered before
  | breakTo exit =>
    rw [emit, emit]
    exact (LoopRenumbers.boundLabel exit).bind fun l => .plain (.emit (.jump l))
  | set target value =>
    rw [emit, emit]
    exact (LoopRenumbers.plain value.renumbers.value).bind fun v =>
      .plain (.emit (.assign (.var target) v))
  | store target value =>
    rw [emit, emit]
    exact (LoopRenumbers.plain target.index.renumbers.operand).bind
      fun offset => (LoopRenumbers.plain value.renumbers.operand).bind
        fun v => .plain (.emit (.store target.array offset v))

theorem Stmt.renumbers_all (items : List Stmt) (start after : Label) :
    LoopRenumbers k id (Stmt.emitAll items start after)
      (Stmt.emitAll items (start.renumber k.numbers) (after.renumber k.numbers)) := by
  match items with
  | [] =>
    rw [emitAll, emitAll]
    exact .pure ()
  | [x] =>
    rw [emitAll, emitAll]
    exact x.renumbers start after
  | x :: y :: rest =>
    rw [emitAll, emitAll]
    exact (LoopRenumbers.plain .newLabel).bind fun middle =>
      (x.renumbers start middle).bind fun _ =>
        (LoopRenumbers.plain (.mark middle)).bind fun _ =>
          Stmt.renumbers_all (y :: rest) middle after

end

/-! ## Programs -/

/-- Programs come to the same code up to the numbers, from corresponding exits. -/
theorem Program.renumbers (p : Program) : LoopRenumbers k id p.emit p.emit :=
  (LoopRenumbers.plain .newLabel).bind fun start =>
    (LoopRenumbers.plain .newLabel).bind fun after =>
      (LoopRenumbers.plain (.mark start)).bind fun _ =>
        (p.body.renumbers start after).bind fun _ => .plain (.mark after)

end

/-- **One piece of code stands for all that a program ever comes to**: what it comes to on
`Supply.fresh`. Behind any code and any exits that have been bound, `Program.emitWith` appends that
piece with its numbers counted from those that have been reserved. -/
theorem Program.emitWith_behind {tokens : List (Located Token)}
    {ending : Option (Located LexError)} {p : Program}
    (h : (readTokens tokens ending).outcome = .ok p) :
    ∃ (reserved : Supply) (code : List Instruction), ∀ (exits : Exits) (e : Emitter), ∃ exits',
      p.emitWith exits e = ((.ok (), exits'),
        ⟨reserved.behind e.supply, e.code ++ code.map (.renumber (.behind e.supply))⟩) := by
  let base := (p.emit.emission []).run Supply.fresh
  refine ⟨base.supply, base.code, fun exits e => ?_⟩
  -- without exits that have been bound before, the code on a later supply is the first one moved
  have hMoved : (p.emit.emission []).run (Supply.fresh.behind e.supply) = _ :=
    (p.renumbers (k := .behind e.supply) []).run .fresh trivial
  rw [Supply.fresh_behind] at hMoved
  -- and which exits have been bound does not matter to a program that has been read
  obtain ⟨exits₀, hPlain⟩ := p.emitWith_of_read h [] e
  obtain ⟨exits', hEmit⟩ := p.emitWith_of_read h exits e
  have hSame : (e.run p.emitInside).2 = (p.emitWith [] e).2 := by rw [hPlain]
  refine ⟨exits', ?_⟩
  rw [hEmit, hSame, emitWith, Emitter.run, hMoved]
  rfl

/-- **Emission does not depend on what came before, up to the numbers.** Emit a program that has
been read with any two emitters, whatever code they hold, whatever they have reserved and whatever
exits have been bound, by this program or by others. Both times emission succeeds. What it appends
to the second code is what it appends to the first, with each number moved by the difference of what
has been reserved; no number in it lies below what has been reserved, so that the difference can be
taken. And as many labels, temporaries and instructions are added to the one as to the other. -/
theorem code_up_to_numbers {tokens : List (Located Token)} {ending : Option (Located LexError)}
    {p : Program} (hRead : (readTokens tokens ending).outcome = .ok p) (exits₁ exits₂ : Exits)
    (e₁ e₂ : Emitter) :
    ∃ (exits₁' exits₂' : Exits) (e₁' e₂' : Emitter) (base code₁ code₂ : List Instruction)
      (labels temps : Nat),
      p.emitWith exits₁ e₁ = ((.ok (), exits₁'), e₁') ∧
      p.emitWith exits₂ e₂ = ((.ok (), exits₂'), e₂') ∧
      e₁'.code = e₁.code ++ code₁ ∧ e₂'.code = e₂.code ++ code₂ ∧
      code₁ = base.map (.renumber (.behind e₁.supply)) ∧
      code₂ = code₁.map (.renumber (.fromTo e₁.supply e₂.supply)) ∧
      e₁'.supply = ⟨e₁.supply.labels + labels, e₁.supply.temps + temps⟩ ∧
      e₂'.supply = ⟨e₂.supply.labels + labels, e₂.supply.temps + temps⟩ ∧
      e₁'.size = e₁.size + base.length ∧ e₂'.size = e₂.size + base.length := by
  obtain ⟨reserved, base, hAll⟩ := Program.emitWith_behind hRead
  obtain ⟨exits₁', h₁⟩ := hAll exits₁ e₁
  obtain ⟨exits₂', h₂⟩ := hAll exits₂ e₂
  -- both pieces are the base with other numbers, and so the one is the other with other numbers
  have hCode : base.map (Instruction.renumber (.behind e₂.supply)) =
      (base.map (Instruction.renumber (.behind e₁.supply))).map
        (Instruction.renumber (.fromTo e₁.supply e₂.supply)) := by
    rw [List.map_map]
    exact List.map_congr_left fun i _ => (Instruction.renumber_behind _ _ i).symm
  refine ⟨exits₁', exits₂', _, _, base, _, _, reserved.labels, reserved.temps, h₁, h₂, rfl, rfl,
    rfl, hCode, ?_, ?_, ?_, ?_⟩
  · simp only [Supply.behind, Nat.add_comm]
  · simp only [Supply.behind, Nat.add_comm]
  · simp only [Emitter.size, List.length_append, List.length_map]
  · simp only [Emitter.size, List.length_append, List.length_map]

/-- A program that is emitted first, and one that is emitted behind other code. -/
theorem code_up_to_numbers_sample : ∃ p code₁ e₂',
    (readTokens sampleTokens none).outcome = .ok p ∧
    (p.emitWith [] .fresh).2.code = code₁ ∧
    (p.emitWith [(⟨0⟩, ⟨7⟩)] (⟨⟨3, 5⟩, [.jump ⟨2⟩]⟩ : Emitter)).2 = e₂' ∧
    e₂'.code = .jump ⟨2⟩ :: code₁.map (.renumber (.fromTo .fresh ⟨3, 5⟩)) := by
  obtain ⟨p, hRead⟩ := exists_sample
  obtain ⟨exits₁', exits₂', e₁', e₂', base, code₁, code₂, -, -, h₁, h₂, hCode₁, hCode₂, -, hMoved,
    -⟩ := code_up_to_numbers hRead [] [(⟨0⟩, ⟨7⟩)] .fresh ⟨⟨3, 5⟩, [.jump ⟨2⟩]⟩
  refine ⟨p, code₁, e₂', hRead, ?_, ?_, ?_⟩
  · rw [h₁]
    exact hCode₁
  · rw [h₂]
  · rw [hCode₂, hMoved]
    rfl

end JumpCode
