import JumpCode.Proofs.Code.Layout
import JumpCode.Proofs.Simulation.Expr

/-!
# JumpCode — what code for statements does

The code of a statement stands behind the label at its start and is left at its end or for the
label behind it; a break leaves it for the label behind the loop. `Placed` keeps account of these
places, and each form of statement hands places to its parts. How the machine comes from one part
to another is said once, in terms of where it starts.

Both directions are needed, since a statement may run forever:

* `Stmt.Simulated`, `Stmt.Runs.simulated` — the machine does what the statement does, by induction
  on its run;
* `Stmt.EndsWithin`, `Stmt.endsWithin` — a machine that stops has carried out a run of the
  statement, by induction on the number of its steps.
-/

namespace JumpCode

open Emission

section

variable {Value Failure : Type} {I : Interpretation Value Failure}
  {whole code first rest test body : List Instruction} {leave : Option Label}
  {start after l : Label} {k behind : Nat} {c c' : Config Value} {m m₁ : Memory Value}

/-! ## Places of statements -/

/-- The code of a statement stands at a place (`CodeAt`) right behind its start label, and there are
places for where it goes from there. -/
structure Placed (whole : List Instruction) (leave : Option Label) (start after : Label)
    (code : List Instruction) (k behind : Nat) : Prop where
  here : CodeAt whole k code
  length : behind = k + code.length
  start : ∃ p, start.At whole p ∧ k = p + 1
  after : after.Marked whole
  leave : ∀ l, leave = some l → l.Marked whole

namespace Placed

theorem marked (h : Placed whole leave start after code k behind) : start.Marked whole := by
  obtain ⟨p, hStart, _⟩ := h.start
  exact ⟨p, hStart⟩

/-- The part behind a label is `Placed` with this label for its start. -/
theorem tail (h : Placed whole leave start after (first ++ .label l :: rest) k behind) :
    Placed whole leave l after rest (k + first.length + 1) behind where
  here := (h.here.right rfl).tail
  length := by
    rw [h.length, List.length_append, List.length_cons]
    omega
  start := ⟨_, (h.here.right rfl).head, rfl⟩
  after := h.after
  leave := h.leave

/-- The part before a label is `Placed` with this label behind it, which is where it leads. -/
theorem init (h : Placed whole leave start after (first ++ .label l :: rest) k behind) :
    Placed whole leave start l first k (k + first.length) where
  here := h.here.left
  length := rfl
  start := h.start
  after := ⟨_, (h.here.right rfl).head⟩
  leave := h.leave

/-- A part behind a label with more code behind it, such as the body of a loop. -/
theorem inner (h : Placed whole leave start after (test ++ .label l :: (body ++ rest)) k behind) :
    Placed whole leave l after body (k + test.length + 1) (k + test.length + 1 + body.length) :=
  { h.tail with here := h.tail.here.left, length := rfl }

/-- The part behind the second one of two labels, before which there is a jump: what `Stmt.ifElse`
goes on with if its condition is false. -/
theorem otherwise {l' target : Label}
    (h : Placed whole leave start after
      (test ++ .label l :: (body ++ .jump target :: .label l' :: rest)) k behind) :
    Placed whole leave l' after rest (k + test.length + 1 + body.length + 1 + 1) behind where
  here := (h.tail.here.right rfl).tail.tail
  length := by
    rw [h.tail.length, List.length_append, List.length_cons, List.length_cons]
    omega
  start := ⟨_, (h.tail.here.right rfl).tail.head, rfl⟩
  after := h.after
  leave := h.leave

/-- The parts of a loop are left for the label behind the loop. -/
theorem loop (h : Placed whole leave start after code k behind) :
    Placed whole (some after) start after code k behind :=
  { h with leave := fun _ hSame => Option.some.inj hSame ▸ h.after }

/-- The body of a loop that tests first leads back to its start, and a break in it to what is
behind. -/
theorem turn (h : Placed whole leave start after (test ++ .label l :: (body ++ rest)) k behind) :
    Placed whole (some after) l start body (k + test.length + 1)
      (k + test.length + 1 + body.length) :=
  { h.loop.inner with after := h.marked }

end Placed

/-- The machine is about to carry out the code of a statement, which is `Placed` there, in this
memory. -/
structure Starts (whole : List Instruction) (leave : Option Label) (start after : Label)
    (code : List Instruction) (behind : Nat) (m : Memory Value) (c : Config Value) : Prop where
  memory : c.memory = m
  placed : Placed whole leave start after code c.pc behind

namespace Starts

/-- The part in front starts with the statement. -/
theorem init (h : Starts whole leave start after (first ++ .label l :: rest) behind m c) :
    Starts whole leave start l first (c.pc + first.length) m c := ⟨h.memory, h.placed.init⟩

/-- The body of a loop that tests last starts with the loop. -/
theorem firstTurn (h : Starts whole leave start after (body ++ .label l :: test) behind m c) :
    Starts whole (some after) start l body (c.pc + body.length) m c :=
  ⟨h.memory, h.placed.loop.init⟩

end Starts

variable [DecidableEq Value]

namespace Placed

/-- Before a piece of code that is `Placed` there is its label, which is passed over. -/
theorem enter (h : Placed whole leave start after code (k + 1) behind) (hPc : c.pc = k)
    (hMemory : c.memory = m) :
    Advances I whole c (Starts whole leave start after code behind m) := by
  subst hPc
  obtain ⟨p, hStart, hPlace⟩ := h.start
  cases hPlace
  exact .step (Config.move_label hStart) ⟨hMemory, h⟩

/-- A piece of code that is `Placed` is reached from its label. -/
theorem reach (h : Placed whole leave start after code k behind) (hOnce : MarksOnce whole)
    (hAt : start.At whole c.pc) (hMemory : c.memory = m) :
    Advances I whole c (Starts whole leave start after code behind m) := by
  obtain ⟨p, hStart, rfl⟩ := h.start
  exact h.enter (hOnce.place_unique hAt hStart) hMemory

end Placed

/-! ## How statements end -/

/-- The machine stands where a statement that has this `Outcome` leaves it: at the end of its code
or at the label behind it, at the label that a break leads to, or at an operator that fails. -/
def Outcome.Reached (I : Interpretation Value Failure) (whole : List Instruction)
    (leave : Option Label) (after : Label) (behind : Nat) :
    Outcome Value Failure → Config Value → Prop
  | .done m, c => c.memory = m ∧ (c.pc = behind ∨ after.At whole c.pc)
  | .left m, c => c.memory = m ∧ ∃ l, leave = some l ∧ l.At whole c.pc
  | .failed f m, c => c.Fails I whole f m

/-- A jump behind a part of a statement comes to the label that the part leads to. -/
theorem Outcome.Reached.to_label (h : (Outcome.done m).Reached I whole leave after k c)
    (hOnce : MarksOnce whole) (hJump : whole[k]? = some (.jump after))
    (hMarked : after.Marked whole) :
    Leads I whole c fun c' => c'.memory = m ∧ after.At whole c'.pc := by
  obtain ⟨hMemory, rfl | hAt⟩ := h
  · obtain ⟨j, hMark⟩ := hMarked
    exact .step (hOnce.move_jump hJump hMark) (.refl ⟨hMemory, hMark⟩)
  · exact .refl ⟨hMemory, hAt⟩

/-- Where a jump stands behind a part of a statement, the part ends as the statement does
(`Outcome.Reached`). -/
theorem Outcome.Reached.jump {o : Outcome Value Failure} (h : o.Reached I whole leave after k c)
    (hOnce : MarksOnce whole) (hJump : whole[k]? = some (.jump after))
    (hMarked : after.Marked whole) : Leads I whole c (o.Reached I whole leave after behind) := by
  cases o with
  | done m => exact (h.to_label hOnce hJump hMarked).mono fun _ hAt => ⟨hAt.1, .inr hAt.2⟩
  | left m => exact .refl h
  | failed f m => exact .refl h

/-- A loop that is left by a break in its body is done, as `Stmt.Runs` says. -/
theorem Outcome.Reached.broken (h : (Outcome.left m).Reached I whole (some after) start k c) :
    (Outcome.done m).Reached I whole leave after behind c := by
  obtain ⟨hMemory, l, hSame, hAt⟩ := h
  cases hSame
  exact ⟨hMemory, .inr hAt⟩

/-- Where a part has come to the label behind it, the next part `Starts`. -/
theorem Placed.pass {leave' : Option Label}
    (h : Placed whole leave start after (first ++ .label l :: rest) k behind)
    (hOnce : MarksOnce whole)
    (hReached : (Outcome.done m).Reached I whole leave' l (k + first.length) c) :
    Advances I whole c (Starts whole leave l after rest behind m) := by
  obtain ⟨hMemory, hPc | hAt⟩ := hReached
  · exact h.tail.enter hPc hMemory
  · exact h.tail.reach hOnce hAt hMemory

/-- Behind the body of a loop a jump leads back to the start, where the loop `Starts` again. -/
theorem Placed.back {j : Nat} (h : Placed whole leave start after code k behind)
    (hOnce : MarksOnce whole) (hJump : whole[j]? = some (.jump start))
    (hReached : (Outcome.done m).Reached I whole (some after) start j c) :
    Advances I whole c (Starts whole leave start after code behind m) :=
  (hReached.to_label hOnce hJump h.marked).advances fun _ hAt => h.reach hOnce hAt.2 hAt.1

/-- A statement fails where what it begins with does: what `Computes` a failure has
`Outcome.Reached` it. -/
theorem Starts.failed {α : Type} {f : Failure} {P : α → Config Value → Prop}
    {leave' : Option Label} {after' : Label} {behind' : Nat}
    (h : Starts whole leave start after code behind m c)
    (hFails : Computes I whole c (.error f) P) :
    Leads I whole c ((Outcome.failed f m).Reached I whole leave' after' behind') := by
  rw [Computes, h.memory] at hFails
  exact hFails

/-! ## Conditions -/

section Conditions

variable {e : Expr} {s s' : Supply}

/-- The code of a condition goes to its targets (`Target.At`), and changes nothing in the memory. -/
theorem Expr.leads_test {onTrue onFalse : Target} {r : Except Failure Bool}
    (hOnce : MarksOnce whole) (hJumps : (e.emitJumps onTrue onFalse).run s = ⟨(), s', test⟩)
    (hTest : e.test I c.memory = r) (hAt : CodeAt whole c.pc test) (hTrue : onTrue.Within whole)
    (hFalse : onFalse.Within whole) :
    Computes I whole c r fun b c' =>
      (if b then onTrue else onFalse).At whole (c.pc + test.length) c'.pc ∧
        c'.memory = c.memory := by
  have hLeads := ((e.simulated I hOnce).jumps onTrue onFalse s).2 c
  rw [hJumps, hTest] at hLeads
  exact (hLeads hAt hTrue hFalse).mono fun _ _ h => ⟨h.1, h.2.memory⟩

namespace Starts

/-- A condition at the beginning of a statement falls on if it is true, and goes to a label if not:
`Expr.leads_test` for the two targets that conditions have there. -/
theorem leads_test {r : Except Failure Bool}
    (h : Starts whole leave start after (test ++ rest) behind m c) (hOnce : MarksOnce whole)
    (hJumps : (e.emitJumps .fall (.label l)).run s = ⟨(), s', test⟩)
    (hTest : e.test I m = r) (hMarked : l.Marked whole) :
    Computes I whole c r fun b c' =>
      (if b then c'.pc = c.pc + test.length else l.At whole c'.pc) ∧ c'.memory = m := by
  obtain ⟨rfl, hPlaced⟩ := h
  refine (Expr.leads_test hOnce hJumps hTest hPlaced.here.left Target.within_fall
    (Target.within_label hMarked)).mono ?_
  intro b c' hArrived
  cases b with
  | true => exact hArrived
  | false => exact hArrived

/-- Behind a condition that is true stands the part that it guards, and the part `Starts`. -/
theorem inside {leave' : Option Label} {start' after' : Label} {behind' : Nat}
    (h : Starts whole leave start after (test ++ rest) behind m c) (hOnce : MarksOnce whole)
    (hJumps : (e.emitJumps .fall (.label l)).run s = ⟨(), s', test⟩)
    (hTest : e.test I m = .ok true) (hMarked : l.Marked whole)
    (hBody : Placed whole leave' start' after' body (c.pc + test.length + 1) behind') :
    Advances I whole c (Starts whole leave' start' after' body behind' m) :=
  Leads.advances (h.leads_test hOnce hJumps hTest hMarked) fun _ hHere =>
    hBody.enter hHere.1 hHere.2

/-- A condition that is false goes to the part behind its label, and this part `Starts`. -/
theorem otherwise {leave' : Option Label} {after' : Label} {behind' : Nat}
    (h : Starts whole leave start after (test ++ rest) behind m c) (hOnce : MarksOnce whole)
    (hJumps : (e.emitJumps .fall (.label l)).run s = ⟨(), s', test⟩)
    (hTest : e.test I m = .ok false) (hOther : Placed whole leave' l after' body k behind') :
    Advances I whole c (Starts whole leave' l after' body behind' m) :=
  Leads.advances (h.leads_test hOnce hJumps hTest hOther.marked) fun _ hThere =>
    hOther.reach hOnce hThere.1 hThere.2

/-- A statement is done if its condition is false and goes to the label behind it. -/
theorem skipped (h : Starts whole leave start after (test ++ rest) behind m c)
    (hOnce : MarksOnce whole)
    (hJumps : (e.emitJumps .fall (.label after)).run s = ⟨(), s', test⟩)
    (hTest : e.test I m = .ok false) :
    Leads I whole c ((Outcome.done m).Reached I whole leave after behind) :=
  Leads.mono (h.leads_test hOnce hJumps hTest h.placed.after) fun _ hThere =>
    ⟨hThere.2, .inr hThere.1⟩

/-- A statement fails where its condition does. -/
theorem test_failed {f : Failure} (h : Starts whole leave start after (test ++ rest) behind m c)
    (hOnce : MarksOnce whole) (hJumps : (e.emitJumps .fall (.label l)).run s = ⟨(), s', test⟩)
    (hTest : e.test I m = .error f) (hMarked : l.Marked whole) :
    Leads I whole c ((Outcome.failed f m).Reached I whole leave after behind) :=
  h.failed (h.leads_test hOnce hJumps hTest hMarked)

/-- A condition at the end of a loop leads back to the start if it is true, and falls on if not. -/
theorem leads_again {r : Except Failure Bool} (h : Starts whole leave l after test behind m c)
    (hOnce : MarksOnce whole) (hLoop : Placed whole leave start after code k behind)
    (hJumps : (e.emitJumps (.label start) .fall).run s = ⟨(), s', test⟩)
    (hTest : e.test I m = r) :
    Computes I whole c r fun b c' =>
      (if b then start.At whole c'.pc else c'.pc = behind) ∧ c'.memory = m := by
  obtain ⟨rfl, hPlaced⟩ := h
  refine (Expr.leads_test hOnce hJumps hTest hPlaced.here (Target.within_label hLoop.marked)
    Target.within_fall).mono ?_
  intro b c' hArrived
  cases b with
  | true => exact hArrived
  | false => exact ⟨hArrived.1.trans hPlaced.length.symm, hArrived.2⟩

/-- A loop whose condition is true at the end of its body starts again. -/
theorem again (h : Starts whole leave l after test behind m c) (hOnce : MarksOnce whole)
    (hLoop : Placed whole leave start after code k behind)
    (hJumps : (e.emitJumps (.label start) .fall).run s = ⟨(), s', test⟩)
    (hTest : e.test I m = .ok true) :
    Advances I whole c (Starts whole leave start after code behind m) :=
  Leads.advances (h.leads_again hOnce hLoop hJumps hTest) fun _ hThere =>
    hLoop.reach hOnce hThere.1 hThere.2

end Starts

end Conditions

/-! ## Assignments -/

/-- The code of an assignment to a variable changes it (`Memory.set`) and runs off its end. -/
theorem Starts.leads_set {a : Expr} {x : Symbol} {s s' : Supply} {value : Rvalue}
    {r : Except Failure Value}
    (h : Starts whole leave start after (code ++ [.assign (.var x) value]) behind m c)
    (hOnce : MarksOnce whole) (hCode : a.emitValue.run s = ⟨value, s', code⟩)
    (hValue : a.eval I m = r) :
    Computes I whole c r fun v c' => c'.memory = m.set x v ∧ c'.pc = behind := by
  obtain ⟨rfl, hPlaced⟩ := h
  have hSim := ((a.simulated I hOnce).value s).2 c
  rw [hCode] at hSim
  obtain ⟨before, hEval, hComputes⟩ := hSim hPlaced.here.left
  rw [← hValue, hEval]
  -- the last operator of the value is applied by the assignment itself
  refine hComputes.bind fun last c₁ hReady => ⟨hReady.2.1.memory, ?_⟩
  obtain ⟨hPc, hKeeps, hHolds⟩ := hReady
  have hAssign := (hPlaced.here.right hPc).head
  have hLast := hHolds c₁ (.refl s' c₁)
  cases last with
  | error f => exact Leads.refl ⟨rfl, Config.move_assign_error hAssign hLast⟩
  | ok v =>
    refine Leads.step (Config.move_assign hAssign hLast) (.refl ⟨?_, ?_⟩)
    · exact congrArg (Memory.set · x v) hKeeps.memory
    · show c₁.pc + 1 = behind
      rw [hPlaced.length, hPc, List.length_append, List.length_singleton, Nat.add_assoc]

/-- The code of an assignment to an element, which computes the index before the value
(`Expr.evalPair`), changes the element (`Memory.put`) and runs off its end. -/
theorem Starts.leads_store {target : Access} {a : Expr} {s s₁ s' : Supply}
    {offset value : Operand} {code' : List Instruction} {r : Except Failure (Value × Value)}
    (h : Starts whole leave start after (code ++ (code' ++ [.store target.array offset value]))
      behind m c) (hOnce : MarksOnce whole)
    (hIndex : target.index.emitOperand.run s = ⟨offset, s₁, code⟩)
    (hValue : a.emitOperand.run s₁ = ⟨value, s', code'⟩)
    (hPair : target.index.evalPair I m a = r) :
    Computes I whole c r fun p c' =>
      c'.memory = m.put target.array p.1 p.2 ∧ c'.pc = behind := by
  obtain ⟨rfl, hPlaced⟩ := h
  have hSim := sim_pair (target.index.carried I hOnce).operand
    (a.carried I hOnce).operand s c
  rw [hIndex] at hSim
  dsimp only at hSim
  rw [hValue, hPair] at hSim
  -- index and value are computed as a pair, and stored in one step
  have hHere : CodeAt whole c.pc ((code ++ code') ++ [.store target.array offset value]) := by
    rw [List.append_assoc]
    exact hPlaced.here
  refine (hSim hHere.left).andThen fun p c₁ hReady => ?_
  obtain ⟨hPc, hKeeps, hHolds, hHolds'⟩ := hReady
  have hStore := (hHere.right hPc).head
  refine .step (Config.move_store hStore (hHolds c₁ (.refl s' c₁)) (hHolds' c₁ (.refl s' c₁)))
    (.refl ⟨?_, ?_⟩)
  · exact congrArg (Memory.put · target.array p.1 p.2) hKeeps.memory
  · show c₁.pc + 1 = behind
    simp only [hPlaced.length, hPc, List.length_append, List.length_singleton, Nat.add_assoc]

/-! ## From runs of statements to runs of the machine -/

/-- A statement is simulated up to an `Outcome`. Wherever its code is placed, the machine comes from
the start of it (`Starts`) to where the outcome leaves it (`Outcome.Reached`). -/
def Stmt.Simulated (I : Interpretation Value Failure) (whole : List Instruction) (m : Memory Value)
    (x : Stmt) (o : Outcome Value Failure) : Prop :=
  ∀ ⦃leave : Option Label⦄ ⦃start after : Label⦄ ⦃s s' : Supply⦄ ⦃code : List Instruction⦄
    ⦃behind : Nat⦄ ⦃c : Config Value⦄, x.Layout leave start after s code s' →
    Starts whole leave start after code behind m c →
    Leads I whole c (o.Reached I whole leave after behind)

namespace Stmt.Simulated

variable {x y : Stmt} {items : List Stmt} {e : Expr} {exit : LoopExit} {o : Outcome Value Failure}

/-! ### Sequences and conditionals -/

theorem seq_done (hOnce : MarksOnce whole) (hFirst : x.Simulated I whole m (.done m₁))
    (hItems : (Stmt.seq items).Simulated I whole m₁ o) (hRuns : (Stmt.seq items).Runs I m₁ o) :
    (Stmt.seq (x :: items)).Simulated I whole m o := by
  intro leave start after s s' code behind c hLayout hStarts
  cases hLayout with
  | seq_one hOnly =>
    -- behind a single statement nothing is left to be done
    cases hRuns
    exact hFirst hOnly hStarts
  | seq_cons hLayoutFirst hOthers =>
    refine (hFirst hLayoutFirst hStarts.init).bind fun c₁ hReached => ?_
    refine (hStarts.placed.pass hOnce hReached).leads.bind fun c₂ hStarts₂ => ?_
    exact hItems hOthers hStarts₂

/-- An item that does not come to its end ends the sequence: its `Outcome` is that of the sequence.
-/
theorem seq_stopped (hFirst : x.Simulated I whole m o) (hStopped : ∀ m', o ≠ .done m') :
    (Stmt.seq (x :: items)).Simulated I whole m o := by
  intro leave start after s s' code behind c hLayout hStarts
  cases hLayout with
  | seq_one hOnly => exact hFirst hOnly hStarts
  | seq_cons hLayoutFirst _ =>
    refine (hFirst hLayoutFirst hStarts.init).mono fun c₁ hReached => ?_
    cases o with
    | done m' => exact absurd rfl (hStopped m')
    | left m' => exact hReached
    | failed f m' => exact hReached

theorem ifThen_true (hOnce : MarksOnce whole) (hTest : e.test I m = .ok true)
    (hBody : x.Simulated I whole m o) : (Stmt.ifThen e x).Simulated I whole m o := by
  intro leave start after s s' code behind c hLayout hStarts
  cases hLayout with
  | ifThen hJumps hLayoutBody =>
    have hInside := hStarts.inside hOnce hJumps hTest hStarts.placed.after hStarts.placed.tail
    exact hInside.leads.bind fun c₁ hStarts₁ => hBody hLayoutBody hStarts₁

theorem ifElse_true (hOnce : MarksOnce whole) (hTest : e.test I m = .ok true)
    (hBody : x.Simulated I whole m o) : (Stmt.ifElse e x y).Simulated I whole m o := by
  intro leave start after s s' code behind c hLayout hStarts
  cases hLayout with
  | ifElse hJumps hLayoutBody _ =>
    have hInside := hStarts.inside hOnce hJumps hTest hStarts.placed.otherwise.marked
      hStarts.placed.inner
    refine hInside.leads.bind fun c₁ hStarts₁ => ?_
    -- a jump past the other branch stands behind the first one
    refine (hBody hLayoutBody hStarts₁).bind fun c₂ hReached => ?_
    exact hReached.jump hOnce (hStarts.placed.tail.here.right rfl).head hStarts.placed.after

theorem ifElse_false (hOnce : MarksOnce whole) (hTest : e.test I m = .ok false)
    (hOtherwise : y.Simulated I whole m o) : (Stmt.ifElse e x y).Simulated I whole m o := by
  intro leave start after s s' code behind c hLayout hStarts
  cases hLayout with
  | ifElse hJumps _ hLayoutOtherwise =>
    have hOther := hStarts.otherwise hOnce hJumps hTest hStarts.placed.otherwise
    exact hOther.leads.bind fun c₁ hStarts₁ => hOtherwise hLayoutOtherwise hStarts₁

/-! ### Loops that test first -/

/-- From the start of a loop whose condition is true, the machine comes through the body to where
its `Outcome` leaves it. -/
theorem turn {s s₁ s' : Supply} (hBody : x.Simulated I whole m o) (hOnce : MarksOnce whole)
    (hTest : e.test I m = .ok true)
    (hJumps : (e.emitJumps .fall (.label after)).run s = ⟨(), s₁, test⟩)
    (hLayout : x.Layout (some after) l start s₁.skipLabel body s')
    (hStarts : Starts whole leave start after (test ++ .label l :: (body ++ [.jump start])) behind m
      c) :
    Leads I whole c
      (o.Reached I whole (some after) start (c.pc + test.length + 1 + body.length)) := by
  have hInside := hStarts.inside hOnce hJumps hTest hStarts.placed.after hStarts.placed.turn
  exact hInside.leads.bind fun c₁ hStarts₁ => hBody hLayout hStarts₁

/-- If the body comes to its end, the jump behind it leads to the same loop again (`Placed.back`).
-/
theorem back {s s₁ s' : Supply} (hBody : x.Simulated I whole m (.done m₁)) (hOnce : MarksOnce whole)
    (hTest : e.test I m = .ok true)
    (hJumps : (e.emitJumps .fall (.label after)).run s = ⟨(), s₁, test⟩)
    (hLayout : x.Layout (some after) l start s₁.skipLabel body s')
    (hStarts : Starts whole leave start after (test ++ .label l :: (body ++ [.jump start])) behind m
      c) :
    Advances I whole c
      (Starts whole leave start after (test ++ .label l :: (body ++ [.jump start])) behind m₁) :=
  (hBody.turn hOnce hTest hJumps hLayout hStarts).advances fun _ hReached =>
    hStarts.placed.back hOnce (hStarts.placed.tail.here.right rfl).head hReached

theorem while_true (hOnce : MarksOnce whole) (hTest : e.test I m = .ok true)
    (hBody : x.Simulated I whole m (.done m₁))
    (hAgain : (Stmt.whileLoop exit e x).Simulated I whole m₁ o) :
    (Stmt.whileLoop exit e x).Simulated I whole m o := by
  intro leave start after s s' code behind c hLayout hStarts
  cases hLayout with
  | whileLoop hJumps hLayoutBody =>
    have hBack := hBody.back hOnce hTest hJumps hLayoutBody hStarts
    exact hBack.leads.bind fun c₁ hStarts₁ => hAgain (.whileLoop hJumps hLayoutBody) hStarts₁

theorem while_left (hOnce : MarksOnce whole) (hTest : e.test I m = .ok true)
    (hBody : x.Simulated I whole m (.left m₁)) :
    (Stmt.whileLoop exit e x).Simulated I whole m (.done m₁) := by
  intro leave start after s s' code behind c hLayout hStarts
  cases hLayout with
  | whileLoop hJumps hLayoutBody =>
    exact (hBody.turn hOnce hTest hJumps hLayoutBody hStarts).mono fun _ hReached =>
      hReached.broken

theorem while_failed {f : Failure} (hOnce : MarksOnce whole) (hTest : e.test I m = .ok true)
    (hBody : x.Simulated I whole m (.failed f m₁)) :
    (Stmt.whileLoop exit e x).Simulated I whole m (.failed f m₁) := by
  intro leave start after s s' code behind c hLayout hStarts
  cases hLayout with
  | whileLoop hJumps hLayoutBody =>
    exact (hBody.turn hOnce hTest hJumps hLayoutBody hStarts).mono fun _ hFails => hFails

/-! ### Loops that test last -/

/-- If the body comes to its end, the condition behind it is reached (`Placed.pass`). -/
theorem to_test {s s₁ : Supply} (hBody : x.Simulated I whole m (.done m₁)) (hOnce : MarksOnce whole)
    (hLayout : x.Layout (some after) start l s body s₁)
    (hStarts : Starts whole leave start after (body ++ .label l :: test) behind m c) :
    Advances I whole c (Starts whole leave l after test behind m₁) :=
  (hBody hLayout hStarts.firstTurn).advances fun _ hReached => hStarts.placed.pass hOnce hReached

/-- If the condition is true there, the machine comes to the same loop again. -/
theorem again {s s₁ s' : Supply} (hBody : x.Simulated I whole m (.done m₁))
    (hOnce : MarksOnce whole) (hTest : e.test I m₁ = .ok true)
    (hLayout : x.Layout (some after) start l s body s₁)
    (hJumps : (e.emitJumps (.label start) .fall).run s₁ = ⟨(), s', test⟩)
    (hStarts : Starts whole leave start after (body ++ .label l :: test) behind m c) :
    Advances I whole c (Starts whole leave start after (body ++ .label l :: test) behind m₁) :=
  (hBody.to_test hOnce hLayout hStarts).leads.advances fun _ hStarts₁ =>
    hStarts₁.again hOnce hStarts.placed hJumps hTest

theorem do_true (hOnce : MarksOnce whole) (hBody : x.Simulated I whole m (.done m₁))
    (hTest : e.test I m₁ = .ok true) (hAgain : (Stmt.doLoop exit x e).Simulated I whole m₁ o) :
    (Stmt.doLoop exit x e).Simulated I whole m o := by
  intro leave start after s s' code behind c hLayout hStarts
  cases hLayout with
  | doLoop hLayoutBody hJumps =>
    have hBack := hBody.again hOnce hTest hLayoutBody hJumps hStarts
    exact hBack.leads.bind fun c₁ hStarts₁ => hAgain (.doLoop hLayoutBody hJumps) hStarts₁

theorem do_left (hBody : x.Simulated I whole m (.left m₁)) :
    (Stmt.doLoop exit x e).Simulated I whole m (.done m₁) := by
  intro leave start after s s' code behind c hLayout hStarts
  cases hLayout with
  | doLoop hLayoutBody _ =>
    exact (hBody hLayoutBody hStarts.firstTurn).mono fun _ hReached => hReached.broken

theorem do_failed {f : Failure} (hBody : x.Simulated I whole m (.failed f m₁)) :
    (Stmt.doLoop exit x e).Simulated I whole m (.failed f m₁) := by
  intro leave start after s s' code behind c hLayout hStarts
  cases hLayout with
  | doLoop hLayoutBody _ =>
    exact (hBody hLayoutBody hStarts.firstTurn).mono fun _ hFails => hFails

theorem do_false (hOnce : MarksOnce whole) (hBody : x.Simulated I whole m (.done m₁))
    (hTest : e.test I m₁ = .ok false) :
    (Stmt.doLoop exit x e).Simulated I whole m (.done m₁) := by
  intro leave start after s s' code behind c hLayout hStarts
  cases hLayout with
  | doLoop hLayoutBody hJumps =>
    refine (hBody.to_test hOnce hLayoutBody hStarts).leads.bind fun c₁ hStarts₁ => ?_
    exact Leads.mono (hStarts₁.leads_again hOnce hStarts.placed hJumps hTest) fun _ hEnd =>
      ⟨hEnd.2, .inl hEnd.1⟩

theorem do_testFailed {f : Failure} (hOnce : MarksOnce whole)
    (hBody : x.Simulated I whole m (.done m₁)) (hTest : e.test I m₁ = .error f) :
    (Stmt.doLoop exit x e).Simulated I whole m (.failed f m₁) := by
  intro leave start after s s' code behind c hLayout hStarts
  cases hLayout with
  | doLoop hLayoutBody hJumps =>
    refine (hBody.to_test hOnce hLayoutBody hStarts).leads.bind fun c₁ hStarts₁ => ?_
    exact hStarts₁.failed (hStarts₁.leads_again hOnce hStarts.placed hJumps hTest)

/-! ### Statements without parts -/

/-- Where `Stmt.Layout` leaves no code, the machine has come to the end. -/
theorem nothing (hEmpty : ∀ {leave start after s code s'},
      x.Layout leave start after s code s' → code = []) :
    x.Simulated I whole m (.done m) := by
  intro leave start after s s' code behind c hLayout hStarts
  obtain rfl := hEmpty hLayout
  exact .refl ⟨hStarts.memory, .inl hStarts.placed.length.symm⟩

theorem breakTo (hOnce : MarksOnce whole) :
    (Stmt.breakTo exit).Simulated I whole m (.left m) := by
  intro leave start after s s' code behind c hLayout hStarts
  cases hLayout with
  | @breakTo l =>
    obtain ⟨j, hMark⟩ := hStarts.placed.leave l rfl
    exact .step (hOnce.move_jump hStarts.placed.here.head hMark)
      (.refl ⟨hStarts.memory, l, rfl, hMark⟩)

/-- The operands of an assignment to an element are computed as a pair (`Expr.evalPair`), and either
may fail. -/
theorem store_failed {target : Access} {a : Expr} {f : Failure} (hOnce : MarksOnce whole)
    (hPair : target.index.evalPair I m a = .error f) :
    (Stmt.store target a).Simulated I whole m (.failed f m) := by
  intro leave start after s s' code behind c hLayout hStarts
  cases hLayout with
  | store hIndex hValue => exact hStarts.failed (hStarts.leads_store hOnce hIndex hValue hPair)

theorem store {target : Access} {a : Expr} {i v : Value} (hOnce : MarksOnce whole)
    (hPair : target.index.evalPair I m a = .ok (i, v)) :
    (Stmt.store target a).Simulated I whole m (.done (m.put target.array i v)) := by
  intro leave start after s s' code behind c hLayout hStarts
  cases hLayout with
  | store hIndex hValue =>
    exact Leads.mono (hStarts.leads_store hOnce hIndex hValue hPair) fun _ hEnd =>
      ⟨hEnd.1, .inl hEnd.2⟩

end Stmt.Simulated

/-- **The machine does what a statement does.** From the start of its code, the machine comes to
where the outcome of the statement leaves it. The induction is on the run of the statement, and each
of its rules is one of the laws of `Stmt.Simulated`. -/
theorem Stmt.Runs.simulated (hOnce : MarksOnce whole) {x : Stmt} {o : Outcome Value Failure}
    (h : x.Runs I m o) : x.Simulated I whole m o := by
  induction h with
  | null => exact .nothing fun hLayout => by cases hLayout; rfl
  | seq_nil => exact .nothing fun hLayout => by cases hLayout; rfl
  | seq_done _ hItems ihFirst ihItems => exact ihFirst.seq_done hOnce ihItems hItems
  | seq_left _ ihFirst => exact ihFirst.seq_stopped fun _ hSame => by cases hSame
  | seq_failed _ ihFirst => exact ihFirst.seq_stopped fun _ hSame => by cases hSame
  | ifThen_true hTest _ ihBody => exact ihBody.ifThen_true hOnce hTest
  | ifThen_false hTest =>
    intro leave start after s s' code behind c hLayout hStarts
    cases hLayout with
    | ifThen hJumps _ => exact hStarts.skipped hOnce hJumps hTest
  | ifThen_failed hTest =>
    intro leave start after s s' code behind c hLayout hStarts
    cases hLayout with
    | ifThen hJumps _ => exact hStarts.test_failed hOnce hJumps hTest hStarts.placed.after
  | ifElse_true hTest _ ihBody => exact ihBody.ifElse_true hOnce hTest
  | ifElse_false hTest _ ihOtherwise => exact ihOtherwise.ifElse_false hOnce hTest
  | ifElse_failed hTest =>
    intro leave start after s s' code behind c hLayout hStarts
    cases hLayout with
    | ifElse hJumps _ _ =>
      exact hStarts.test_failed hOnce hJumps hTest hStarts.placed.otherwise.marked
  | while_true hTest _ _ ihBody ihAgain => exact ihBody.while_true hOnce hTest ihAgain
  | while_left hTest _ ihBody => exact ihBody.while_left hOnce hTest
  | while_failed hTest _ ihBody => exact ihBody.while_failed hOnce hTest
  | while_false hTest =>
    intro leave start after s s' code behind c hLayout hStarts
    cases hLayout with
    | whileLoop hJumps _ => exact hStarts.skipped hOnce hJumps hTest
  | while_testFailed hTest =>
    intro leave start after s s' code behind c hLayout hStarts
    cases hLayout with
    | whileLoop hJumps _ => exact hStarts.test_failed hOnce hJumps hTest hStarts.placed.after
  | do_true _ hTest _ ihBody ihAgain => exact ihBody.do_true hOnce hTest ihAgain
  | do_left _ ihBody => exact ihBody.do_left
  | do_failed _ ihBody => exact ihBody.do_failed
  | do_false _ hTest ihBody => exact ihBody.do_false hOnce hTest
  | do_testFailed _ hTest ihBody => exact ihBody.do_testFailed hOnce hTest
  | breakTo => exact .breakTo hOnce
  | set hValue =>
    intro leave start after s s' code behind c hLayout hStarts
    cases hLayout with
    | set hCode =>
      exact Leads.mono (hStarts.leads_set hOnce hCode hValue) fun _ hEnd => ⟨hEnd.1, .inl hEnd.2⟩
  | set_failed hValue =>
    intro leave start after s s' code behind c hLayout hStarts
    cases hLayout with
    | set hCode => exact hStarts.failed (hStarts.leads_set hOnce hCode hValue)
  | store hIndex hValue =>
    refine .store hOnce ?_
    rw [Expr.evalPair, hIndex, hValue]
    rfl
  | store_indexFailed hIndex =>
    refine .store_failed hOnce ?_
    rw [Expr.evalPair, hIndex]
    rfl
  | store_failed hIndex hValue =>
    refine .store_failed hOnce ?_
    rw [Expr.evalPair, hIndex, hValue]
    rfl

/-! ## From runs of the machine to runs of statements -/

/-- A statement has an `Outcome`, whenever the machine goes no further after that many steps
(`Stops`) from the start of its code. -/
def Stmt.EndsWithin (I : Interpretation Value Failure) (whole : List Instruction) (n : Nat)
    (x : Stmt) : Prop :=
  ∀ ⦃leave : Option Label⦄ ⦃start after : Label⦄ ⦃s s' : Supply⦄ ⦃code : List Instruction⦄
    ⦃behind : Nat⦄ ⦃m : Memory Value⦄ ⦃c : Config Value⦄, x.Layout leave start after s code s' →
    Starts whole leave start after code behind m c → Stops I whole n c → ∃ o, x.Runs I m o

namespace Stmt.EndsWithin

variable {n : Nat} {x y : Stmt} {items : List Stmt} {e : Expr} {exit : LoopExit}
  {s s₁ s₂ s' : Supply}

/-- What the machine comes to by a step at least (`Advances`), it has fewer steps for: the
hypothesis of the induction holds there. -/
theorem later (ih : ∀ j < n, ∀ x : Stmt, x.EndsWithin I whole j) (hStops : Stops I whole n c)
    (hLayout : x.Layout leave start after s code s')
    (hAdvances : Advances I whole c (Starts whole leave start after code behind m)) :
    ∃ o, x.Runs I m o := by
  obtain ⟨j, c₁, hLess, hStarts, hStops₁⟩ := hStops.advances hAdvances
  exact ih j hLess x hLayout hStarts hStops₁

theorem seq_one (hFirst : ∃ o, x.Runs I m o) : ∃ o, (Stmt.seq [x]).Runs I m o := by
  obtain ⟨o, hRuns⟩ := hFirst
  cases o with
  | done m₁ => exact ⟨_, .seq_done hRuns .seq_nil⟩
  | left m₁ => exact ⟨_, .seq_left hRuns⟩
  | failed f m₁ => exact ⟨_, .seq_failed hRuns⟩

theorem seq_cons (ih : ∀ j < n, ∀ x : Stmt, x.EndsWithin I whole j) (hOnce : MarksOnce whole)
    (hLayout : x.Layout leave start l s first s₁)
    (hOthers : (Stmt.seq items).Layout leave l after s₁ rest s')
    (hStarts : Starts whole leave start after (first ++ .label l :: rest) behind m c)
    (hStops : Stops I whole n c) (hFirst : ∃ o, x.Runs I m o) :
    ∃ o, (Stmt.seq (x :: items)).Runs I m o := by
  obtain ⟨o, hRuns⟩ := hFirst
  cases o with
  | left m₁ => exact ⟨_, .seq_left hRuns⟩
  | failed f m₁ => exact ⟨_, .seq_failed hRuns⟩
  | done m₁ =>
    have hReached := hRuns.simulated hOnce hLayout hStarts.init
    obtain ⟨o, hItems⟩ := later ih hStops hOthers (hReached.advances fun _ hEnd =>
      hStarts.placed.pass hOnce hEnd)
    exact ⟨o, .seq_done hRuns hItems⟩

theorem ifThen (ih : ∀ j < n, ∀ x : Stmt, x.EndsWithin I whole j) (hOnce : MarksOnce whole)
    (hJumps : (e.emitJumps .fall (.label after)).run s = ⟨(), s₁, test⟩)
    (hLayout : x.Layout leave l after s₁ body s')
    (hStarts : Starts whole leave start after (test ++ .label l :: body) behind m c)
    (hStops : Stops I whole n c) : ∃ o, (Stmt.ifThen e x).Runs I m o := by
  -- the condition decides without the machine: its code has been simulated
  cases hTest : e.test I m with
  | error f => exact ⟨_, .ifThen_failed hTest⟩
  | ok b =>
    cases b with
    | false => exact ⟨_, .ifThen_false hTest⟩
    | true =>
      obtain ⟨o, hRuns⟩ := later ih hStops hLayout
        (hStarts.inside hOnce hJumps hTest hStarts.placed.after hStarts.placed.tail)
      exact ⟨o, .ifThen_true hTest hRuns⟩

theorem ifElse {l' : Label} (ih : ∀ j < n, ∀ x : Stmt, x.EndsWithin I whole j)
    (hOnce : MarksOnce whole) (hJumps : (e.emitJumps .fall (.label l')).run s = ⟨(), s₁, test⟩)
    (hLayout : x.Layout leave l after s₁ body s₂) (hOtherwise : y.Layout leave l' after s₂ rest s')
    (hStarts : Starts whole leave start after
      (test ++ .label l :: (body ++ .jump after :: .label l' :: rest)) behind m c)
    (hStops : Stops I whole n c) : ∃ o, (Stmt.ifElse e x y).Runs I m o := by
  have hOther := hStarts.placed.otherwise
  cases hTest : e.test I m with
  | error f => exact ⟨_, .ifElse_failed hTest⟩
  | ok b =>
    cases b with
    | true =>
      obtain ⟨o, hRuns⟩ := later ih hStops hLayout
        (hStarts.inside hOnce hJumps hTest hOther.marked hStarts.placed.inner)
      exact ⟨o, .ifElse_true hTest hRuns⟩
    | false =>
      obtain ⟨o, hRuns⟩ := later ih hStops hOtherwise
        (hStarts.otherwise hOnce hJumps hTest hOther)
      exact ⟨o, .ifElse_false hTest hRuns⟩

theorem whileLoop (ih : ∀ j < n, ∀ x : Stmt, x.EndsWithin I whole j) (hOnce : MarksOnce whole)
    (hJumps : (e.emitJumps .fall (.label after)).run s = ⟨(), s₁, test⟩)
    (hLayout : x.Layout (some after) s₁.nextLabel start s₁.skipLabel body s')
    (hStarts : Starts whole leave start after
      (test ++ .label s₁.nextLabel :: (body ++ [.jump start])) behind m c)
    (hStops : Stops I whole n c) : ∃ o, (Stmt.whileLoop exit e x).Runs I m o := by
  cases hTest : e.test I m with
  | error f => exact ⟨_, .while_testFailed hTest⟩
  | ok b =>
    cases b with
    | false => exact ⟨_, .while_false hTest⟩
    | true =>
      obtain ⟨o, hRuns⟩ := later ih hStops hLayout
        (hStarts.inside hOnce hJumps hTest hStarts.placed.after hStarts.placed.turn)
      cases o with
      | left m₁ => exact ⟨_, .while_left hTest hRuns⟩
      | failed f m₁ => exact ⟨_, .while_failed hTest hRuns⟩
      | done m₁ =>
        have hBack := (hRuns.simulated hOnce).back hOnce hTest hJumps hLayout hStarts
        obtain ⟨o, hAgain⟩ := later ih hStops (.whileLoop hJumps hLayout) hBack
        exact ⟨o, .while_true hTest hRuns hAgain⟩

theorem doLoop (ih : ∀ j < n, ∀ x : Stmt, x.EndsWithin I whole j) (hOnce : MarksOnce whole)
    (hLayout : x.Layout (some after) start s.nextLabel s.skipLabel body s₁)
    (hJumps : (e.emitJumps (.label start) .fall).run s₁ = ⟨(), s', test⟩)
    (hStarts : Starts whole leave start after (body ++ .label s.nextLabel :: test) behind m c)
    (hStops : Stops I whole n c) (hBody : ∃ o, x.Runs I m o) :
    ∃ o, (Stmt.doLoop exit x e).Runs I m o := by
  obtain ⟨o, hRuns⟩ := hBody
  cases o with
  | left m₁ => exact ⟨_, .do_left hRuns⟩
  | failed f m₁ => exact ⟨_, .do_failed hRuns⟩
  | done m₁ =>
    cases hTest : e.test I m₁ with
    | error f => exact ⟨_, .do_testFailed hRuns hTest⟩
    | ok b =>
      cases b with
      | false => exact ⟨_, .do_false hRuns hTest⟩
      | true =>
        have hAgain := (hRuns.simulated hOnce).again hOnce hTest hLayout hJumps hStarts
        obtain ⟨o, hMore⟩ := later ih hStops (.doLoop hLayout hJumps) hAgain
        exact ⟨o, .do_true hRuns hTest hMore⟩

theorem set {z : Symbol} {a : Expr} : ∃ o, (Stmt.set z a).Runs I m o := by
  cases hValue : a.eval I m with
  | error f => exact ⟨_, .set_failed hValue⟩
  | ok v => exact ⟨_, .set hValue⟩

theorem store {target : Access} {a : Expr} : ∃ o, (Stmt.store target a).Runs I m o := by
  cases hIndex : target.index.eval I m with
  | error f => exact ⟨_, .store_indexFailed hIndex⟩
  | ok i =>
    cases hValue : a.eval I m with
    | error f => exact ⟨_, .store_failed hIndex hValue⟩
    | ok v => exact ⟨_, .store hIndex hValue⟩

end Stmt.EndsWithin

/-- **A machine that stops has carried out a run of the statement.** If the machine goes no further
after some steps from the start of its code, the statement has an outcome.

The induction is on the number of steps. Each part that stands behind a label is reached with fewer
steps left, and so is the next turn of a loop; a part in front is smaller than the statement. -/
theorem Stmt.endsWithin (hOnce : MarksOnce whole) (n : Nat) (x : Stmt) :
    x.EndsWithin I whole n := by
  induction n using Nat.strongRecOn generalizing x with
  | ind n ih =>
    intro leave start after s s' code behind m c hLayout hStarts hStops
    -- the parts in front are reached without a step, and need an induction of their own
    induction hLayout generalizing c behind with
    | null => exact ⟨_, .null⟩
    | seq_nil => exact ⟨_, .seq_nil⟩
    | seq_one _ ihOnly => exact EndsWithin.seq_one (ihOnly hStarts hStops)
    | seq_cons hFirst hOthers ihFirst _ =>
      exact EndsWithin.seq_cons ih hOnce hFirst hOthers hStarts hStops
        (ihFirst hStarts.init hStops)
    | ifThen hJumps hBody _ => exact EndsWithin.ifThen ih hOnce hJumps hBody hStarts hStops
    | ifElse hJumps hBody hOtherwise _ _ =>
      exact EndsWithin.ifElse ih hOnce hJumps hBody hOtherwise hStarts hStops
    | whileLoop hJumps hBody _ => exact EndsWithin.whileLoop ih hOnce hJumps hBody hStarts hStops
    | doLoop hBody hJumps ihBody =>
      exact EndsWithin.doLoop ih hOnce hBody hJumps hStarts hStops
        (ihBody hStarts.firstTurn hStops)
    | breakTo => exact ⟨_, .breakTo⟩
    | set _ => exact EndsWithin.set
    | store _ _ => exact EndsWithin.store

end

end JumpCode
