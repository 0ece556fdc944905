import JumpCode.Proofs.Code.Layout
import Mathlib.Logic.Function.Iterate

/-!
# JumpCode — breaks

Where a break goes is settled in two steps that lie far apart: reading gives it the exit of a loop,
and emission looks up which label this exit has been bound to by then. Taken together a break leaves
the innermost loop around it.

* `Clause.Means.inStep` — in the tree a break names the innermost loop that it stands in;
* `Stmt.Layout.run_emitInside` — emission comes to the same code as one without exits, which hands
  the label behind a loop down to the breaks in its body;
* `breaks_leave_innermost` — both, for every program that has been read.
-/

namespace JumpCode

open Emission

/-! ## Loops and breaks, in the order of the text -/

/-- The number of loops in a derivation. -/
@[simp] def Clause.loops : {k : Kind} → Clause k → Nat
  | _, block b => b.loops
  | _, ifThen _ body => body.loops
  | _, ifElse _ body otherwise => body.loops + otherwise.loops
  | _, whileLoop _ body => body.loops + 1
  | _, doLoop body _ => body.loops + 1
  | _, cons first others => first.loops + others.loops
  | _, braces _ items => items.loops
  | _, _ => 0

/-- The breaks in a derivation: for each of them the innermost loop in whose body it stands, if
there is one. Loops go by their numbers in the text; `loop` is the one around the derivation, and
`met` of them have come before it. -/
@[simp] def Clause.breaks : {k : Kind} → (loop : Option LoopExit) → (met : Nat) → Clause k →
    List (Option LoopExit)
  | _, loop, met, block b => b.breaks loop met
  | _, loop, met, ifThen _ body => body.breaks loop met
  | _, loop, met, ifElse _ body otherwise =>
    body.breaks loop met ++ otherwise.breaks loop (met + body.loops)
  | _, _, met, whileLoop _ body => body.breaks (some ⟨met⟩) (met + 1)
  | _, _, met, doLoop body _ => body.breaks (some ⟨met⟩) (met + 1)
  | _, loop, _, leave => [loop]
  | _, loop, met, cons first others =>
    first.breaks loop met ++ others.breaks loop (met + first.loops)
  | _, loop, met, braces _ items => items.breaks loop met
  | _, _, _, _ => []

mutual

/-- The exits of the loops in a `Stmt`, in the order of the text. -/
@[simp] def Stmt.loops : Stmt → List LoopExit
  | .seq items => Stmt.loopsAll items
  | .ifThen _ body => body.loops
  | .ifElse _ body otherwise => body.loops ++ otherwise.loops
  | .whileLoop exit _ body => exit :: body.loops
  | .doLoop exit body _ => exit :: body.loops
  | _ => []

/-- The exits of the loops in statements, in order. -/
@[simp] def Stmt.loopsAll : List Stmt → List LoopExit
  | [] => []
  | x :: rest => x.loops ++ Stmt.loopsAll rest

end

mutual

/-- The exits that the breaks in a `Stmt` name, in the order of the text. -/
@[simp] def Stmt.breaks : Stmt → List LoopExit
  | .seq items => Stmt.breaksAll items
  | .ifThen _ body => body.breaks
  | .ifElse _ body otherwise => body.breaks ++ otherwise.breaks
  | .whileLoop _ _ body => body.breaks
  | .doLoop _ body _ => body.breaks
  | .breakTo exit => [exit]
  | _ => []

/-- The exits that the breaks in statements name, in order. -/
@[simp] def Stmt.breaksAll : List Stmt → List LoopExit
  | [] => []
  | x :: rest => x.breaks ++ Stmt.breaksAll rest

end

theorem Stmt.loops_of_isNull {x : Stmt} (h : x.isNull = true) : x.loops = [] ∧ x.breaks = [] := by
  cases x with
  | null => simp
  | _ => cases h

/-- Empty statements have neither loops nor breaks, so that it does not matter that `Stmt.sequence`
drops them. -/
theorem Stmt.loops_filter (items : List Stmt) :
    Stmt.loopsAll (items.filter (!·.isNull)) = Stmt.loopsAll items ∧
      Stmt.breaksAll (items.filter (!·.isNull)) = Stmt.breaksAll items := by
  induction items with
  | nil => exact ⟨rfl, rfl⟩
  | cons x rest ih =>
    by_cases hNull : x.isNull = true
    · simp [hNull, Stmt.loops_of_isNull hNull, ih]
    · simp [hNull, ih]

theorem Stmt.loops_sequence (items : List Stmt) :
    (Stmt.sequence items).loops = (Stmt.seq items).loops ∧
      (Stmt.sequence items).breaks = (Stmt.seq items).breaks := by
  have hFilter := Stmt.loops_filter items
  unfold sequence
  split
  · next hNone => simpa [hNone] using hFilter
  · next x hOne => simpa [hOne] using hFilter
  · simpa using hFilter

/-- Text with loops numbered from `n` up to `n'`, and a tree for it: the tree has the loops of the
text with their numbers, and its breaks name the loops in which they stand in the text. -/
structure InStep (n n' loops : Nat) (breaks : List (Option LoopExit))
    (exits named : List LoopExit) : Prop where
  met : n' = n + loops
  exits : exits = (List.range' n loops).map LoopExit.mk
  named : breaks = named.map some

namespace InStep

variable {n n₁ n' loops loops' : Nat} {breaks breaks' : List (Option LoopExit)}
  {exits exits' named named' : List LoopExit}

theorem nil : InStep n n 0 [] [] [] := ⟨rfl, rfl, rfl⟩

/-- Parts that follow one another are in step if each of them is. -/
theorem row (h : InStep n n₁ loops breaks exits named)
    (h' : InStep n₁ n' loops' breaks' exits' named') :
    InStep n n' (loops + loops') (breaks ++ breaks') (exits ++ exits') (named ++ named') where
  met := by rw [h'.met, h.met, Nat.add_assoc]
  exits := by
    rw [h'.exits, h.exits, h.met, ← List.map_append, ← List.range'_append, Nat.one_mul]
  named := by rw [h'.named, h.named, List.map_append]

/-- Before its body a loop takes the next number. -/
theorem inside (h : InStep (n + 1) n' loops breaks exits named) :
    InStep n n' (loops + 1) breaks (⟨n⟩ :: exits) named where
  met := by
    have := h.met
    omega
  exits := by rw [h.exits, List.range'_succ, List.map_cons]
  named := h.named

end InStep

/-- **In the tree a break names the innermost loop that it stands in**, and the loops have the
numbers that they have in the text. The induction is on the derivation, along with `Clause.Means`.
-/
theorem Clause.Means.inStep {Γ : Scope} {loop : Option LoopExit} {k : Kind} {x : Clause k}
    {t t' : Tally} {s : k.Tree} (h : x.Means Γ loop t s t') :
    InStep t.met t'.met x.loops (x.breaks loop t.met) (k.toStmt s).loops
      (k.toStmt s).breaks := by
  induction h with
  | empty => simpa [Kind.toStmt] using InStep.nil
  | block _ ih => exact ih
  | set _ _ _ => simpa [Kind.toStmt] using InStep.nil
  | store _ _ _ => simpa [Kind.toStmt] using InStep.nil
  | ifThen _ _ _ ih => simpa [Kind.toStmt] using ih
  | ifElse _ _ _ _ ih ih' =>
    have hRow := ih.row ih'
    rw [ih.met] at hRow
    simpa [Kind.toStmt] using hRow
  | whileLoop _ _ _ ih => simpa [Kind.toStmt] using ih.inside
  | doLoop _ _ _ ih => simpa [Kind.toStmt] using ih.inside
  | leave => exact ⟨rfl, by simp [Kind.toStmt], by simp [Kind.toStmt]⟩
  | nil => simpa [Kind.toStmt] using InStep.nil
  | cons _ _ ih ih' =>
    have hRow := ih.row ih'
    rw [ih.met] at hRow
    simpa [Kind.toStmt] using hRow
  | braces _ _ ih => simpa [Kind.toStmt, Stmt.loops_sequence] using ih

/-! ## Break keywords -/

/-- No expression has a break in it. -/
theorem Phrase.count_break {r : Rank} (x : Phrase r) :
    x.tokens.count (.keyword .breakWord) = 0 := by
  induction x with
  | truth value => cases value <;> rfl
  | _ => simp_all [tokens, bracketed, parenthesized]

/-- No declaration has a break in it. -/
theorem Decl.count_break (d : Decl) : d.tokens.count (.keyword .breakWord) = 0 := by
  have hDims : ∀ lengths, (dimsTokens lengths).count (.keyword .breakWord) = 0 := by
    intro lengths
    simp [dimsTokens, List.count_eq_zero, bracketed]
  simp [tokens, hDims]

/-- Every break keyword among the tokens is one of `Clause.breaks`. -/
theorem Clause.count_break {k : Kind} (x : Clause k) (loop : Option LoopExit) (met : Nat) :
    x.tokens.count (.keyword .breakWord) = (x.breaks loop met).length := by
  induction x generalizing loop met with
  | block b ih => exact ih loop met
  | ifThen test body ih => simp [tokens, parenthesized, Phrase.count_break, ih loop met]
  | ifElse test body otherwise ih ih' =>
    simp [tokens, parenthesized, Phrase.count_break, ih loop met, ih' loop (met + body.loops)]
  | whileLoop test body ih =>
    simp [tokens, parenthesized, Phrase.count_break, ih (some ⟨met⟩) (met + 1)]
  | doLoop body test ih =>
    simp [tokens, parenthesized, Phrase.count_break, ih (some ⟨met⟩) (met + 1)]
  | cons first others ih ih' => simp [tokens, ih loop met, ih' loop (met + first.loops)]
  | braces decls items ih =>
    have hDecls : (decls.flatMap Decl.tokens).count (.keyword .breakWord) = 0 := by
      rw [List.count_eq_zero, List.mem_flatMap]
      rintro ⟨d, -, hBreak⟩
      exact List.count_eq_zero.mp d.count_break hBreak
    simp [tokens, hDecls, ih loop met]
  | _ => simp [tokens, Phrase.count_break]

/-! ## Emission without exits -/

mutual

/-- Emits a statement that begins at a label just marked and leads to `after`, as `Stmt.emit`. A
break in it goes to `leave`, the label behind the innermost loop around the statement, with no
`Exits` to look it up in. -/
def Stmt.emitInside : Stmt → (leave : Option Label) → (start after : Label) → Emission Unit
  | .null, _, _, _ => pure ()
  | .seq items, leave, start, after => Stmt.emitAllInside items leave start after
  | .ifThen condition body, leave, _, after => do
    let inside ← newLabel
    condition.emitJumps .fall (.label after)
    mark inside
    body.emitInside leave inside after
  | .ifElse condition body otherwise, leave, _, after => do
    let onTrue ← newLabel
    let onFalse ← newLabel
    condition.emitJumps .fall (.label onFalse)
    mark onTrue
    body.emitInside leave onTrue after
    Emission.emit (.jump after)
    mark onFalse
    otherwise.emitInside leave onFalse after
  | .whileLoop _ condition body, _, start, after => do
    condition.emitJumps .fall (.label after)
    let inside ← newLabel
    mark inside
    body.emitInside (some after) inside start
    Emission.emit (.jump start)
  | .doLoop _ body condition, _, start, after => do
    let test ← newLabel
    body.emitInside (some after) start test
    mark test
    condition.emitJumps (.label start) .fall
  | .breakTo _, some leave, _, _ => Emission.emit (.jump leave)
  | .breakTo _, none, _, _ => pure ()
  | .set target value, _, _, _ => do Emission.emit (.assign (.var target) (← value.emitValue))
  | .store target value, _, _, _ => do
    let offset ← target.index.emitOperand
    let value ← value.emitOperand
    Emission.emit (.store target.array offset value)

/-- Emits statements one after the other, as `Stmt.emitAll`, with a label between each two. -/
def Stmt.emitAllInside : List Stmt → (leave : Option Label) → (start after : Label) → Emission Unit
  | [], _, _, _ => pure ()
  | [x], leave, start, after => x.emitInside leave start after
  | x :: y :: rest, leave, start, after => do
    let middle ← newLabel
    x.emitInside leave start middle
    mark middle
    Stmt.emitAllInside (y :: rest) leave middle after

end

/-- Emits a whole program between two labels of its own, as `Program.emit`. Around it there is no
loop. -/
def Program.emitInside (p : Program) : Emission Unit := do
  let start ← newLabel
  let after ← newLabel
  mark start
  p.body.emitInside none start after
  mark after

theorem Supply.run_newLabel (s : Supply) : newLabel.run s = ⟨s.nextLabel, s.skipLabel, []⟩ := rfl

/-- **Code that is laid out for a statement is what it comes to without exits**: `Stmt.Layout`
describes `Stmt.emitInside`. -/
theorem Stmt.Layout.run_emitInside {x : Stmt} {leave : Option Label} {start after : Label}
    {s s' : Supply} {code : List Instruction} (h : x.Layout leave start after s code s') :
    (x.emitInside leave start after).run s = ⟨(), s', code⟩ := by
  induction h with
  | null => simp [emitInside]
  | seq_nil => simp [emitInside, emitAllInside]
  | seq_one _ ih => simpa [emitInside, emitAllInside] using ih
  | seq_cons _ _ ihFirst ihOthers =>
    rw [emitInside] at ihOthers
    simp [emitInside, emitAllInside, -run_newLabel, Supply.run_newLabel, ihFirst, ihOthers]
  | ifThen hTest _ ih => simp [emitInside, -run_newLabel, Supply.run_newLabel, hTest, ih]
  | ifElse hTest _ _ ih ih' => simp [emitInside, -run_newLabel, Supply.run_newLabel, hTest, ih, ih']
  | whileLoop hTest _ ih => simp [emitInside, -run_newLabel, Supply.run_newLabel, hTest, ih]
  | doLoop _ hTest ih => simp [emitInside, -run_newLabel, Supply.run_newLabel, hTest, ih]
  | breakTo => simp [emitInside]
  | set hValue => simp [emitInside, hValue]
  | store hIndex hValue => simp [emitInside, hIndex, hValue]

/-- **Without exits a program comes to the same code**, whatever exits have been bound before:
`Program.emitWith` does what `Program.emitInside` does. -/
theorem Program.emitWith_of_read {tokens : List (Located Token)}
    {ending : Option (Located LexError)} {p : Program}
    (h : (readTokens tokens ending).outcome = .ok p) (exits : Exits) (e : Emitter) :
    ∃ exits', p.emitWith exits e = ((.ok (), exits'), (e.run p.emitInside).2) := by
  obtain ⟨exits', s', code, hEmits, body, rfl, hLayout⟩ := p.emits_of_read h exits e.supply
  refine ⟨exits', ?_⟩
  unfold Emits at hEmits
  simp [emitWith, Emitter.run, hEmits, emitInside, -run_newLabel, Supply.run_newLabel,
    hLayout.run_emitInside]

/-! ## Programs that have been read -/

/-- **A break leaves the innermost loop around it.** Of a program that has been read, every break
keyword stands in the body of a loop, and the tree has a break for it which names the innermost one.
Emission never fails, from whatever exits and however often it is repeated: it comes to what
emission without exits comes to, in which a break jumps to the label behind the innermost loop. -/
theorem breaks_leave_innermost {tokens : List (Located Token)}
    {ending : Option (Located LexError)} {p : Program}
    (hRead : (readTokens tokens ending).outcome = .ok p) :
    (∃ d : Clause .block, d.tokens = tokens.map (·.value) ∧ d.NearestElse) ∧
    (∀ d : Clause .block, d.tokens = tokens.map (·.value) → d.NearestElse →
      d.breaks none 0 = p.body.breaks.map some ∧
      p.body.loops = (List.range d.loops).map LoopExit.mk) ∧
    p.body.breaks.length = (tokens.map (·.value)).count (.keyword .breakWord) ∧
    ∀ (times : Nat) (exits : Exits) (e : Emitter), ∃ exits',
      p.emitTimes times exits e = .ok (exits', (fun e => (e.run p.emitInside).2)^[times] e) := by
  have hAll : ∀ d : Clause .block, d.tokens = tokens.map (·.value) → d.NearestElse →
      d.breaks none 0 = p.body.breaks.map some ∧
      p.body.loops = (List.range d.loops).map LoopExit.mk := by
    intro d hTokens hNearest
    obtain ⟨t, hMeans, -⟩ := isProgram_of_read hRead hTokens hNearest
    have hSteps := hMeans.inStep
    exact ⟨hSteps.named, by rw [List.range_eq_range']; exact hSteps.exits⟩
  obtain ⟨-, d, hTokens, hNearest, -⟩ := exists_derivation hRead
  refine ⟨⟨d, hTokens, hNearest⟩, hAll, ?_, ?_⟩
  · -- each break of the text is one of the tree, since the tree names them in the same order
    rw [← hTokens, d.count_break none 0, (hAll d hTokens hNearest).1, List.length_map]
  · -- emission again and again finds all exits bound each time, by the loops that are emitted
    -- around
    intro times
    induction times with
    | zero => exact fun exits e => ⟨exits, rfl⟩
    | succ times ih =>
      intro exits e
      obtain ⟨exits₁, hFirst⟩ := p.emitWith_of_read hRead exits e
      obtain ⟨exits', hOthers⟩ := ih exits₁ (e.run p.emitInside).2
      refine ⟨exits', ?_⟩
      rw [Program.emitTimes, hFirst, Function.iterate_succ_apply]
      exact hOthers

/-- There is a program with a break in a loop inside of another one. -/
theorem breaks_leave_innermost_sample : ∃ p, (readTokens sampleTokens none).outcome = .ok p ∧
    p.body.breaks.length = 1 ∧
    ∀ (times : Nat) (exits : Exits) (e : Emitter), ∃ exits',
      p.emitTimes times exits e = .ok (exits', (fun e => (e.run p.emitInside).2)^[times] e) := by
  obtain ⟨p, hRead⟩ := exists_sample
  obtain ⟨-, -, hCount, hTimes⟩ := breaks_leave_innermost hRead
  exact ⟨p, hRead, hCount.trans (by decide), hTimes⟩

end JumpCode
