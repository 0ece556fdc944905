import JumpCode.Proofs.Parsing.Language
import JumpCode.Proofs.Parsing.Readers

/-!
# JumpCode — what the parser opens it closes

Wherever the parser stops, and for whatever reason, every block and every loop that it has opened is
closed again. So in the log the messages about them are brackets: each one that something is entered
has its counterpart, with the same depth, and a block tells how many names it drops.

* `Nested` — events that are well nested;
* `Nested.matching` — the counterpart of a message that a block is left;
* `context_restored` — all functions of the parser, and the log of a program.
-/

namespace JumpCode

open JumpCode.Parser

/-! ## Events -/

/-- Events inside so many blocks and loops: what is entered is left again, one deeper than what is
around it, and `declared` counts the declarations which are in no block among these events. A block
that is left tells this number of what is inside it; a loop has no declarations of its own. -/
inductive Nested : (blocks loops declared : Nat) → List Event → Prop
  | nil {d l : Nat} : Nested d l 0 []
  | declared {d l n : Nat} (x : Symbol) {es : List Event} (h : Nested d l n es) :
      Nested d l (n + 1) (.declared x :: es)
  | block {d l m n : Nat} {inside es : List Event} (hInside : Nested (d + 1) l m inside)
      (h : Nested d l n es) :
      Nested d l n (.scopeEntered (d + 1) :: (inside ++ .scopeLeft (d + 1) m :: es))
  | loop {d l m n : Nat} {inside es : List Event} (hInside : Nested d (l + 1) m inside)
      (h : Nested d l n es) :
      Nested d l (m + n) (.loopEntered (l + 1) :: (inside ++ .loopLeft l :: es))
  | emitted {d l n : Nat} (i : Instruction) {es : List Event} (h : Nested d l n es) :
      Nested d l n (.emitted i :: es)
  | completed {d l n : Nat} (instructions labels temps : Nat) {es : List Event}
      (h : Nested d l n es) : Nested d l n (.completed instructions labels temps :: es)

/-- How many declarations among events are in no block that these events enter. The first number
counts the blocks that are open. -/
def shallowDeclarations : Nat → List Event → Nat
  | _, [] => 0
  | open_, .scopeEntered _ :: es => shallowDeclarations (open_ + 1) es
  | open_, .scopeLeft _ _ :: es => shallowDeclarations (open_ - 1) es
  | 0, .declared _ :: es => shallowDeclarations 0 es + 1
  | open_, _ :: es => shallowDeclarations open_ es

namespace Nested

variable {d l m n : Nat} {es es' : List Event}

theorem append (h : Nested d l m es) (h' : Nested d l n es') : Nested d l (m + n) (es ++ es') := by
  induction h with
  | nil => simpa using h'
  | declared x _ ih =>
    rw [Nat.add_right_comm]
    exact (ih h').declared x
  | block hInside _ _ ih => simpa using (hInside.block (ih h'))
  | loop hInside _ _ ih =>
    rw [Nat.add_assoc]
    simpa using hInside.loop (ih h')
  | emitted i _ ih => exact (ih h').emitted i
  | completed i j k _ ih => exact (ih h').completed i j k

/-- What has been emitted stands for itself. -/
theorem ofInstructions (code : List Instruction) : Nested d l 0 (code.map .emitted) := by
  induction code with
  | nil => exact .nil
  | cons i _ ih => exact ih.emitted i

/-- Events that are well nested leave open what has been open: behind them `shallowDeclarations`
counts on as in front. -/
theorem shallow_append (h : Nested d l n es) (k : Nat) (rest : List Event) :
    shallowDeclarations k (es ++ rest) =
      (if k = 0 then n else 0) + shallowDeclarations k rest := by
  induction h generalizing k rest with
  | nil => simp
  | declared x _ ih =>
    cases k with
    | zero => simp [shallowDeclarations, ih]; omega
    | succ k => simpa [shallowDeclarations] using ih (k + 1) rest
  | block _ _ ihInside ih => simp [shallowDeclarations, ihInside, ih]
  | loop _ _ ihInside ih =>
    simp only [List.cons_append, List.append_assoc, shallowDeclarations, ihInside, ih]
    split <;> omega
  | emitted _ _ ih => simpa [shallowDeclarations] using ih k rest
  | completed _ _ _ _ ih => simpa [shallowDeclarations] using ih k rest

/-- The number that goes with events counts their declarations outside of deeper blocks. -/
theorem shallow (h : Nested d l n es) : shallowDeclarations 0 es = n := by
  have hAll := h.shallow_append 0 []
  simpa [shallowDeclarations] using hAll

end Nested

/-- In front of a message that a block is left there is the one that it has been entered, at the
same depth, with well-nested events in between. What it drops are their `shallowDeclarations`. -/
def Matched (depth dropped : Nat) (before : List Event) : Prop :=
  ∃ (outside inside : List Event) (loops : Nat),
    before = outside ++ .scopeEntered depth :: inside ∧ Nested depth loops dropped inside

theorem Matched.append_left {depth dropped : Nat} {before : List Event}
    (h : Matched depth dropped before) (events : List Event) :
    Matched depth dropped (events ++ before) := by
  obtain ⟨outside, inside, loops, rfl, hInside⟩ := h
  exact ⟨events ++ outside, inside, loops, (List.append_assoc ..).symm, hInside⟩

/-- An event in a row of events stands in front of another one, is this, or stands behind it. -/
theorem split_cases {inside before es after : List Event} {last e : Event}
    (h : inside ++ last :: es = before ++ e :: after) :
    (∃ rest, inside = before ++ e :: rest) ∨ (before = inside ∧ e = last) ∨
      ∃ rest, before = inside ++ last :: rest ∧ es = rest ++ e :: after := by
  rcases List.append_eq_append_iff.mp h with ⟨rest, rfl, hRest⟩ | ⟨rest, rfl, hRest⟩
  · cases rest with
    | nil => exact .inr (.inl ⟨List.append_nil _, (List.cons.inj hRest).1.symm⟩)
    | cons e' rest =>
      obtain ⟨rfl, rfl⟩ := List.cons.inj hRest
      exact .inr (.inr ⟨rest, rfl, rfl⟩)
  · cases rest with
    | nil => exact .inr (.inl ⟨(List.append_nil _).symm, (List.cons.inj hRest).1⟩)
    | cons e' rest =>
      obtain ⟨rfl, -⟩ := List.cons.inj hRest
      exact .inl ⟨rest, rfl⟩

/-- What holds in front of a message holds behind another event as well. -/
theorem matched_cons {depth dropped : Nat} {e : Event} {rest before after : List Event}
    (hSplit : e :: rest = before ++ .scopeLeft depth dropped :: after)
    (hOther : e ≠ .scopeLeft depth dropped)
    (h : ∀ {before after}, rest = before ++ .scopeLeft depth dropped :: after →
      Matched depth dropped before) : Matched depth dropped before := by
  cases before with
  | nil => exact absurd (List.cons.inj hSplit).1 hOther
  | cons e' before => exact (h (List.cons.inj hSplit).2).append_left [e']

/-- **A block that is left has been entered**, at the same depth; and what it drops are the
declarations in between (`Matched`). The induction is on `Nested`. -/
theorem Nested.matching {d l n : Nat} {es : List Event} (h : Nested d l n es)
    {before after : List Event} {depth dropped : Nat}
    (hLeft : es = before ++ .scopeLeft depth dropped :: after) : Matched depth dropped before := by
  induction h generalizing before after with
  -- by the block or loop at the front: the message is inside of it, closes it, or stands behind
  | nil => simp at hLeft
  | declared x _ ih => exact matched_cons hLeft (by simp) ih
  | emitted i _ ih => exact matched_cons hLeft (by simp) ih
  | completed i j k _ ih => exact matched_cons hLeft (by simp) ih
  | @block d l m n inside es hInside _ ihInside ih =>
    cases before with
    | nil => cases (List.cons.inj hLeft).1
    | cons e before =>
      obtain ⟨rfl, hRest⟩ := List.cons.inj hLeft
      rcases split_cases hRest with ⟨rest, hEarlier⟩ | ⟨rfl, hSame⟩ | ⟨rest, rfl, hLater⟩
      · exact (ihInside hEarlier).append_left [_]
      · -- the message is the one about this very block
        obtain ⟨rfl, rfl⟩ := Event.scopeLeft.inj hSame
        exact ⟨[], before, l, rfl, hInside⟩
      · have hBehind := (ih hLater).append_left
          (.scopeEntered (d + 1) :: inside ++ [.scopeLeft (d + 1) m])
        simpa using hBehind
  | @loop d l m n inside es _ _ ihInside ih =>
    cases before with
    | nil => cases (List.cons.inj hLeft).1
    | cons e before =>
      obtain ⟨rfl, hRest⟩ := List.cons.inj hLeft
      rcases split_cases hRest with ⟨rest, hEarlier⟩ | ⟨-, hSame⟩ | ⟨rest, rfl, hLater⟩
      · exact (ihInside hEarlier).append_left [_]
      · cases hSame
      · have hBehind := (ih hLater).append_left (.loopEntered (l + 1) :: inside ++ [.loopLeft l])
        simpa using hBehind

/-! ## Contexts -/

/-- From one state to the other all blocks and loops that were opened have been closed again, and in
the block in which both stand so many names have been declared. The log has grown by events that are
`Nested`. -/
structure Balances (declared : Nat) (s s' : ParserState) : Prop where
  outer : s'.scope.outer = s.scope.outer
  frame : s'.scope.frame.length = s.scope.frame.length + declared
  loops : s'.loops = s.loops
  log : ∃ es, s'.log = es.reverse ++ s.log ∧ Nested s.scope.depth s.loops.length declared es

namespace Balances

variable {s s₁ s₂ : ParserState} {m n : Nat}

/-- Whatever else changes does not matter. -/
theorem of_same (hScope : s₁.scope = s.scope) (hLoops : s₁.loops = s.loops)
    (hLog : s₁.log = s.log) : Balances 0 s s₁ := by
  refine ⟨by rw [hScope], by rw [hScope, Nat.add_zero], hLoops, [], ?_, .nil⟩
  rw [hLog, List.reverse_nil, List.nil_append]

theorem refl (s : ParserState) : Balances 0 s s := .of_same rfl rfl rfl

theorem depth (h : Balances n s s₁) : s₁.scope.depth = s.scope.depth := by
  rw [Scope.depth, h.outer, Scope.depth]

theorem trans (h : Balances m s s₁) (h' : Balances n s₁ s₂) : Balances (m + n) s s₂ := by
  obtain ⟨es, hLog, hNested⟩ := h.log
  obtain ⟨es', hLog', hNested'⟩ := h'.log
  -- both rows of events are nested at the same depth
  rw [h.depth, h.loops] at hNested'
  refine ⟨h'.outer.trans h.outer, ?_, h'.loops.trans h.loops, es ++ es', ?_,
    hNested.append hNested'⟩
  · rw [h'.frame, h.frame, Nat.add_assoc]
  · rw [hLog', hLog, List.reverse_append, List.append_assoc]

/-- What is inside a block is dropped with it: `leaveScope` says how much. -/
theorem ofBlock (h : Balances n (enterScope s) s₁) : Balances 0 s (leaveScope s₁) := by
  obtain ⟨es, hLog, hNested⟩ := h.log
  have hOuter : s₁.scope.outer = s.scope.frames := h.outer
  have hLeave : s₁.scope.leave = s.scope := by rw [Scope.leave, hOuter, Scope.frames]
  have hDepth : s₁.scope.depth = s.scope.depth + 1 := h.depth
  have hDropped : s₁.scope.frame.length = n := by
    rw [h.frame]
    exact Nat.zero_add n
  refine ⟨congrArg Scope.outer hLeave, congrArg (·.frame.length) hLeave, h.loops, _, ?_,
    .block hNested .nil⟩
  simp [leaveScope, hLog, hDepth, hDropped, enterScope]

theorem ofLoop {exit : LoopExit} (h : Balances 0 (enterLoop exit s) s₁) :
    Balances 0 s (leaveLoop s₁) := by
  obtain ⟨es, hLog, hNested⟩ := h.log
  have hLoops : s₁.loops.tail = s.loops := by rw [h.loops]; rfl
  refine ⟨h.outer, h.frame, hLoops, _, ?_, .loop hNested .nil⟩
  simp [leaveLoop, hLog, hLoops, enterLoop]

end Balances

/-- However a parser ends, all that it has opened is closed, and it has declared nothing in the
block where it stands: `Balances` holds with no declarations. -/
def Restores {α : Type} (p _ : Parser α) : Prop :=
  ∀ s, Yields p s (fun _ s' => Balances 0 s s') fun _ s' => Balances 0 s s'

/-- However a parser ends, all that it has opened is closed, and `Balances` holds with some number
of declarations. -/
def Adds {α : Type} (p _ : Parser α) : Prop :=
  ∀ s, Yields p s (fun _ s' => ∃ n, Balances n s s') fun _ s' => ∃ n, Balances n s s'

theorem restores_next (s : ParserState) :
    Yields next s (fun _ s' => Balances 0 s s') fun _ s' => Balances 0 s s' := by
  obtain ⟨rest, ending, last, scope, used, loops, met, log⟩ := s
  cases rest with
  | cons t rest => exact .of_same rfl rfl rfl
  | nil => cases ending <;> exact .refl _

theorem restores_expect (token : Token) : Restores (expect token) (expect token) := by
  intro s
  rw [expect, yields_get]
  split
  · exact .refl s
  · refine (restores_next s).bind (fun _ _ hStop => hStop) fun found s₁ h₁ => ?_
    split
    · exact h₁
    · exact h₁

theorem adds_declare (name : String) (type : Ty) (span : Span) :
    Adds (declare name type span) (declare name type span) := by
  intro s
  rw [declare, yields_get]
  dsimp only
  split
  · exact ⟨0, .refl s⟩
  · -- the name is new in its block, or the parser stops before anything changes
    unfold Scope.declare?
    split
    · exact ⟨0, .refl s⟩
    · next scope hScope =>
      split at hScope
      · cases hScope
      · cases hScope
        exact ⟨1, rfl, rfl, rfl, [_], rfl, .declared _ .nil⟩

/-- Both are closed under the ways in which parsers are built (`Closed`), so that they hold of all
functions of the parser. -/
theorem restores_closed : Closed Eq Restores Adds where
  exhausted _ _ s := .refl s
  pure _ s := .refl s
  bind h h' s := (h s).bind (fun _ _ hStop => hStop) fun a s₁ h₁ =>
    (h' a s₁).mono (fun _ _ h₂ => h₁.trans h₂) fun _ _ h₂ => h₁.trans h₂
  context _ _ h s := h s.scope s.used s.loops s
  semantic _ _ s := .refl s
  repeated _ _ s := .refl s
  peek s := by
    obtain ⟨rest, ending, last, scope, used, loops, met, log⟩ := s
    cases rest with
    | cons t rest => exact .refl _
    | nil => cases ending <;> exact .refl _
  next h s := by
    refine (restores_next s).bind (fun _ _ hStop => hStop) fun found s₁ h₁ => ?_
    -- the token is gone on with, or refused, which opens nothing either
    rcases h found.value found.span found.span rfl with hRest | ⟨error, -, hFail, -⟩
    · exact (hRest s₁).mono (fun _ _ h₂ => h₁.trans h₂) fun _ _ h₂ => h₁.trans h₂
    · rw [hFail]
      exact h₁
  expect token _ _ h s := (restores_expect token s).bind (fun _ _ hStop => hStop) fun span s₁ h₁ =>
    (h span span rfl s₁).mono (fun _ _ h₂ => h₁.trans h₂) fun _ _ h₂ => h₁.trans h₂
  newExit s := .of_same rfl rfl rfl
  inLoop exit h s := yields_inLoop.mpr <|
    (h (enterLoop exit s)).mono (fun _ _ => Balances.ofLoop) fun _ _ => Balances.ofLoop
  inScope h s := yields_inScope.mpr <|
    (h (enterScope s)).mono (fun _ _ ⟨_, h₁⟩ => h₁.ofBlock) fun _ _ ⟨_, h₁⟩ => h₁.ofBlock
  widen h s := (h s).mono (fun _ _ h₁ => ⟨0, h₁⟩) fun _ _ h₁ => ⟨0, h₁⟩
  declare name type span _ _ := adds_declare name type span
  bindDeclaring h h' s := (h s).bind (fun _ _ hStop => hStop) fun a s₁ ⟨m, h₁⟩ =>
    (h' a s₁).mono (fun _ _ ⟨n, h₂⟩ => ⟨m + n, h₁.trans h₂⟩) fun _ _ ⟨n, h₂⟩ => ⟨m + n, h₁.trans h₂⟩
  nextDeclaring h s := by
    refine (restores_next s).bind (fun _ _ hStop => ⟨0, hStop⟩) fun found s₁ h₁ => ?_
    rcases h found.value found.span found.span rfl with hRest | ⟨error, -, hFail, -⟩
    · exact (hRest s₁).mono (fun _ _ ⟨n, h₂⟩ => ⟨0 + n, h₁.trans h₂⟩) fun _ _ ⟨n, h₂⟩ =>
        ⟨0 + n, h₁.trans h₂⟩
    · rw [hFail]
      exact ⟨0, h₁⟩

/-- The log of a reading is that of the state in which `program` leaves the parser. -/
theorem log_of_yields {tokens : List (Located Token)} {ending : Option (Located LexError)}
    {P : List Event → Prop}
    (h : Yields (program (fuelFor tokens.length)) (.initial tokens ending)
      (fun _ s' => P s'.log.reverse) fun _ s' => P s'.log.reverse) :
    P (readTokens tokens ending).log := by
  unfold Yields at h
  unfold readTokens
  split at h
  · next hRun => rwa [hRun]
  · next hRun => rwa [hRun]

/-- **What is opened is closed.** All functions of the parser, from any state and however they end,
leave as many blocks open as before, and the same loops; so none are open behind a program. In its
log, followed by what is emitted, the messages about blocks and loops are well nested: for each one
that a block is left there is the one that it was entered, and the number of names that it drops is
that of the declarations in between which are in no deeper block. -/
theorem context_restored :
    (∀ {declares : Bool} {α : Type} {F : Nat → Parser α}, Reader declares F → ∀ fuel s,
      Yields (F fuel) s (fun _ s' => s'.scope.depth = s.scope.depth ∧ s'.loops = s.loops)
        fun _ s' => s'.scope.depth = s.scope.depth ∧ s'.loops = s.loops) ∧
    ∀ (tokens : List (Located Token)) (ending : Option (Located LexError)),
      Yields (program (fuelFor tokens.length)) (.initial tokens ending)
        (fun _ s' => s'.scope.depth = 0 ∧ s'.loops = [])
        (fun _ s' => s'.scope.depth = 0 ∧ s'.loops = []) ∧
      (∀ before after : Emitter,
        Nested 0 0 0 ((readTokens tokens ending).log ++ before.events after)) ∧
      ∀ (earlier later : List Event) (depth dropped : Nat),
        (readTokens tokens ending).log = earlier ++ .scopeLeft depth dropped :: later →
        ∃ (outside inside : List Event) (loops : Nat),
          earlier = outside ++ .scopeEntered depth :: inside ∧
          Nested depth loops dropped inside ∧ shallowDeclarations 0 inside = dropped := by
  refine ⟨fun hReader fuel s => ?_, fun tokens ending => ?_⟩
  · have hAdds := (restores_closed.reader hReader (Nat.le_refl fuel)).1 s
    exact hAdds.mono (fun _ _ ⟨_, h⟩ => ⟨h.depth, h.loops⟩) fun _ _ ⟨_, h⟩ => ⟨h.depth, h.loops⟩
  · have hRun := restores_closed.program (Nat.le_refl (fuelFor tokens.length))
      (.initial tokens ending)
    -- the log of a run begins empty, so that it is what the run has added
    have hLog : Nested 0 0 0 (readTokens tokens ending).log := by
      have hNested {s' : ParserState} (h : Balances 0 (.initial tokens ending) s') :
          Nested 0 0 0 s'.log.reverse := by
        obtain ⟨es, hEvents, h⟩ := h.log
        rw [hEvents, show (ParserState.initial tokens ending).log = [] from rfl, List.append_nil,
          List.reverse_reverse]
        exact h
      exact log_of_yields (P := Nested 0 0 0) (hRun.mono (fun _ _ => hNested) fun _ _ => hNested)
    refine ⟨hRun.mono (fun _ _ h => ⟨h.depth, h.loops⟩) fun _ _ h => ⟨h.depth, h.loops⟩, ?_, ?_⟩
    · intro before after
      have hEmitted : Nested 0 0 0 (before.events after) :=
        (Nested.ofInstructions _).append (.completed _ _ _ .nil)
      exact hLog.append hEmitted
    · intro earlier later depth dropped hLeft
      obtain ⟨outside, inside, loops, hEarlier, hInside⟩ := hLog.matching hLeft
      exact ⟨outside, inside, loops, hEarlier, hInside, hInside.shallow⟩

/-- A block that ends before it begins leaves nothing open. In the sample, which has blocks, loops
and declarations, the last block that is left drops three of them. -/
theorem context_restored_sample : Reader false block ∧
    (Yields (block 1) (.initial [] none) (fun _ s' => s'.scope.depth = 0 ∧ s'.loops = [])
      fun _ s' => s'.scope.depth = 0 ∧ s'.loops = []) ∧
    ∃ outside inside, (readTokens sampleTokens none).log =
        (outside ++ .scopeEntered 1 :: inside) ++ [.scopeLeft 1 3] ∧
      shallowDeclarations 0 inside = 3 := by
  have hLast : (readTokens sampleTokens none).log.getLast? = some (.scopeLeft 1 3) := by
    decide +kernel
  obtain ⟨earlier, hLog⟩ := List.getLast?_eq_some_iff.mp hLast
  obtain ⟨outside, inside, loops, hEarlier, -, hCount⟩ :=
    (context_restored.2 sampleTokens none).2.2 _ _ _ _ hLog
  exact ⟨.block, context_restored.1 .block 1 (.initial [] none), outside, inside,
    by rw [hLog, hEarlier], hCount⟩

end JumpCode
