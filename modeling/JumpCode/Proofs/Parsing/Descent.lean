import JumpCode.Proofs.Parsing.Calls
import JumpCode.Proofs.Parsing.ExprReading

/-!
# JumpCode — how far calls go before a token is read

Many functions of the parser call each other without reading anything: a statement in a list of
statements, an expression at one level of precedence in the next one. Each function is given a
height, and a call that is made before a token has been read goes to a function that is not so
high. This is read off the scripts, one after the other, as long as the calls that they make return
and stop as they should. That they do, since the heights go down, is shown in
`JumpCode.Proofs.Parsing.CallDepth`.

* `Spends` — from one state to the other so many tokens have been read;
* `Routine.height`, `Routine.reads` — what a function may call at once, and what it reads at least;
* `Below` — the calls that may be made for another one;
* `Call.keeps` — all functions of the parser keep to such calls, and read what they have to read;
* `Call.exists_loops` — the loops look at the next token, and a round reads it.
-/

namespace JumpCode

open JumpCode.Parser

variable {f g : Routine} {α β : Type}

/-! ## Tokens read -/

/-- From one state to the other at least so many tokens have been read. -/
def Spends (n : Nat) (s s' : ParserState) : Prop :=
  ∃ ts, s.rest = ts ++ s'.rest ∧ n ≤ ts.length

namespace Spends

variable {m n : Nat} {s s₁ s₂ : ParserState}

theorem refl (s : ParserState) : Spends 0 s s := ⟨[], rfl, Nat.le_refl 0⟩

theorem trans (h : Spends m s s₁) (h' : Spends n s₁ s₂) : Spends (m + n) s s₂ := by
  obtain ⟨ts, hRest, hLength⟩ := h
  obtain ⟨us, hRest', hLength'⟩ := h'
  refine ⟨ts ++ us, ?_, ?_⟩
  · rw [hRest, hRest', List.append_assoc]
  · rw [List.length_append]
    omega

theorem mono (h : Spends n s s₁) (hLe : m ≤ n) : Spends m s s₁ := by
  obtain ⟨ts, hRest, hLength⟩ := h
  exact ⟨ts, hRest, Nat.le_trans hLe hLength⟩

theorem length_le (h : Spends n s s₁) : s₁.rest.length + n ≤ s.rest.length := by
  obtain ⟨ts, hRest, hLength⟩ := h
  rw [hRest, List.length_append]
  omega

/-- Where no token has been read they are all still to come. -/
theorem rest_eq_or (h : Spends 0 s s₁) : s₁.rest = s.rest ∨ Spends 1 s s₁ := by
  obtain ⟨ts, hRest, -⟩ := h
  cases ts with
  | nil => exact .inl hRest.symm
  | cons t ts => exact .inr ⟨t :: ts, hRest, Nat.succ_le_succ (Nat.zero_le _)⟩

end Spends

namespace Routine

/-- How deep calls may be nested in a `Routine`, at most, before a token is read. -/
def height : Routine → Nat
  | fail | check | peek | newExit => 0
  | next | atMark | resolve | declare => 1
  | expect | name | type | chain _ | factor => 2
  | expectMark | expectKeyword | decl | assignment | unary => 3
  | dims | decls | subscript | condition | breakStmt | ifStmt | whileStmt | doStmt | block => 4
  | optionalDims | access | subscripts | stmt | program => 5
  | loopBody | stmts => 6
  | operand l => l.depth
  | expr l => l.depth + 1

/-- The tokens that a `Routine` has read, at least, when it returns. -/
def reads : Routine → Nat
  | check | peek | atMark | newExit | resolve | declare | optionalDims | decls | chain _
  | subscripts | stmts => 0
  | _ => 1

/-- The functions that may stop whatever the tokens to come are: `fail`, and those that judge by a
rule. -/
def judges : Routine → Bool
  | fail | check | resolve | declare => true
  | _ => false

/-- The loops, which call themselves for the next round. -/
def loops : Routine → Bool
  | decls | chain _ | subscripts | stmts => true
  | _ => false

/-- The functions that look at the next token without reading it: `peek` and what asks it. -/
def looksAhead : Routine → Bool
  | peek | atMark => true
  | _ => false

/-- A loop may read nothing at all, and leaves it to others to judge. -/
theorem bounds_of_loops (f : Routine) (h : f.loops = true) :
    2 ≤ f.height ∧ f.reads = 0 ∧ f.judges = false := by
  cases f with
  | decls | subscripts | stmts => decide
  | chain l => exact ⟨Nat.le_refl 2, rfl, rfl⟩
  | _ => cases h

theorem bounds_of_looksAhead (g : Routine) (h : g.looksAhead = true) :
    g.height ≤ 1 ∧ g.judges = false := by
  cases g with
  | peek | atMark => decide
  | _ => cases h

/-- What has been read when a `Routine` returns: at least what it `reads`. -/
def Returned (f : Routine) (s s' : ParserState) : Prop := Spends f.reads s s'

/-- What has been read when a `Routine` stops. Unless it `judges`, it has read a token before that,
if one was left. -/
def Stopped (f : Routine) (s s' : ParserState) : Prop :=
  Spends 0 s s' ∧ (f.judges = false → s.rest = [] ∨ Spends 1 s s')

end Routine

/-- A call that may be made for a `Routine` that has been called in a state: a token has been read
since, or the function that is called now is not so high (`Routine.height`). -/
structure Below (f : Routine) (s : ParserState) (b : Activation) : Prop where
  later : Spends 0 s b.state
  lower : Spends 1 s b.state ∨ b.routine.height < f.height

/-! ## Scripts -/

/-- A `Script` keeps to the calls that are allowed, and meets the one condition where it stops and
the other one where it is done, as long as the calls that it makes return and stop as they should.
-/
def Script.Obeys (allowed : Activation → Prop) (onStop : ParserState → Prop) {α : Type} :
    Script α → ParserState → (α → ParserState → Prop) → Prop
  | .done a, s, onDone => onDone a s
  | .stop _ _, s, _ => onStop s
  | .read rest, s, onDone => (rest s).Obeys allowed onStop s onDone
  | .write s rest, _, onDone => rest.Obeys allowed onStop s onDone
  | .call (f := f) c rest, s, onDone => allowed ⟨c, s⟩ ∧ (∀ s', f.Stopped s s' → onStop s') ∧
      ∀ a s', f.Returned s s' → (rest a).Obeys allowed onStop s' onDone
  | .inside enter leave body rest, s, onDone =>
    body.Obeys allowed (fun s' => onStop (leave s')) (enter s) fun a s' =>
      (rest a).Obeys allowed onStop (leave s') onDone

theorem Script.Obeys.mono {allowed : Activation → Prop} {onStop : ParserState → Prop}
    {p : Script α} {s : ParserState} {onDone onDone' : α → ParserState → Prop}
    (h : p.Obeys allowed onStop s onDone) (hDone : ∀ a s', onDone a s' → onDone' a s') :
    p.Obeys allowed onStop s onDone' := by
  induction p generalizing s onStop with
  | done a => exact hDone a s h
  | stop span error => exact h
  | read rest ih => exact ih s h hDone
  | write s' rest ih => exact ih h hDone
  | call c rest ih => exact ⟨h.1, h.2.1, fun a s' hReturned => ih a (h.2.2 a s' hReturned) hDone⟩
  | inside enter leave body rest ihBody ih => exact ihBody h fun a s' hRest => ih a hRest hDone

/-- A `Call` keeps to calls that are `Below` it, and has read what its function has to read when it
returns or stops, as long as the calls that it makes have. -/
def Call.Keeps (c : Call f α) (s : ParserState) : Prop :=
  c.script.Obeys (Below f s) (f.Stopped s) s fun _ => f.Returned s

namespace Script

open Routine

variable {s₀ s : ParserState} {onStop : ParserState → Prop} {onDone : β → ParserState → Prop}

/-- The state is looked at. -/
theorem of_state {allowed : Activation → Prop} {k : ParserState → Script β}
    (h : (k s).Obeys allowed onStop s onDone) : (state >>= k).Obeys allowed onStop s onDone := h

/-- After a token has been read, any function may be called and may stop. -/
theorem ask_later {c : Call g α} {k : α → Script β} (h : Spends 1 s₀ s)
    (hNext : ∀ a s', Spends 1 s₀ s' → (k a).Obeys (Below f s₀) (f.Stopped s₀) s' onDone) :
    (ask c >>= k).Obeys (Below f s₀) (f.Stopped s₀) s onDone := by
  refine ⟨⟨h.mono (Nat.zero_le 1), .inl h⟩, ?_, ?_⟩
  · intro s' hStopped
    have hLater : Spends 1 s₀ s' := h.trans hStopped.1
    exact ⟨hLater.mono (Nat.zero_le 1), fun _ => .inr hLater⟩
  · intro a s' hReturned
    exact hNext a s' ((h.trans hReturned).mono (Nat.le_add_right 1 _))

/-- Before that, a function may be called that is not so high. It must not judge, unless the one
that calls it does. -/
theorem ask_first {c : Call g α} {k : α → Script β} (h : Spends 0 s₀ s)
    (hLower : g.height < f.height) (hJudges : g.judges = true → f.judges = true)
    (hNext : ∀ a s', Spends g.reads s₀ s' → (k a).Obeys (Below f s₀) (f.Stopped s₀) s' onDone) :
    (ask c >>= k).Obeys (Below f s₀) (f.Stopped s₀) s onDone := by
  refine ⟨⟨h, .inr hLower⟩, ?_, ?_⟩
  · intro s' hStopped
    refine ⟨h.trans hStopped.1, ?_⟩
    intro hReader
    have hCallee : g.judges = false := by
      cases hJudge : g.judges with
      | false => rfl
      | true => rw [hJudges hJudge] at hReader; exact hReader
    rcases hStopped.2 hCallee with hEmpty | hRead
    · -- no token is left: none was left before, or one has been read since
      rcases h.rest_eq_or with hSame | hLater
      · exact .inl (hSame ▸ hEmpty)
      · exact .inr (hLater.trans hStopped.1)
    · exact .inr ((h.trans hRead).mono (by omega))
  · intro a s' hReturned
    exact hNext a s' ((h.trans hReturned).mono (by omega))

/-- If need be, a function is called for a value that is used in any case. -/
theorem choose_later {P : Prop} [Decidable P] {c : Call g α} {a : α} {k : α → Script β}
    (h : Spends 1 s₀ s)
    (hNext : ∀ a s', Spends 1 s₀ s' → (k a).Obeys (Below f s₀) (f.Stopped s₀) s' onDone) :
    (if P then ask c >>= k else pure a >>= k).Obeys (Below f s₀) (f.Stopped s₀) s onDone := by
  split
  · exact ask_later h hNext
  · exact hNext a s h

theorem stop_later {span : Span} {error : CompileError} (h : Spends 1 s₀ s) :
    (stop span error : Script β).Obeys (Below f s₀) (f.Stopped s₀) s onDone :=
  ⟨h.mono (Nat.zero_le 1), fun _ => .inr h⟩

/-- What the last call of a script returns is what the script is done with. -/
theorem last_later {c : Call g β} (h : Spends 1 s₀ s)
    (hDone : ∀ b s', Spends 1 s₀ s' → onDone b s') :
    (ask c).Obeys (Below f s₀) (f.Stopped s₀) s onDone := by
  show (ask c >>= done).Obeys (Below f s₀) (f.Stopped s₀) s onDone
  exact ask_later h hDone

theorem last_first {c : Call g β} (h : Spends 0 s₀ s) (hLower : g.height < f.height)
    (hJudges : g.judges = true → f.judges = true)
    (hDone : ∀ b s', Spends g.reads s₀ s' → onDone b s') :
    (ask c).Obeys (Below f s₀) (f.Stopped s₀) s onDone := by
  show (ask c >>= done).Obeys (Below f s₀) (f.Stopped s₀) s onDone
  exact ask_first h hLower hJudges hDone

end Script

namespace Call

open Script

/-! ### Tokens -/

theorem keeps_check (span : Span) (r : Except SemanticError α) (s : ParserState) :
    (check span r).Keeps s := by
  cases r with
  | ok a => exact Spends.refl s
  | error e => exact ⟨.refl s, nofun⟩

theorem keeps_peek (s : ParserState) : peek.Keeps s := by
  obtain ⟨rest, ending, last, scope, used, loops, met, log⟩ := s
  cases rest with
  | cons token rest => exact Spends.refl _
  | nil =>
    cases ending with
    | none => exact Spends.refl _
    | some failure => exact ⟨.refl _, fun _ => .inl rfl⟩

theorem keeps_next (s : ParserState) : next.Keeps s := by
  obtain ⟨rest, ending, last, scope, used, loops, met, log⟩ := s
  cases rest with
  | cons token rest => exact ⟨[token], rfl, Nat.le_refl 1⟩
  | nil =>
    cases ending with
    | none =>
      -- what judges stops here, but no token is left
      refine ⟨⟨.refl _, .inr Nat.one_pos⟩, ?_, fun _ _ hReturned => hReturned⟩
      intro s' hStopped
      exact ⟨hStopped.1, fun _ => .inl rfl⟩
    | some failure => exact ⟨.refl _, fun _ => .inl rfl⟩

theorem keeps_expect (token : Token) (s : ParserState) : (expect token).Keeps s := by
  obtain ⟨rest, ending, last, scope, used, loops, met, log⟩ := s
  have hNext (s : ParserState) : (do
      let found ← ask next
      if found.value = token then return found.span
      else ask (fail (.unexpectedToken token found.value)) : Script Span).Obeys
        (Below .expect s) (Routine.expect.Stopped s) s fun _ => Routine.expect.Returned s := by
    refine ask_first (.refl s) (by decide) nofun ?_
    intro found s₁ h₁
    split
    · exact h₁
    · exact last_later h₁ fun _ _ h => h
  cases rest with
  | cons t rest => exact hNext _
  | nil =>
    cases ending with
    | none =>
      refine ⟨⟨.refl _, .inr Nat.two_pos⟩, ?_, fun _ _ hReturned => hReturned⟩
      intro s' hStopped
      exact ⟨hStopped.1, fun _ => .inl rfl⟩
    | some failure => exact hNext _

theorem keeps_name (s : ParserState) : name.Keeps s := by
  refine ask_first (.refl s) (by decide) nofun ?_
  intro found s₁ h₁
  split
  · exact h₁
  · exact last_later h₁ fun _ _ h => h

/-! ### Names and declarations -/

theorem keeps_resolve (text : String) (span : Span) (s : ParserState) :
    (resolve text span).Keeps s := by
  refine of_state ?_
  split
  · exact Spends.refl s
  · exact last_first (.refl s) (by decide) (fun _ => rfl) fun _ _ h => h

theorem keeps_declare (text : String) (of : Ty) (span : Span) (s : ParserState) :
    (declare text of span).Keeps s := by
  -- this function judges what its caller has read, and may stop without having read more
  have hJudge (error : SemanticError) : (ask (check span (.error error)) : Script Unit).Obeys
      (Below .declare s) (Routine.declare.Stopped s) s fun _ => Routine.declare.Returned s :=
    last_first (.refl s) (by decide) (fun _ => rfl) fun _ _ h => h
  refine of_state ?_
  dsimp only
  split
  · exact hJudge _
  · split
    · exact hJudge _
    · exact Spends.refl s

theorem keeps_dims (of : Ty) (s : ParserState) : (dims of).Keeps s := by
  refine ask_first (.refl s) (by decide) nofun ?_
  intro _ s₁ h₁
  refine ask_later h₁ fun found s₂ h₂ => ?_
  split
  · refine ask_later h₂ fun _ s₃ h₃ => ask_later h₃ fun b s₄ h₄ => choose_later h₄ ?_
    intro element s₅ h₅
    dsimp only
    split
    · exact h₅
    · exact last_later h₅ fun _ _ h => h
  · exact last_later h₂ fun _ _ h => h

theorem keeps_optionalDims (of : Ty) (s : ParserState) : (optionalDims of).Keeps s := by
  refine ask_first (.refl s) (by decide) nofun ?_
  intro b s₁ h₁
  split
  · exact last_first h₁ (by decide) nofun fun _ _ h => h.mono (Nat.zero_le 1)
  · exact h₁

theorem keeps_type (s : ParserState) : type.Keeps s := by
  refine ask_first (.refl s) (by decide) nofun ?_
  intro found s₁ h₁
  split
  · exact last_later h₁ fun _ _ h => h
  · exact last_later h₁ fun _ _ h => h

theorem keeps_decl (s : ParserState) : decl.Keeps s := by
  refine ask_first (.refl s) (by decide) nofun ?_
  intro of s₁ h₁
  refine ask_later h₁ fun found s₂ h₂ => ask_later h₂ fun b s₃ h₃ => ?_
  split
  · exact stop_later h₃
  · exact ask_later h₃ fun of s₄ h₄ => ask_later h₄ fun _ s₅ h₅ => last_later h₅ fun _ _ h => h

/-! ### Expressions -/

theorem keeps_expr (l : Level) (s : ParserState) : (expr l).Keeps s := by
  refine ask_first (.refl s) (Nat.lt_succ_self _) nofun ?_
  intro lhs s₁ h₁
  exact last_later h₁ fun _ _ h => h

theorem keeps_operand (l : Level) (s : ParserState) : (operand l).Keeps s := by
  rw [Keeps, script]
  split
  · next l' hTighter =>
    have hDepth := Level.depth_of_tighter hTighter
    refine last_first (.refl s) ?_ nofun fun _ _ h => h
    show l'.depth + 1 < l.depth
    omega
  · next hTightest =>
    have hDepth := Level.depth_of_tightest hTightest
    refine last_first (.refl s) ?_ nofun fun _ _ h => h
    show 3 < l.depth
    omega

theorem keeps_unary (s : ParserState) : unary.Keeps s := by
  refine ask_first (.refl s) (by decide) nofun ?_
  intro t s₁ h₁
  split
  · refine ask_first h₁ (by decide) nofun ?_
    intro found s₂ h₂
    exact ask_later h₂ fun e s₃ h₃ => last_later h₃ fun _ _ h => h
  · exact last_first h₁ (by decide) nofun fun _ _ h => h

theorem keeps_factor (s : ParserState) : factor.Keeps s := by
  refine ask_first (.refl s) (by decide) nofun ?_
  intro found s₁ h₁
  split
  · exact ask_later h₁ fun e s₂ h₂ => ask_later h₂ fun _ s₃ h₃ => h₃
  · exact h₁
  · exact h₁
  · exact h₁
  · exact h₁
  · refine ask_later h₁ fun x s₂ h₂ => ask_later h₂ fun b s₃ h₃ => ?_
    split
    · exact ask_later h₃ fun a s₄ h₄ => h₄
    · exact h₃
  · exact last_later h₁ fun _ _ h => h

theorem keeps_access (x : Symbol) (span : Span) (s : ParserState) : (access x span).Keeps s := by
  refine ask_first (.refl s) (by decide) nofun ?_
  intro found s₁ h₁
  exact last_later h₁ fun _ _ h => h

theorem keeps_subscript (x : Symbol) (span : Span) (of : Ty) (s : ParserState) :
    (subscript x span of).Keeps s := by
  refine ask_first (.refl s) (by decide) nofun ?_
  intro bracket s₁ h₁
  refine ask_later h₁ fun index s₂ h₂ => ask_later h₂ fun _ s₃ h₃ => ?_
  split
  · exact last_later h₃ fun _ _ h => h
  · exact ask_later h₃ fun term s₄ h₄ => h₄

/-! ### Statements -/

theorem keeps_condition (construct : Construct) (span : Span) (s : ParserState) :
    (condition construct span).Keeps s := by
  refine ask_first (.refl s) (by decide) nofun ?_
  intro _ s₁ h₁
  refine ask_later h₁ fun e s₂ h₂ => ask_later h₂ fun _ s₃ h₃ => ?_
  split
  · exact h₃
  · exact last_later h₃ fun _ _ h => h

theorem keeps_assignment (s : ParserState) : assignment.Keeps s := by
  refine ask_first (.refl s) (by decide) nofun ?_
  intro found s₁ h₁
  refine ask_later h₁ fun x s₂ h₂ => ask_later h₂ fun b s₃ h₃ => ?_
  split
  · refine ask_later h₃ fun sign s₄ h₄ => ask_later h₄ fun value s₅ h₅ => ?_
    split
    · exact ask_later h₅ fun _ s₆ h₆ => h₆
    · exact ask_later h₅ fun _ s₆ h₆ => ask_later h₆ fun _ s₇ h₇ => h₇
  · refine ask_later h₃ fun target s₄ h₄ => ask_later h₄ fun sign s₅ h₅ =>
      ask_later h₅ fun value s₆ h₆ => ?_
    split
    · exact ask_later h₆ fun _ s₇ h₇ => h₇
    · exact ask_later h₆ fun _ s₇ h₇ => ask_later h₇ fun _ s₈ h₈ => h₈

theorem keeps_breakStmt (s : ParserState) : breakStmt.Keeps s := by
  refine ask_first (.refl s) (by decide) nofun ?_
  intro span s₁ h₁
  refine of_state ?_
  split
  · exact last_later h₁ fun _ _ h => h
  · exact ask_later h₁ fun _ s₂ h₂ => h₂

theorem keeps_ifStmt (s : ParserState) : ifStmt.Keeps s := by
  refine ask_first (.refl s) (by decide) nofun ?_
  intro span s₁ h₁
  refine ask_later h₁ fun test s₂ h₂ => ask_later h₂ fun onTrue s₃ h₃ =>
    ask_later h₃ fun t s₄ h₄ => ?_
  split
  · exact ask_later h₄ fun _ s₅ h₅ => ask_later h₅ fun onFalse s₆ h₆ => h₆
  · exact h₄

theorem keeps_whileStmt (s : ParserState) : whileStmt.Keeps s := by
  refine ask_first (.refl s) (by decide) nofun ?_
  intro span s₁ h₁
  exact ask_later h₁ fun test s₂ h₂ => ask_later h₂ fun exit s₃ h₃ =>
    ask_later h₃ fun body s₄ h₄ => h₄

theorem keeps_doStmt (s : ParserState) : doStmt.Keeps s := by
  refine ask_first (.refl s) (by decide) nofun ?_
  intro _ s₁ h₁
  exact ask_later h₁ fun exit s₂ h₂ => ask_later h₂ fun body s₃ h₃ =>
    ask_later h₃ fun span s₄ h₄ => ask_later h₄ fun test s₅ h₅ =>
      ask_later h₅ fun _ s₆ h₆ => h₆

theorem keeps_loopBody (exit : LoopExit) (s : ParserState) : (loopBody exit).Keeps s := by
  have h : Spends 0 s (enterLoop exit s) := .refl s
  exact last_first h (by decide) nofun fun _ _ h => h

theorem keeps_stmt (s : ParserState) : stmt.Keeps s := by
  refine ask_first (.refl s) (by decide) nofun ?_
  intro t s₁ h₁
  split
  · refine ask_first h₁ (by decide) nofun ?_
    intro _ s₂ h₂
    exact h₂
  · exact last_first h₁ (by decide) nofun fun _ _ h => h
  · exact last_first h₁ (by decide) nofun fun _ _ h => h
  · exact last_first h₁ (by decide) nofun fun _ _ h => h
  · exact last_first h₁ (by decide) nofun fun _ _ h => h
  · exact last_first h₁ (by decide) nofun fun _ _ h => h
  · exact last_first h₁ (by decide) nofun fun _ _ h => h

theorem keeps_block (s : ParserState) : block.Keeps s := by
  refine ask_first (.refl s) (by decide) nofun ?_
  intro _ s₁ h₁
  -- entering and leaving the scope reads no token
  refine ask_later (s := enterScope s₁) h₁ fun _ s₂ h₂ => last_later h₂ fun items s₃ h₃ => ?_
  exact ask_later (s := leaveScope s₃) h₃ fun _ s₄ h₄ => h₄

theorem keeps_program (s : ParserState) : program.Keeps s := by
  refine ask_first (.refl s) (by decide) nofun ?_
  intro body s₁ h₁
  refine ask_later h₁ fun t s₂ h₂ => ?_
  split
  · exact ask_later h₂ fun found s₃ h₃ => last_later h₃ fun _ _ h => h
  · exact h₂

/-! ### Loops -/

/-- A loop looks at the next token and then is done, or goes round. What it reads then begins with
that token, which has to be there. -/
structure Loops (c : Call f α) (test : Call g β) (k : β → Script α) : Prop where
  script : c.script = ask test >>= k
  ahead : g.looksAhead = true
  round (t : β) : (∃ a, k t = pure a) ∨
    (∀ s s', Returns test.run s t s' → s.rest ≠ []) ∧
      ∀ s₀ s, Spends 0 s₀ s → (k t).Obeys (Below f s₀) (f.Stopped s₀) s fun _ => Spends 1 s₀

theorem rest_ne_nil_of_peek {s s' : ParserState} {token : Token}
    (h : Returns peek.run s (some token) s') : s.rest ≠ [] := by
  obtain ⟨fuel, hRun⟩ := h
  intro hEmpty
  have hHead := ((yields_peek s).of_ok hRun).2
  rw [ParserState.tokens, hEmpty] at hHead
  cases hHead

theorem rest_ne_nil_of_atMark {s s' : ParserState} {m : Mark}
    (h : Returns (atMark m).run s true s') : s.rest ≠ [] := by
  obtain ⟨fuel, hRun⟩ := h
  intro hEmpty
  have hHead := ((yields_atMark m s).of_ok hRun).2.mp rfl
  rw [ParserState.tokens, hEmpty] at hHead
  cases hHead

theorem loops_decls : ∃ k, Loops decls peek k := by
  refine ⟨_, rfl, rfl, ?_⟩
  intro t
  split
  · refine .inr ⟨fun s s' h => rest_ne_nil_of_peek h, ?_⟩
    intro s₀ s h
    exact ask_first h (by decide) nofun fun _ s₁ h₁ => last_later h₁ fun _ _ h => h
  · exact .inl ⟨(), rfl⟩

theorem loops_chain (l : Level) (lhs : Expr) : ∃ k, Loops (chain l lhs) peek k := by
  refine ⟨_, rfl, rfl, ?_⟩
  intro t
  split
  · exact .inl ⟨lhs, rfl⟩
  · next op hOp =>
    -- the operator that goes on the chain is a token that is there to be read
    obtain ⟨m, rfl, -⟩ := Level.operatorOf_eq_some hOp
    refine .inr ⟨fun s s' h => rest_ne_nil_of_peek h, ?_⟩
    intro s₀ s h
    refine ask_first h Nat.one_lt_two nofun ?_
    intro found s₁ h₁
    refine ask_later h₁ fun rhs s₂ h₂ => ask_later h₂ fun joined s₃ h₃ => ?_
    split
    · exact last_later h₃ fun _ _ h => h
    · exact h₃

theorem loops_subscripts (x : Symbol) (span : Span) (index : Expr) (of : Ty) :
    ∃ k, Loops (subscripts x span index of) (atMark .openSquare) k := by
  refine ⟨_, rfl, rfl, ?_⟩
  intro b
  cases b with
  | true =>
    refine .inr ⟨fun s s' h => rest_ne_nil_of_atMark h, ?_⟩
    intro s₀ s h
    refine ask_first h (by decide) nofun ?_
    intro found s₁ h₁
    exact ask_later h₁ fun index s₂ h₂ => last_later h₂ fun _ _ h => h
  | false => exact .inl ⟨⟨x, index, of⟩, rfl⟩

theorem loops_stmts : ∃ k, Loops stmts peek k := by
  refine ⟨_, rfl, rfl, ?_⟩
  intro t
  split
  · exact .inl ⟨[], rfl⟩
  · exact .inl ⟨[], rfl⟩
  · refine .inr ⟨fun s s' h => rest_ne_nil_of_peek h, ?_⟩
    intro s₀ s h
    refine ask_first h (by decide) nofun ?_
    intro first s₁ h₁
    exact ask_later h₁ fun others s₂ h₂ => h₂

theorem exists_loops {c : Call f α} (h : f.loops = true) :
    ∃ (g : Routine) (β : Type) (test : Call g β) (k : β → Script α), c.Loops test k := by
  cases c with
  | decls => exact ⟨_, _, _, loops_decls⟩
  | chain l lhs => exact ⟨_, _, _, loops_chain l lhs⟩
  | subscripts x span index of => exact ⟨_, _, _, loops_subscripts x span index of⟩
  | stmts => exact ⟨_, _, _, loops_stmts⟩
  | _ => cases h

theorem keeps_of_loops {c : Call f α} (h : f.loops = true) (s : ParserState) : c.Keeps s := by
  obtain ⟨g, β, test, k, hLoop⟩ := exists_loops (c := c) h
  obtain ⟨hHeight, hReads, -⟩ := f.bounds_of_loops h
  obtain ⟨hTest, hJudges⟩ := g.bounds_of_looksAhead hLoop.ahead
  rw [Keeps, hLoop.script]
  refine ask_first (.refl s) (by omega) (fun hJudge => absurd hJudge (hJudges ▸ nofun)) ?_
  intro t s₁ h₁
  have hStart : Spends 0 s s₁ := h₁.mono (Nat.zero_le _)
  rcases hLoop.round t with ⟨a, hDone⟩ | ⟨-, hRound⟩
  · -- a loop may return without having read anything
    rw [hDone]
    show Spends f.reads s s₁
    rwa [hReads]
  · refine (hRound s s₁ hStart).mono ?_
    intro a s' hRead
    exact hRead.mono (by omega)

/-- **Every call keeps to the calls that are below it, and reads what its function has to read**, as
long as the calls that it makes do. -/
theorem keeps (c : Call f α) (s : ParserState) : c.Keeps s := by
  cases c with
  | fail error => exact ⟨.refl s, nofun⟩
  | check span r => exact keeps_check span r s
  | peek => exact keeps_peek s
  | next => exact keeps_next s
  | expect token => exact keeps_expect token s
  | expectMark m => exact last_first (.refl s) (by decide) nofun fun _ _ h => h
  | expectKeyword k => exact last_first (.refl s) (by decide) nofun fun _ _ h => h
  | name => exact keeps_name s
  | atMark m => exact ask_first (.refl s) (by decide) nofun fun _ _ h => h
  | newExit => exact Spends.refl s
  | resolve text span => exact keeps_resolve text span s
  | declare text of span => exact keeps_declare text of span s
  | dims of => exact keeps_dims of s
  | optionalDims of => exact keeps_optionalDims of s
  | type => exact keeps_type s
  | decl => exact keeps_decl s
  | decls => exact keeps_of_loops rfl s
  | expr l => exact keeps_expr l s
  | operand l => exact keeps_operand l s
  | chain l lhs => exact keeps_of_loops rfl s
  | unary => exact keeps_unary s
  | factor => exact keeps_factor s
  | access x span => exact keeps_access x span s
  | subscripts x span index of => exact keeps_of_loops rfl s
  | subscript x span of => exact keeps_subscript x span of s
  | condition construct span => exact keeps_condition construct span s
  | assignment => exact keeps_assignment s
  | breakStmt => exact keeps_breakStmt s
  | ifStmt => exact keeps_ifStmt s
  | whileStmt => exact keeps_whileStmt s
  | doStmt => exact keeps_doStmt s
  | loopBody exit => exact keeps_loopBody exit s
  | stmt => exact keeps_stmt s
  | stmts => exact keeps_of_loops rfl s
  | block => exact keeps_block s
  | program => exact keeps_program s

end Call

end JumpCode
