import Mathlib.Data.List.Chain
import JumpCode.Proofs.Parsing.Descent
import JumpCode.Proofs.Parsing.Scripts

/-!
# JumpCode — how deep calls are nested

A call is lower than its caller, or it comes after a token that its caller has read. So a function
is not called again inside of itself before a token has been read, and calls are nested no deeper
than the tokens pay for. A call passes on all of its fuel but one unit at most: where fuel is used
up, as many calls are nested, and with fuel for every token that is not possible.

* `Activation.Calls.below` — a call that is made while another one runs is below it;
* `Activation.length_le_weight` — chains of nested calls are bounded by the tokens that are left;
* `Activation.exists_isChain` — what fuel there is for a call that uses it up is spent on such a
  chain;
* `Activation.Round.spends` — a loop that has gone round has read a token;
* `nesting_linear` — programs, from the first token on.
-/

namespace JumpCode

open JumpCode.Parser

variable {f : Routine} {α : Type} {fuel : Nat}

/-! ## What scripts keep to -/

/-- However a call ends, it has read what its function has to read (`Routine.Returned`,
`Routine.Stopped`), unless its fuel is used up. -/
def Activation.EndsWell (b : Activation) : Prop :=
  ∀ fuel, Yields (b.call.run fuel) b.state (fun _ => b.routine.Returned b.state)
    fun stop s' => stop ≠ .exhausted → b.routine.Stopped b.state s'

section Obeys

variable {allowed : Activation → Prop} (hCalls : ∀ b, allowed b → b.EndsWell)

include hCalls

/-- What a script has been shown to meet (`Script.Obeys`) holds at the end of its runs. -/
theorem Script.Obeys.yields {p : Script α} {s : ParserState} {onStop : ParserState → Prop}
    {onDone : α → ParserState → Prop} (h : p.Obeys allowed onStop s onDone) (fuel : Nat) :
    Yields (p.run fuel) s onDone fun stop s' => stop ≠ .exhausted → onStop s' := by
  -- on the script, part by part in the order in which it runs
  induction p generalizing s onStop with
  | done a => exact h
  | stop span error => exact fun _ => h
  | read rest ih => exact ih s h
  | write s' rest ih => exact ih h
  | call c rest ih =>
    obtain ⟨hAllowed, hStop, hNext⟩ := h
    refine (hCalls _ hAllowed fuel).bind ?_ ?_
    · intro stop s' hStopped hOther
      exact hStop s' (hStopped hOther)
    · intro a s' hReturned
      exact ih a (hNext a s' hReturned)
  | inside enter leave body rest ihBody ih =>
    have hBody : Yields (Parser.inside enter leave (body.run fuel)) s
        (fun a s' => (rest a).Obeys allowed onStop s' onDone)
        fun stop s' => stop ≠ .exhausted → onStop s' := yields_inside.mpr (ihBody h)
    refine hBody.bind (fun _ _ hStopped => hStopped) ?_
    intro a s' hRest
    exact ih a hRest

/-- A script makes no other calls than those that are allowed. -/
theorem Script.Obeys.of_calls {p : Script α} {s : ParserState} {onStop : ParserState → Prop}
    {onDone : α → ParserState → Prop} (h : p.Obeys allowed onStop s onDone) {b : Activation}
    (hCall : p.Calls s b) : allowed b := by
  induction p generalizing s onStop with
  | done a => exact hCall.elim
  | stop span error => exact hCall.elim
  | read rest ih => exact ih s h hCall
  | write s' rest ih => exact ih h hCall
  | call c rest ih =>
    obtain ⟨hAllowed, -, hNext⟩ := h
    rcases hCall with rfl | ⟨a, s', ⟨fuel, hRun⟩, hCall⟩
    · exact hAllowed
    · exact ih a (hNext a s' ((hCalls _ hAllowed fuel).of_ok hRun)) hCall
  | inside enter leave body rest ihBody ih =>
    rcases hCall with hCall | ⟨a, s', ⟨fuel, hRun⟩, hCall⟩
    · exact ihBody h hCall
    · exact ih a ((Script.Obeys.yields hCalls (p := body) h fuel).of_ok hRun) hCall

end Obeys

/-! ## Calls are lower than their callers -/

/-- A bound on the calls that may be nested in a call: `nestingPerToken` for each token that is
left, and `Routine.height` for what the function may call before it reads one. -/
def Activation.weight (a : Activation) : Nat :=
  nestingPerToken * a.state.rest.length + a.routine.height

theorem Routine.height_lt (f : Routine) : f.height < nestingPerToken := by
  cases f with
  | operand l =>
    have hDepth := l.depth_bounds
    show l.depth < 16
    omega
  | expr l =>
    have hDepth := l.depth_bounds
    show l.depth + 1 < 16
    omega
  | chain l =>
    show 2 < 16
    omega
  | _ => decide

theorem Below.weight_lt {a b : Activation} (h : Below a.routine a.state b) :
    b.weight < a.weight := by
  have hHeight := b.routine.height_lt
  have hLater := h.later.length_le
  unfold Activation.weight nestingPerToken at *
  rcases h.lower with hRead | hLower
  · -- the token pays for all that the other call may nest before it reads one
    have hLength := hRead.length_le
    omega
  · omega

theorem Call.run_zero (c : Call f α) (h : f.cost ≠ 0) : c.run 0 = throw .exhausted := by
  cases c <;> first | rfl | exact absurd rfl h

/-- A call has no fuel, or it does what its `Call.script` says with what is left of it. -/
theorem Call.run_cases (c : Call f α) (fuel : Nat) :
    fuel = 0 ∧ c.run fuel = throw .exhausted ∨
      ∃ rest, fuel ≤ rest + 1 ∧ c.run fuel = c.script.run rest := by
  by_cases hCost : f.cost = 0
  · refine .inr ⟨fuel, Nat.le_succ fuel, ?_⟩
    rw [c.run_script, hCost]
    rfl
  · cases fuel with
    | zero => exact .inl ⟨rfl, c.run_zero hCost⟩
    | succ fuel =>
      have hOne : f.cost = 1 := by
        unfold Routine.cost at *
        split at hCost <;> first | rfl | exact absurd rfl hCost
      refine .inr ⟨fuel, Nat.le_refl _, ?_⟩
      rw [c.run_script, hOne]

/-- **However a call ends, it has read what its function has to read.** The induction is on
`Activation.weight`, since a call is below its caller. -/
theorem Activation.endsWell (a : Activation) : a.EndsWell := by
  -- by the weight of the call: those that it makes are below it, and end well
  induction hWeight : a.weight using Nat.strongRecOn generalizing a with
  | ind weight ih =>
    intro fuel
    rcases a.call.run_cases fuel with ⟨-, hRun⟩ | ⟨rest, -, hRun⟩
    · -- without fuel nothing is said
      rw [hRun]
      exact fun hOther => absurd rfl hOther
    · rw [hRun]
      refine (a.call.keeps a.state).yields ?_ rest
      intro b hBelow
      exact ih b.weight (hWeight ▸ hBelow.weight_lt) b rfl

/-- **A call is below its caller** (`Below`): it comes after a token that has been read, or it is
lower. -/
theorem Activation.Calls.below {a b : Activation} (h : a.Calls b) : Below a.routine a.state b :=
  (a.call.keeps a.state).of_calls (fun b _ => b.endsWell) h

/-! ## Calls in calls -/

/-- Calls that are nested in each other, the first one making the second, and so on: there are not
more of them than the first one has weight, for each has less than the one before. -/
theorem Activation.length_le_weight {a : Activation} {inner : List Activation}
    (h : List.IsChain Activation.Calls (a :: inner)) : inner.length ≤ a.weight := by
  -- each call takes away from the weight that is left for those behind it
  induction inner generalizing a with
  | nil => exact Nat.zero_le _
  | cons b inner ih =>
    obtain ⟨hCall, hRest⟩ := List.isChain_cons_cons.mp h
    have hLower := hCall.below.weight_lt
    have hInner := ih hRest
    rw [List.length_cons]
    omega

/-- Between a call and one that is nested in it, a token has been read or the function is lower
(`Below`). -/
theorem Activation.below_of_nested {a b : Activation}
    (h : Relation.TransGen Activation.Calls a b) : Below a.routine a.state b := by
  induction h with
  | single hCall => exact hCall.below
  | tail _ hCall ih =>
    have hBelow := hCall.below
    refine ⟨ih.later.trans hBelow.later, ?_⟩
    -- one token on the way is enough, and without any the heights go down
    rcases ih.lower, hBelow.lower with ⟨hRead | hLower, hRead' | hLower'⟩
    · exact .inl ((hRead.trans hRead').mono (by omega))
    · exact .inl (hRead.trans hBelow.later)
    · exact .inl (ih.later.trans hRead')
    · exact .inr (Nat.lt_trans hLower' hLower)

/-- Where a function is called again inside of itself, a token has been read: it is not lower than
itself. -/
theorem Activation.spends_of_nested {a b : Activation}
    (h : Relation.TransGen Activation.Calls a b) (hSame : a.routine = b.routine) :
    Spends 1 a.state b.state := by
  rcases (below_of_nested h).lower with hRead | hLower
  · exact hRead
  · rw [hSame] at hLower
    exact absurd hLower (Nat.lt_irrefl _)

/-- A script whose fuel is used up has made a call whose fuel is used up, since it spends none
itself. -/
theorem Script.exists_exhausted {p : Script α} {s s' : ParserState}
    (h : p.run fuel s = .error .exhausted s') :
    ∃ b : Activation, p.Calls s b ∧ ∃ s'', b.call.run fuel b.state = .error .exhausted s'' := by
  induction p generalizing s s' with
  | done a => cases h
  | stop span error => cases h
  | read rest ih => exact ih s h
  | write s₁ rest ih => exact ih h
  | call c rest ih =>
    -- if this call returns then it is one behind it that lacks fuel
    cases hRun : c.run fuel s with
    | ok a s₁ =>
      rw [run, bind_of_ok hRun] at h
      obtain ⟨b, hCall, hb⟩ := ih a h
      exact ⟨b, .inr ⟨a, s₁, ⟨fuel, hRun⟩, hCall⟩, hb⟩
    | error stop s₁ =>
      rw [run, bind_of_error hRun] at h
      cases h
      exact ⟨⟨c, s⟩, .inl rfl, _, hRun⟩
  | inside enter leave body rest ihBody ih =>
    cases hRun : body.run fuel (enter s) with
    | ok a s₁ =>
      rw [run, bind_of_ok (inside_of_ok hRun)] at h
      obtain ⟨b, hCall, hb⟩ := ih a h
      exact ⟨b, .inr ⟨a, s₁, ⟨fuel, hRun⟩, hCall⟩, hb⟩
    | error stop s₁ =>
      rw [run, bind_of_error (inside_of_error hRun)] at h
      cases h
      obtain ⟨b, hCall, hb⟩ := ihBody hRun
      exact ⟨b, .inl hCall, hb⟩

/-- **Fuel is used up by calls in calls.** Where it is, as many calls are nested in each other. The
induction is on the fuel, one unit for each call in the chain. -/
theorem Activation.exists_isChain {a : Activation} {s' : ParserState}
    (h : a.call.run fuel a.state = .error .exhausted s') :
    ∃ inner, List.IsChain Activation.Calls (a :: inner) ∧ fuel ≤ inner.length := by
  -- by the weight of the call, which goes down with every call that is made in it
  induction hWeight : a.weight using Nat.strongRecOn generalizing a fuel s' with
  | ind weight ih =>
    rcases a.call.run_cases fuel with ⟨rfl, -⟩ | ⟨rest, hFuel, hRun⟩
    · exact ⟨[], .singleton a, Nat.le_refl 0⟩
    · rw [hRun] at h
      obtain ⟨b, hCall, s'', hExhausted⟩ := Script.exists_exhausted h
      have hCall : a.Calls b := hCall
      -- what is left of the fuel is used up in the call that lacks it
      obtain ⟨inner, hChain, hLength⟩ :=
        ih b.weight (hWeight ▸ hCall.below.weight_lt) hExhausted rfl
      refine ⟨b :: inner, .cons_cons hCall hChain, ?_⟩
      rw [List.length_cons]
      omega

/-! ## Rounds of loops -/

/-- The call ends in a state, with a value or with an error of the program. -/
def Activation.Ends (a : Activation) (s' : ParserState) : Prop :=
  ∃ fuel, (∃ v, a.call.run fuel a.state = .ok v s') ∨
    ∃ failure, a.call.run fuel a.state = .error (.error failure) s'

/-- A round of a loop is over in a state. -/
inductive Activation.Round (a : Activation) : ParserState → Prop
  /-- The loop calls itself. -/
  | again {b : Activation} (hCall : a.Calls b) (hSame : b.routine = a.routine) : a.Round b.state
  /-- The loop ends, and has done more than to look at the next token. -/
  | last {b : Activation} {s' : ParserState} (hCall : a.Calls b)
      (hBody : b.routine.looksAhead = false) (hEnds : a.Ends s') : a.Round s'

theorem Call.run_of_looksAhead (c : Call f α) (h : f.looksAhead = true) (fuel fuel' : Nat) :
    c.run fuel = c.run fuel' := by
  cases c with
  | peek | atMark m => rfl
  | _ => cases h

/-- A loop that has gone round has read a token, however it ends: its body has
(`Call.exists_loops`). -/
theorem Activation.Ends.spends {a b : Activation} {s' : ParserState} (h : a.Ends s')
    (hLoop : a.routine.loops = true) (hCall : a.Calls b)
    (hBody : b.routine.looksAhead = false) : Spends 1 a.state s' := by
  obtain ⟨g, β, test, k, hShape⟩ := Call.exists_loops (c := a.call) hLoop
  have hBehind : (Script.ask test >>= k).Calls a.state b := hShape.script ▸ hCall
  -- the call that has been made is behind the look at the next token
  rcases hBehind with rfl | ⟨t, s₁, ⟨fuel₁, hTest⟩, hRest⟩
  · cases hBody.symm.trans hShape.ahead
  have hRest : (k t).Calls s₁ b := hRest
  rcases hShape.round t with ⟨v, hDone⟩ | ⟨hHead, hRound⟩
  · rw [hDone] at hRest
    exact hRest.elim
  obtain ⟨fuel, ⟨v, hRun⟩ | ⟨failure, hRun⟩⟩ := h
  · rcases a.call.run_cases fuel with ⟨-, hShort⟩ | ⟨rest, -, hScript⟩
    · rw [hShort] at hRun
      cases hRun
    rw [hScript, hShape.script, Script.run_bind, Script.run_ask,
      test.run_of_looksAhead hShape.ahead rest fuel₁, bind_of_ok hTest] at hRun
    have hStart : Spends 0 a.state s₁ :=
      ((Activation.endsWell ⟨test, a.state⟩ fuel₁).of_ok hTest).mono (Nat.zero_le _)
    exact ((hRound a.state s₁ hStart).yields (fun b _ => b.endsWell) rest).of_ok hRun
  · -- a loop does not judge, and there was a token to be read
    have hStopped := (a.endsWell fuel).of_error hRun Stop.noConfusion
    have hReader : a.routine.judges = false := (a.routine.bounds_of_loops hLoop).2.2
    exact (hStopped.2 hReader).resolve_left (hHead a.state s₁ ⟨fuel₁, hTest⟩)

theorem Activation.Round.spends {a : Activation} {s' : ParserState} (h : a.Round s')
    (hLoop : a.routine.loops = true) : Spends 1 a.state s' := by
  cases h with
  | again hCall hSame => exact spends_of_nested (.single hCall) hSame.symm
  | last hCall hBody hEnds => exact hEnds.spends hLoop hCall hBody

/-! ## Depth -/

/-- The calls that are nested when a program is read, the outermost one counted as well. -/
theorem length_lt_of_program {tokens : List (Located Token)} {ending : Option (Located LexError)}
    {inner : List Activation}
    (h : List.IsChain Activation.Calls (⟨.program, .initial tokens ending⟩ :: inner)) :
    inner.length + 1 ≤ nestingPerToken * (tokens.length + 1) := by
  have hLength := Activation.length_le_weight h
  have hWeight : Activation.weight ⟨.program, .initial tokens ending⟩ =
      16 * tokens.length + 5 := rfl
  unfold nestingPerToken
  omega

/-- **Calls nest as deep as there are tokens, at most 16 for each.** Between two calls of a function
that are nested in each other a token is read, and every round of a loop reads one. So the calls
that reading a program nests are bounded by its tokens, whatever these are, and as much fuel is not
used up. -/
theorem nesting_linear :
    (∀ a b : Activation, Relation.TransGen Activation.Calls a b → a.routine = b.routine →
      Spends 1 a.state b.state) ∧
    (∀ (a : Activation) (s' : ParserState), a.routine.loops = true → a.Round s' →
      Spends 1 a.state s') ∧
    ∀ (tokens : List (Located Token)) (ending : Option (Located LexError)),
      (∀ inner : List Activation,
        List.IsChain Activation.Calls (⟨.program, .initial tokens ending⟩ :: inner) →
        inner.length + 1 ≤ nestingPerToken * (tokens.length + 1)) ∧
      ∀ fuel s', nestingPerToken * (tokens.length + 1) ≤ fuel →
        program fuel (.initial tokens ending) ≠ .error .exhausted s' := by
  refine ⟨fun a b => Activation.spends_of_nested, fun a s' hLoop hRound => hRound.spends hLoop, ?_⟩
  intro tokens ending
  refine ⟨fun inner => length_lt_of_program, ?_⟩
  intro fuel s' hFuel hExhausted
  obtain ⟨inner, hChain, hLength⟩ :=
    Activation.exists_isChain (a := ⟨.program, .initial tokens ending⟩) hExhausted
  have hDepth := length_lt_of_program hChain
  omega

/-- The tokens of a block that is not closed: `{ ; ;`. -/
def openBlock : List (Located Token) :=
  [⟨.mark .openCurly, ⟨⟨1, 1⟩, ⟨1, 2⟩⟩⟩, ⟨.mark .semicolon, ⟨⟨1, 3⟩, ⟨1, 4⟩⟩⟩,
    ⟨.mark .semicolon, ⟨⟨1, 5⟩, ⟨1, 6⟩⟩⟩]

/-- The state behind the opening bracket, in the scope of the block. -/
def insideBlock : ParserState :=
  enterScope { ParserState.initial openBlock.tail none with last := ⟨⟨1, 1⟩, ⟨1, 2⟩⟩ }

/-- Behind the first statement the list of statements goes round. -/
theorem exists_again : ∃ s', Activation.Calls ⟨.stmts, insideBlock⟩ ⟨.stmts, s'⟩ :=
  ⟨_, .inr ⟨some (.mark .semicolon), _, ⟨0, rfl⟩, .inr ⟨.null, _, ⟨1, rfl⟩, .inl rfl⟩⟩⟩

/-- From the program down to the token of its first statement. -/
theorem isChain_openBlock : List.IsChain Activation.Calls
    [⟨.program, .initial openBlock none⟩, ⟨.block, .initial openBlock none⟩,
      ⟨.stmts, insideBlock⟩, ⟨.stmt, insideBlock⟩, ⟨.next, insideBlock⟩] := by
  have hBlock : Activation.Calls ⟨.program, .initial openBlock none⟩
      ⟨.block, .initial openBlock none⟩ := .inl rfl
  have hStmts : Activation.Calls ⟨.block, .initial openBlock none⟩ ⟨.stmts, insideBlock⟩ :=
    .inr ⟨_, _, ⟨0, rfl⟩, .inl (.inr ⟨(), _, ⟨1, rfl⟩, .inl rfl⟩)⟩
  have hStmt : Activation.Calls ⟨.stmts, insideBlock⟩ ⟨.stmt, insideBlock⟩ :=
    .inr ⟨some (.mark .semicolon), _, ⟨0, rfl⟩, .inl rfl⟩
  have hNext : Activation.Calls ⟨.stmt, insideBlock⟩ ⟨.next, insideBlock⟩ :=
    .inr ⟨some (.mark .semicolon), _, ⟨0, rfl⟩, .inl rfl⟩
  exact .cons_cons hBlock (.cons_cons hStmts (.cons_cons hStmt (.cons_cons hNext (.singleton _))))

/-- The list of statements in a block that is not closed goes round behind a token, and the calls
stay within the bound. -/
theorem nesting_linear_sample :
    (∃ s', Relation.TransGen Activation.Calls ⟨.stmts, insideBlock⟩ ⟨.stmts, s'⟩ ∧
      Spends 1 insideBlock s') ∧
    (∃ s', Activation.Round ⟨.stmts, insideBlock⟩ s' ∧ Spends 1 insideBlock s') ∧
    (∃ inner, List.IsChain Activation.Calls (⟨.program, .initial openBlock none⟩ :: inner) ∧
      inner.length = 4 ∧ inner.length + 1 ≤ 64) ∧
    ∀ s', program 64 (.initial openBlock none) ≠ .error .exhausted s' := by
  obtain ⟨hNested, hRounds, hPrograms⟩ := nesting_linear
  obtain ⟨hDepth, hFuel⟩ := hPrograms openBlock none
  obtain ⟨s', hAgain⟩ := exists_again
  have hRound : Activation.Round ⟨.stmts, insideBlock⟩ s' := .again hAgain rfl
  refine ⟨⟨s', .single hAgain, hNested _ _ (.single hAgain) rfl⟩,
    ⟨s', hRound, hRounds _ _ rfl hRound⟩,
    ⟨_, isChain_openBlock, rfl, hDepth _ isChain_openBlock⟩, ?_⟩
  intro s'
  exact hFuel 64 s' (Nat.le_refl 64)

end JumpCode
