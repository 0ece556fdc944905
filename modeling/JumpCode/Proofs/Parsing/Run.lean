import JumpCode.Parser.Decl
import JumpCode.Parser.Expr
import JumpCode.Proofs.Rules

/-!
# JumpCode — runs of parsers

What a parser does from a state is said by two conditions: one on its value and the state it
leaves, and one on the reason for which it stops. `Yields p s onOk onStop` says that the run of `p`
from `s` meets the one that applies, and runs in a row meet what their parts hand on
(`Yields.bind`).

For each way to read a token there is one law, which says what has been read if it succeeds and
what the tokens lack if it does not:

* `yields_peek`, `yields_next`, `yields_expect`, `yields_name`, `yields_atMark` — tokens;
* `yields_resolve`, `yields_check` — names and typing rules;
* `yields_inside`, `yields_inScope`, `yields_inLoop`, `yields_newExit` — blocks and loops.

Where the tokens to come are known there is a law that goes on from them: `Faces.peek`,
`Faces.next` and so on.
-/

namespace JumpCode

open JumpCode.Parser

/-! ## Sequences -/

section Bind

variable {α β : Type} {p : Parser α} {f : α → Parser β} {s s' : ParserState}

theorem bind_of_ok {a : α} (h : p s = .ok a s') : (p >>= f) s = f a s' := by
  show EStateM.bind p f s = _
  unfold EStateM.bind
  rw [h]

theorem bind_of_error {stop : Stop} (h : p s = .error stop s') : (p >>= f) s = .error stop s' := by
  show EStateM.bind p f s = _
  unfold EStateM.bind
  rw [h]

end Bind

/-! ## Conditions on a run -/

/-- The run of a `Parser` from a state ends with a value and a state that meet the one condition, or
for a reason and in a state that meet the other. -/
def Yields {α : Type} (p : Parser α) (s : ParserState) (onOk : α → ParserState → Prop)
    (onStop : Stop → ParserState → Prop) : Prop :=
  match p s with
  | .ok a s' => onOk a s'
  | .error stop s' => onStop stop s'

section Yields

variable {α β : Type} {s : ParserState} {onStop onStop' : Stop → ParserState → Prop}

theorem Yields.mono {p : Parser α} {onOk onOk' : α → ParserState → Prop}
    (h : Yields p s onOk onStop) (hOk : ∀ a s', onOk a s' → onOk' a s')
    (hStop : ∀ stop s', onStop stop s' → onStop' stop s') : Yields p s onOk' onStop' := by
  unfold Yields at *
  split at h
  · exact hOk _ _ h
  · exact hStop _ _ h

/-- A run that is known meets the condition that applies. -/
theorem Yields.of_ok {p : Parser α} {onOk : α → ParserState → Prop} {a : α} {s' : ParserState}
    (h : Yields p s onOk onStop) (hRun : p s = .ok a s') : onOk a s' := by
  unfold Yields at h
  rwa [hRun] at h

theorem Yields.of_error {p : Parser α} {onOk : α → ParserState → Prop} {stop : Stop}
    {s' : ParserState} (h : Yields p s onOk onStop) (hRun : p s = .error stop s') :
    onStop stop s' := by
  unfold Yields at h
  rwa [hRun] at h

/-- Runs in a row: the second part starts from whatever the first one ends with. -/
theorem Yields.bind {p : Parser α} {f : α → Parser β} {mid : α → ParserState → Prop}
    {onOk : β → ParserState → Prop} (h : Yields p s mid onStop')
    (hStop : ∀ stop s', onStop' stop s' → onStop stop s')
    (hNext : ∀ a s', mid a s' → Yields (f a) s' onOk onStop) :
    Yields (p >>= f) s onOk onStop := by
  -- the sequence runs the second part only behind a value of the first
  show match EStateM.bind p f s with
    | .ok a s' => onOk a s'
    | .error stop s' => onStop stop s'
  unfold Yields at h
  unfold EStateM.bind
  split at h
  next a s' hRun =>
    rw [hRun]
    exact hNext a s' h
  next stop s' hRun =>
    rw [hRun]
    exact hStop stop s' h

theorem yields_pure {a : α} {onOk : α → ParserState → Prop} :
    Yields (pure a) s onOk onStop ↔ onOk a s := Iff.rfl

theorem yields_failAt {span : Span} {error : CompileError} {onOk : α → ParserState → Prop} :
    Yields (failAt span error) s onOk onStop ↔ onStop (.error ⟨error, span⟩) s := Iff.rfl

theorem yields_failAt_bind {span : Span} {error : CompileError} {f : α → Parser β}
    {onOk : β → ParserState → Prop} :
    Yields (failAt span error >>= f) s onOk onStop ↔ onStop (.error ⟨error, span⟩) s := Iff.rfl

theorem yields_fail {error : GrammarError} {onOk : α → ParserState → Prop} :
    Yields (fail error) s onOk onStop ↔ onStop (.error ⟨.grammatical error, s.last⟩) s := Iff.rfl

theorem yields_get {f : ParserState → Parser α} {onOk : α → ParserState → Prop} :
    Yields (get >>= f) s onOk onStop ↔ Yields (f s) s onOk onStop := Iff.rfl

end Yields

/-- The run stops because the program breaks a rule of scopes, types or storage: with a
`SemanticError`. -/
def Stop.IsSemantic (stop : Stop) : Prop :=
  ∃ error span, stop = .error ⟨.semantic error, span⟩

theorem Stop.IsSemantic.ne_exhausted {stop : Stop} (h : stop.IsSemantic) :
    stop ≠ .exhausted := by
  obtain ⟨_, _, rfl⟩ := h
  exact Stop.noConfusion

/-- The parser stops rightly where `P` is in question: the fuel is used up, or the program breaks a
rule and `P` does not hold. -/
def Stop.Denies (stop : Stop) (P : Prop) : Prop :=
  stop = .exhausted ∨ stop.IsSemantic ∧ ¬P

theorem Stop.Denies.mono {stop : Stop} {P Q : Prop} (h : stop.Denies P) (hPart : Q → P) :
    stop.Denies Q :=
  h.imp_right fun hStop => ⟨hStop.1, fun hQ => hStop.2 (hPart hQ)⟩

theorem Stop.denies_exhausted (P : Prop) : Stop.exhausted.Denies P := .inl rfl

/-! ## Tokens read -/

/-- The tokens to come in a `ParserState`, without their places. -/
def ParserState.tokens (s : ParserState) : List Token := s.rest.map (·.value)

theorem ParserState.length_tokens (s : ParserState) : s.tokens.length = s.rest.length :=
  List.length_map _

/-- From one state to the other these tokens have been read, and nothing else has changed but what
is left and the place of the last one. -/
structure Skips (s : ParserState) (ts : List Token) (s' : ParserState) : Prop where
  tokens : s.tokens = ts ++ s'.tokens
  frame : s' = { s with rest := s'.rest, last := s'.last }

namespace Skips

variable {s s₁ s₂ : ParserState} {ts us : List Token}

theorem refl (s : ParserState) : Skips s [] s := ⟨rfl, rfl⟩

theorem trans (h : Skips s ts s₁) (h' : Skips s₁ us s₂) : Skips s (ts ++ us) s₂ := by
  refine ⟨?_, ?_⟩
  · rw [h.tokens, h'.tokens, List.append_assoc]
  · rw [h'.frame, h.frame]

theorem scope (h : Skips s ts s₁) : s₁.scope = s.scope := by rw [h.frame]

theorem used (h : Skips s ts s₁) : s₁.used = s.used := by rw [h.frame]

theorem loops (h : Skips s ts s₁) : s₁.loops = s.loops := by rw [h.frame]

theorem met (h : Skips s ts s₁) : s₁.met = s.met := by rw [h.frame]

theorem ending (h : Skips s ts s₁) : s₁.ending = s.ending := by rw [h.frame]

theorem length (h : Skips s ts s₁) : s.rest.length = ts.length + s₁.rest.length := by
  have hTokens := congrArg List.length h.tokens
  rw [List.length_append] at hTokens
  rwa [s.length_tokens, s₁.length_tokens] at hTokens

theorem length_one {t : Token} (h : Skips s [t] s₁) :
    s.rest.length = s₁.rest.length + 1 := by
  rw [h.length, List.length_singleton, Nat.add_comm]

/-- The token that has been read is the one that stood first. -/
theorem head {t t' : Token} (h : Skips s [t] s₁) (hHead : s.tokens.head? = some t') : t = t' := by
  rw [h.tokens] at hHead
  exact Option.some.inj hHead

end Skips

/-! ## Ways to read a token -/

theorem yields_peek (s : ParserState) :
    Yields peek s (fun t s' => s' = s ∧ t = s.tokens.head?)
      (fun stop _ => stop ≠ .exhausted ∧ s.tokens = [] ∧ s.ending ≠ none) := by
  obtain ⟨rest, ending, last, scope, used, loops, met, log⟩ := s
  -- what comes behind the last token shows only once all have been read
  cases rest with
  | cons t rest => exact ⟨rfl, rfl⟩
  | nil =>
    cases ending with
    | none => exact ⟨rfl, rfl⟩
    | some failure => exact ⟨Stop.noConfusion, rfl, Option.some_ne_none _⟩

/-- Where no token is next, all have been read, and the lexer does not fail behind them. -/
theorem yields_peek_end (s : ParserState) :
    Yields peek s (fun t s' => s' = s ∧ (t.isSome = false → s.tokens = [] ∧ s.ending = none))
      (fun stop _ => stop ≠ .exhausted) := by
  obtain ⟨rest, ending, last, scope, used, loops, met, log⟩ := s
  cases rest with
  | cons t rest => exact ⟨rfl, fun h => by cases h⟩
  | nil =>
    cases ending with
    | none => exact ⟨rfl, fun _ => ⟨rfl, rfl⟩⟩
    | some failure => exact Stop.noConfusion

theorem yields_next (s : ParserState) :
    Yields next s (fun found s' => Skips s [found.value] s')
      (fun stop _ => stop ≠ .exhausted ∧ s.tokens = []) := by
  obtain ⟨rest, ending, last, scope, used, loops, met, log⟩ := s
  cases rest with
  | cons t rest => exact ⟨rfl, rfl⟩
  | nil => cases ending <;> exact ⟨Stop.noConfusion, rfl⟩

theorem yields_expect (token : Token) (s : ParserState) :
    Yields (expect token) s (fun _ s' => Skips s [token] s')
      (fun stop _ => stop ≠ .exhausted ∧ s.tokens.head? ≠ some token) := by
  obtain ⟨rest, ending, last, scope, used, loops, met, log⟩ := s
  cases rest with
  | nil => cases ending <;> exact ⟨Stop.noConfusion, fun h => by cases h⟩
  | cons t rest =>
    -- the reader takes the token whatever it is, and complains only then
    rw [expect, yields_get]
    refine (yields_next _).bind (fun stop _ h => ⟨h.1, fun _ => by cases h.2⟩) ?_
    intro found s' hFound
    have hHead : t.value = found.value := (List.cons.inj hFound.tokens).1
    split
    · next hToken =>
      rw [yields_pure, ← hToken]
      exact hFound
    · next hToken =>
      rw [yields_fail]
      refine ⟨Stop.noConfusion, fun h => hToken ?_⟩
      rw [← hHead]
      exact Option.some.inj h

theorem yields_name (s : ParserState) :
    Yields name s (fun found s' => Skips s [.name found.value] s')
      (fun stop _ => stop ≠ .exhausted ∧ ∀ text, s.tokens.head? ≠ some (.name text)) := by
  rw [name]
  refine (yields_next s).bind (fun stop _ h => ⟨h.1, fun _ => by rw [h.2]; simp⟩) ?_
  intro found s' hFound
  split
  · next text hText =>
    rw [yields_pure, ← hText]
    exact hFound
  · next hText =>
    rw [yields_fail]
    exact ⟨Stop.noConfusion, fun text h => hText text (hFound.head h)⟩

theorem yields_atMark (m : Mark) (s : ParserState) :
    Yields (atMark m) s (fun b s' => s' = s ∧ (b = true ↔ s.tokens.head? = some (.mark m)))
      (fun stop _ => stop ≠ .exhausted ∧ s.tokens = [] ∧ s.ending ≠ none) := by
  rw [atMark]
  refine (yields_peek s).bind (fun _ _ h => h) ?_
  rintro t s' ⟨rfl, rfl⟩
  rw [yields_pure]
  exact ⟨rfl, beq_iff_eq⟩

/-! ## Names and rules -/

theorem yields_resolve (text : String) (span : Span) (s : ParserState) :
    Yields (resolve text span) s (fun x s' => s' = s ∧ s.scope.lookup? text = some x)
      (fun stop _ => stop.IsSemantic ∧ s.scope.lookup? text = none) := by
  rw [resolve, yields_get]
  -- nothing is consumed: only the scope decides
  split
  · next x hName => exact ⟨rfl, hName⟩
  · next hName => exact ⟨⟨_, _, rfl⟩, hName⟩

theorem yields_check {α : Type} (span : Span) (r : Except SemanticError α) (s : ParserState) :
    Yields (check span r) s (fun a s' => s' = s ∧ r = .ok a)
      (fun stop _ => stop.IsSemantic ∧ ∀ a, r ≠ .ok a) := by
  cases r with
  | ok a => exact ⟨rfl, rfl⟩
  | error e => exact ⟨⟨_, _, rfl⟩, fun _ h => by cases h⟩

/-! ## Blocks and loops -/

/-- Runs a `Parser` inside of what is opened for it and closed behind it, also if it stops. -/
def Parser.inside {α : Type} (enter leave : ParserState → ParserState) (p : Parser α) :
    Parser α := fun s =>
  match p (enter s) with
  | .ok a s' => .ok a (leave s')
  | .error stop s' => .error stop (leave s')

section Inside

variable {α : Type} {enter leave : ParserState → ParserState} {p : Parser α} {s s' : ParserState}
  {onOk : α → ParserState → Prop} {onStop : Stop → ParserState → Prop}

theorem inScope_eq (p : Parser α) : inScope p = Parser.inside enterScope leaveScope p := rfl

theorem inLoop_eq (exit : LoopExit) (p : Parser α) :
    inLoop exit p = Parser.inside (enterLoop exit) leaveLoop p := rfl

theorem inside_of_ok {a : α} (h : p (enter s) = .ok a s') :
    Parser.inside enter leave p s = .ok a (leave s') := by
  rw [Parser.inside, h]

theorem inside_of_error {stop : Stop} (h : p (enter s) = .error stop s') :
    Parser.inside enter leave p s = .error stop (leave s') := by
  rw [Parser.inside, h]

theorem yields_inside :
    Yields (Parser.inside enter leave p) s onOk onStop ↔
      Yields p (enter s) (fun a s' => onOk a (leave s')) fun stop s' => onStop stop (leave s') := by
  unfold Yields Parser.inside
  cases p (enter s) <;> exact Iff.rfl

theorem yields_inScope :
    Yields (inScope p) s onOk onStop ↔
      Yields p (enterScope s) (fun a s' => onOk a (leaveScope s'))
        (fun stop s' => onStop stop (leaveScope s')) := by
  rw [inScope_eq, yields_inside]

theorem yields_inLoop {exit : LoopExit} :
    Yields (inLoop exit p) s onOk onStop ↔
      Yields p (enterLoop exit s) (fun a s' => onOk a (leaveLoop s'))
        (fun stop s' => onStop stop (leaveLoop s')) := by
  rw [inLoop_eq, yields_inside]

theorem yields_newExit {f : LoopExit → Parser α} :
    Yields (newExit >>= f) s onOk onStop ↔
      Yields (f ⟨s.met⟩) { s with met := s.met + 1 } onOk onStop := Iff.rfl

end Inside

/-! ## Tokens that are there -/

/-- These tokens are all that is to come, and the lexer does not fail behind them. -/
structure Faces (s : ParserState) (ts : List Token) : Prop where
  tokens : s.tokens = ts
  ending : s.ending = none

theorem Faces.skip {s s' : ParserState} {ts rest : List Token} (h : Faces s (ts ++ rest))
    (hSkips : Skips s ts s') : Faces s' rest := by
  refine ⟨?_, hSkips.ending.trans h.ending⟩
  have hTokens := hSkips.tokens
  rw [h.tokens] at hTokens
  exact (List.append_cancel_left hTokens).symm

section Faces

variable {α : Type} {s : ParserState} {t : Token} {ts : List Token}
  {onOk : α → ParserState → Prop} {onStop : Stop → ParserState → Prop}

theorem Faces.peek {f : Option Token → Parser α} (h : Faces s ts)
    (hNext : Yields (f ts.head?) s onOk onStop) : Yields (peek >>= f) s onOk onStop := by
  refine (yields_peek s).bind (fun _ _ hStop => absurd h.ending hStop.2.2) ?_
  rintro found s' ⟨rfl, rfl⟩
  rw [h.tokens]
  exact hNext

theorem Faces.next {f : Located Token → Parser α} (h : Faces s (t :: ts))
    (hNext : ∀ found s', found.value = t → Skips s [t] s' → Faces s' ts →
      Yields (f found) s' onOk onStop) : Yields (next >>= f) s onOk onStop := by
  refine (yields_next s).bind (fun _ _ hStop => ?_) fun found s' hFound => ?_
  -- a token is there, so that nothing can be missing
  · have hEmpty := h.tokens.symm.trans hStop.2
    cases hEmpty
  · have hValue : found.value = t := by
      have hTokens := hFound.tokens.symm.trans h.tokens
      exact (List.cons.inj hTokens).1
    rw [hValue] at hFound
    exact hNext found s' hValue hFound (h.skip hFound)

theorem Faces.expect {f : Span → Parser α} (h : Faces s (t :: ts))
    (hNext : ∀ span s', Skips s [t] s' → Faces s' ts → Yields (f span) s' onOk onStop) :
    Yields (expect t >>= f) s onOk onStop := by
  refine (yields_expect t s).bind (fun _ _ hStop => ?_) fun span s' hFound => ?_
  · exact absurd (congrArg List.head? h.tokens) hStop.2
  · exact hNext span s' hFound (h.skip hFound)

theorem Faces.name {text : String} {f : Located String → Parser α}
    (h : Faces s (.name text :: ts))
    (hNext : ∀ found s', found.value = text → Skips s [.name text] s' → Faces s' ts →
      Yields (f found) s' onOk onStop) : Yields (name >>= f) s onOk onStop := by
  refine (yields_name s).bind (fun _ _ hStop => ?_) fun found s' hFound => ?_
  · exact absurd (congrArg List.head? h.tokens) (hStop.2 text)
  · have hValue : found.value = text := by
      have hTokens := hFound.tokens.symm.trans h.tokens
      exact Token.name.inj (List.cons.inj hTokens).1
    rw [hValue] at hFound
    exact hNext found s' hValue hFound (h.skip hFound)

theorem Faces.atMark {m : Mark} {f : Bool → Parser α} (h : Faces s ts)
    (hNext : Yields (f (ts.head? == some (.mark m))) s onOk onStop) :
    Yields (atMark m >>= f) s onOk onStop := by
  rw [Parser.atMark, bind_assoc]
  exact h.peek hNext

end Faces

end JumpCode
