import JumpCode.Proofs.Parsing.Lookahead
import Mathlib.Data.List.Forall2

/-!
# JumpCode — where the tokens stand

The parser takes the places of its tokens along to blame them, and for nothing else. So the same
tokens in other places are read in the same way: the same program, or an error that differs in the
place at most, and the same messages on the way. If all places correspond in some way, then so do
the places that are blamed.

* `ParserState.Alike` — states in front of the same tokens, in places that correspond;
* `Follows` — from such states two parsers come to the same;
* `follows_closed` — this holds of all functions of the parser;
* `readTokens_alike` — the same tokens are read in the same way.
-/

namespace JumpCode

open JumpCode.Parser

section

variable {P : Span → Span → Prop}

/-! ## States and ends -/

/-- The same value, in places that correspond by `P`. -/
structure Located.Alike (P : Span → Span → Prop) {α : Type} (x y : Located α) : Prop where
  value : x.value = y.value
  span : P x.span y.span

/-- The same reason to `Stop`: lack of fuel, or the same error in places that correspond. -/
inductive Stop.Alike (P : Span → Span → Prop) : Stop → Stop → Prop
  | error (error : CompileError) {span span' : Span} (h : P span span') :
    Alike P (.error ⟨error, span⟩) (.error ⟨error, span'⟩)
  | exhausted : Alike P .exhausted .exhausted

/-- Two states are the same but for the places of the tokens, of the failure behind them and of the
last token, which correspond. -/
structure ParserState.Alike (P : Span → Span → Prop) (s s' : ParserState) : Prop where
  rest : List.Forall₂ (Located.Alike P) s.rest s'.rest
  ending : Option.Rel (Located.Alike P) s.ending s'.ending
  last : P s.last s'.last
  scope : s.scope = s'.scope
  used : s.used = s'.used
  loops : s.loops = s'.loops
  met : s.met = s'.met
  log : s.log = s'.log

/-- Two runs end in the same way but for places, unless the first one lacks fuel. -/
inductive Ended.Alike (P : Span → Span → Prop) {α : Type} : Ended α → Ended α → Prop
  | ok (a : α) {s s' : ParserState} (h : s.Alike P s') : Alike P (.ok a s) (.ok a s')
  | error {stop stop' : Stop} {s s' : ParserState} (hStop : stop.Alike P stop')
      (h : s.Alike P s') : Alike P (.error stop s) (.error stop' s')
  | exhausted (s : ParserState) (r : Ended α) : Alike P (.error .exhausted s) r

/-- Wherever the tokens stand, two parsers do the same (`Ended.Alike`), unless the first one lacks
fuel. -/
def Follows (P : Span → Span → Prop) {α : Type} (p q : Parser α) : Prop :=
  ∀ s s' : ParserState, s.Alike P s' → Ended.Alike P (p s) (q s')

namespace Follows

variable {α β : Type} {p q : Parser α}

theorem pure (a : α) : Follows P (pure a) (pure a) := fun _ _ hs => .ok a hs

theorem bind {f g : α → Parser β} (hp : Follows P p q) (hf : ∀ a, Follows P (f a) (g a)) :
    Follows P (p >>= f) (q >>= g) := by
  intro s s' hs
  -- the second run goes on if and only if the first one does, unless this one lacks fuel
  have hEnds := hp s s' hs
  cases hRun : p s with
  | ok a s₁ =>
    cases hRun' : q s' with
    | ok b s₂ =>
      rw [hRun, hRun'] at hEnds
      rw [bind_of_ok hRun, bind_of_ok hRun']
      cases hEnds with
      | ok _ h => exact hf a s₁ s₂ h
    | error stop s₂ =>
      rw [hRun, hRun'] at hEnds
      cases hEnds
  | error stop s₁ =>
    rw [bind_of_error hRun]
    rw [hRun] at hEnds
    generalize hRun' : q s' = r at hEnds
    cases hEnds with
    | error hStop h =>
      rw [bind_of_error hRun']
      exact .error hStop h
    | exhausted => exact .exhausted s₁ _

/-- What is opened in front of both parsers and closed behind them makes no difference, if it keeps
states `Alike`. -/
theorem inside {enter leave : ParserState → ParserState} (hp : Follows P p q)
    (hEnter : ∀ s s', s.Alike P s' → (enter s).Alike P (enter s'))
    (hLeave : ∀ s s', s.Alike P s' → (leave s).Alike P (leave s')) :
    Follows P (Parser.inside enter leave p) (Parser.inside enter leave q) := by
  intro s s' hs
  unfold Parser.inside
  have hEnds := hp _ _ (hEnter s s' hs)
  generalize p (enter s) = r at hEnds
  generalize q (enter s') = r' at hEnds
  cases hEnds with
  | ok a h => exact .ok a (hLeave _ _ h)
  | error hStop h => exact .error hStop (hLeave _ _ h)
  | exhausted => exact .exhausted _ _

theorem failAt {span span' : Span} (h : P span span') (error : CompileError) :
    Follows P (failAt span error : Parser α) (failAt span' error) :=
  fun _ _ hs => .error (.error error h) hs

/-- The token that has been read last is blamed, which stands in places that correspond:
`ParserState.last`. -/
theorem fail (error : GrammarError) : Follows P (fail error : Parser α) (fail error) :=
  fun _ _ hs => .error (.error (.grammatical error) hs.last) hs

end Follows

/-! ## Tokens -/

/-- What is next in states that are alike: nothing, a failure of the lexer, or a token. -/
theorem ParserState.Alike.next_cases {s s' : ParserState} (h : s.Alike P s') :
    (s.rest = [] ∧ s'.rest = [] ∧ s.ending = none ∧ s'.ending = none) ∨
    (s.rest = [] ∧ s'.rest = [] ∧ ∃ error span span', P span span' ∧
      s.ending = some ⟨error, span⟩ ∧ s'.ending = some ⟨error, span'⟩) ∨
    ∃ token span span' rest rest', P span span' ∧ s.rest = ⟨token, span⟩ :: rest ∧
      s'.rest = ⟨token, span'⟩ :: rest' ∧ List.Forall₂ (Located.Alike P) rest rest' := by
  have hRest := h.rest
  have hEnding := h.ending
  obtain ⟨rest, ending, last, scope, used, loops, met, log⟩ := s
  obtain ⟨rest', ending', last', scope', used', loops', met', log'⟩ := s'
  dsimp only at hRest hEnding
  cases hRest with
  | nil =>
    cases hEnding with
    | none => exact .inl ⟨rfl, rfl, rfl, rfl⟩
    | @some failure failure' hFailure =>
      obtain ⟨error, span⟩ := failure
      obtain ⟨error', span'⟩ := failure'
      obtain rfl : error = error' := hFailure.value
      exact .inr (.inl ⟨rfl, rfl, error, span, span', hFailure.span, rfl, rfl⟩)
  | @cons t t' rest rest' hToken hMore =>
    obtain ⟨token, span⟩ := t
    obtain ⟨token', span'⟩ := t'
    obtain rfl : token = token' := hToken.value
    exact .inr (.inr ⟨token, span, span', rest, rest', hToken.span, rfl, rfl, hMore⟩)

namespace Follows

variable {α : Type}

theorem peek : Follows P peek peek := by
  intro s s' hs
  have hNext := hs.next_cases
  obtain ⟨rest, ending, last, scope, used, loops, met, log⟩ := s
  obtain ⟨rest', ending', last', scope', used', loops', met', log'⟩ := s'
  rcases hNext with ⟨rfl, rfl, rfl, rfl⟩ | ⟨rfl, rfl, error, span, span', hSpan, rfl, rfl⟩ |
    ⟨token, span, span', rest, rest', hSpan, rfl, rfl, -⟩
  · exact .ok none hs
  · exact .error (.error (.lexical error) hSpan) hs
  · exact .ok (some token) hs

/-- The parser goes on with the token that it has read, or refuses it, which it does in both places.
-/
theorem next {f g : Located Token → Parser α}
    (h : ∀ token span span', P span span' → Follows P (f ⟨token, span⟩) (g ⟨token, span'⟩) ∨
      ∃ error : GrammarError, error.found? = some token ∧ f ⟨token, span⟩ = Parser.fail error ∧
        g ⟨token, span'⟩ = Parser.fail error) :
    Follows P (next >>= f) (next >>= g) := by
  intro s s' hs
  have hNext := hs.next_cases
  obtain ⟨rest, ending, last, scope, used, loops, met, log⟩ := s
  obtain ⟨rest', ending', last', scope', used', loops', met', log'⟩ := s'
  rcases hNext with ⟨rfl, rfl, rfl, rfl⟩ | ⟨rfl, rfl, error, span, span', hSpan, rfl, rfl⟩ |
    ⟨token, span, span', rest, rest', hSpan, rfl, rfl, hMore⟩
  · exact .error (.error (.grammatical .unexpectedEnd) hs.last) hs
  · exact .error (.error (.lexical error) hSpan) hs
  · have hRest : Follows P (f ⟨token, span⟩) (g ⟨token, span'⟩) := by
      rcases h token span span' hSpan with hRest | ⟨error, -, hFail, hFail'⟩
      · exact hRest
      · rw [hFail, hFail']
        exact .fail error
    exact hRest _ _ { hs with rest := hMore, last := hSpan }

theorem expect (token : Token) {f g : Span → Parser α}
    (h : ∀ span span', P span span' → Follows P (f span) (g span')) :
    Follows P (expect token >>= f) (expect token >>= g) := by
  -- the function that expects a token reads it and then compares
  have hRead : Follows P (expectNext token >>= f) (expectNext token >>= g) := by
    rw [expectNext, bind_assoc, bind_assoc]
    refine next fun found span span' hSpan => ?_
    dsimp only
    split
    · exact .inl (h span span' hSpan)
    · exact .inr ⟨_, rfl, rfl, rfl⟩
  intro s s' hs
  have hSame := hRead s s' hs
  have hNext := hs.next_cases
  obtain ⟨rest, ending, last, scope, used, loops, met, log⟩ := s
  obtain ⟨rest', ending', last', scope', used', loops', met', log'⟩ := s'
  -- where no token is left another error is reported
  rcases hNext with ⟨rfl, rfl, rfl, rfl⟩ | ⟨rfl, rfl, error, span, span', hSpan, rfl, rfl⟩ |
    ⟨found, span, span', rest, rest', -, rfl, rfl, -⟩
  · exact .error (.error (.grammatical (.missingToken token)) hs.last) hs
  · exact .error (.error (.lexical error) hSpan) hs
  · exact hSame

/-! ## All functions -/

theorem declare (name : String) (type : Ty) {span span' : Span} (h : P span span') :
    Follows P (declare name type span) (declare name type span') := by
  intro s s' hs
  -- what decides, the storage in use and the block, is the same on both sides
  by_cases hLarge : maxWidth < s.used + type.width
  · rw [declare_of_large hLarge, declare_of_large (hs.used ▸ hLarge)]
    exact .error (.error (.semantic (.tooLarge name)) h) hs
  · have hFits := hLarge
    rw [hs.used] at hFits
    cases hScope : s.scope.declare? ⟨name, type, s.used⟩ with
    | none =>
      have hScope' := hScope
      rw [hs.scope, hs.used] at hScope'
      rw [declare_of_known hLarge hScope, declare_of_known hFits hScope']
      exact .error (.error (.semantic (.redeclared name)) h) hs
    | some scope =>
      have hScope' := hScope
      rw [hs.scope, hs.used] at hScope'
      rw [declare_of_new hLarge hScope, declare_of_new hFits hScope']
      refine .ok () { hs with scope := rfl, used := ?_, log := ?_ }
      · exact congrArg (· + type.width) hs.used
      · show _ :: s.log = _ :: s'.log
        rw [hs.log, hs.used]

theorem newExit : Follows P newExit newExit := by
  intro s s' hs
  show Ended.Alike P (.ok (LoopExit.mk s.met) { s with met := s.met + 1 })
    (.ok (LoopExit.mk s'.met) { s' with met := s'.met + 1 })
  rw [hs.met]
  exact .ok _ { hs with met := rfl }

end Follows

theorem ParserState.Alike.enterScope {s s' : ParserState} (h : s.Alike P s') :
    (enterScope s).Alike P (enterScope s') := by
  unfold Parser.enterScope
  exact { h with
    scope := congrArg Scope.enter h.scope
    log := by dsimp only; rw [h.scope, h.log] }

theorem ParserState.Alike.leaveScope {s s' : ParserState} (h : s.Alike P s') :
    (leaveScope s).Alike P (leaveScope s') := by
  unfold Parser.leaveScope
  exact { h with
    scope := congrArg Scope.leave h.scope
    log := by dsimp only; rw [h.scope, h.log] }

theorem ParserState.Alike.enterLoop {s s' : ParserState} (h : s.Alike P s') (exit : LoopExit) :
    (enterLoop exit s).Alike P (enterLoop exit s') := by
  unfold Parser.enterLoop
  exact { h with
    loops := congrArg (exit :: ·) h.loops
    log := by dsimp only; rw [h.loops, h.log] }

theorem ParserState.Alike.leaveLoop {s s' : ParserState} (h : s.Alike P s') :
    (leaveLoop s).Alike P (leaveLoop s') := by
  unfold Parser.leaveLoop
  exact { h with
    loops := congrArg List.tail h.loops
    log := by dsimp only; rw [h.loops, h.log] }

/-- **No function of the parser depends on where its tokens stand**: `Follows` is `Closed` under the
ways in which parsers are built. -/
theorem follows_closed : Closed P (Follows P) (Follows P) where
  exhausted _ _ s _ _ := .exhausted s _
  pure := .pure
  bind := .bind
  context f g h s s' hs := by
    show Ended.Alike P (f s.scope s.used s.loops s) (g s'.scope s'.used s'.loops s')
    rw [← hs.scope, ← hs.used, ← hs.loops]
    exact h s.scope s.used s.loops s s' hs
  semantic h error := .failAt h (.semantic error)
  repeated h text := .failAt h (.grammatical (.duplicateDims text))
  peek := .peek
  next := .next
  expect token _ _ h := .expect token h
  newExit := .newExit
  inLoop exit h := h.inside (fun _ _ hs => hs.enterLoop exit) fun _ _ hs => hs.leaveLoop
  inScope h := h.inside (fun _ _ hs => hs.enterScope) fun _ _ hs => hs.leaveScope
  widen h := h
  declare name type _ _ h := .declare name type h
  bindDeclaring := .bind
  nextDeclaring := .next

/-! ## Programs -/

/-- The same outcome: the same `Program`, or the same error in places that correspond. -/
inductive Outcome.Alike (P : Span → Span → Prop) :
    Except Stop Program → Except Stop Program → Prop
  | ok (p : Program) : Alike P (.ok p) (.ok p)
  | error (error : CompileError) {span span' : Span} (h : P span span') :
    Alike P (.error (.error ⟨error, span⟩)) (.error (.error ⟨error, span'⟩))

/-- **The same tokens are read in the same way**, wherever they stand: the same program, or the same
error in places that correspond as those of the tokens do, and the same messages. -/
theorem readTokens_alike {tokens tokens' : List (Located Token)}
    {ending ending' : Option (Located LexError)} (hFirst : P .first .first)
    (hTokens : List.Forall₂ (Located.Alike P) tokens tokens')
    (hEnding : Option.Rel (Located.Alike P) ending ending') :
    Outcome.Alike P (readTokens tokens ending).outcome (readTokens tokens' ending').outcome ∧
      (readTokens tokens ending).log = (readTokens tokens' ending').log := by
  have hInitial : (ParserState.initial tokens ending).Alike P (.initial tokens' ending') :=
    ⟨hTokens, hEnding, hFirst, rfl, rfl, rfl, rfl, rfl⟩
  -- the first run has enough fuel, and both have the same
  have hEnds := follows_closed.program (Nat.le_refl (fuelFor tokens.length)) _ _ hInitial
  have hEnough := readTokens_ne_exhausted tokens ending
  unfold readTokens at hEnough ⊢
  rw [← hTokens.length_eq]
  generalize program (fuelFor tokens.length) (.initial tokens ending) = r at hEnds hEnough
  generalize program (fuelFor tokens.length) (.initial tokens' ending') = r' at hEnds
  cases hEnds with
  | ok p h => exact ⟨.ok p, congrArg List.reverse h.log⟩
  | error hStop h =>
    cases hStop with
    | error error hSpan => exact ⟨.error error hSpan, congrArg List.reverse h.log⟩
    | exhausted => exact absurd rfl hEnough
  | exhausted => exact absurd rfl hEnough

end

end JumpCode
