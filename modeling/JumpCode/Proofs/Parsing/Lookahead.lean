import JumpCode.Proofs.Parsing.Language
import JumpCode.Proofs.Parsing.Readers

/-!
# JumpCode — how far the parser looks ahead

The parser sees one token more than it has read, and where it refuses a token it does so right after
it has read it. So whatever stands behind does not matter: another text with the same beginning is
read in the same way up to there. More fuel does not matter either.

* `Stop.IsFound` — errors that name the token that has just been read;
* `Local` — a parser that ends in front of some tokens would do the same in front of any others;
* `Agrees` — with more fuel a parser does the same;
* `local_closed`, `agrees_closed` — both hold of all functions of the parser;
* `outcome_of_beginning` — programs that begin in the same way fail in the same way.
-/

namespace JumpCode

open JumpCode.Parser

/-! ## Where a run ends -/

/-- The parser stops because of the token that it has just read, which the error names
(`GrammarError.found?`). -/
def Stop.IsFound (stop : Stop) : Prop :=
  ∃ (error : GrammarError) (token : Token) (span : Span),
    error.found? = some token ∧ stop = .error ⟨.grammatical error, span⟩

/-- The state with these tokens behind those to come, and with this failure of the lexer behind
them. -/
def ParserState.onto (s : ParserState) (tokens : List (Located Token))
    (ending : Option (Located LexError)) : ParserState :=
  { s with rest := s.rest ++ tokens, ending := ending }

/-- How the run of a `Parser` ends: with a value or a reason to stop, and a state. -/
abbrev Ended (α : Type) : Type := EStateM.Result Stop ParserState α

namespace Ended

variable {α : Type}

/-- The same end with these tokens behind (`ParserState.onto`). -/
def onto (r : Ended α) (tokens : List (Located Token)) (ending : Option (Located LexError)) :
    Ended α :=
  match r with
  | .ok a s => .ok a (s.onto tokens ending)
  | .error stop s => .error stop (s.onto tokens ending)

/-- A run ends in front of the last so many tokens. The one before them is still to come, or it has
just been refused. -/
def InFront (n : Nat) (r : Ended α) : Prop :=
  match r with
  | .ok _ s => n < s.rest.length
  | .error stop s => n < s.rest.length ∨ stop.IsFound ∧ n ≤ s.rest.length

/-- Where no token has been refused, the one before is still to come. -/
theorem InFront.of_error {n : Nat} {stop : Stop} {s : ParserState}
    (h : InFront n (.error stop s : Ended α)) (hNot : ¬ stop.IsFound) : n < s.rest.length :=
  h.resolve_right fun hFound => hNot hFound.1

end Ended

theorem not_found_lexical (error : LexError) (span : Span) :
    ¬ (Stop.error ⟨.lexical error, span⟩).IsFound := by
  rintro ⟨_, _, _, -, h⟩
  cases h

theorem not_found_semantic (error : SemanticError) (span : Span) :
    ¬ (Stop.error ⟨.semantic error, span⟩).IsFound := by
  rintro ⟨_, _, _, -, h⟩
  cases h

theorem not_found_exhausted : ¬ Stop.exhausted.IsFound := by
  rintro ⟨_, _, _, -, h⟩
  cases h

theorem not_found_of_none {error : GrammarError} (hNone : error.found? = none) (span : Span) :
    ¬ (Stop.error ⟨.grammatical error, span⟩).IsFound := by
  rintro ⟨_, token, _, hFound, h⟩
  cases h
  cases hNone.symm.trans hFound

/-! ## What stands behind -/

/-- A parser that ends in front of some tokens has started in front of them, and it does the same in
front of any other tokens, and with any failure of the lexer behind them. -/
structure Local {α : Type} (p _q : Parser α) : Prop where
  starts : ∀ (s : ParserState) (n : Nat), Ended.InFront n (p s) → n < s.rest.length
  ignores : ∀ (s : ParserState) (tokens : List (Located Token))
    (ending : Option (Located LexError)),
    Ended.InFront tokens.length (p (s.onto tokens ending)) →
    ∃ r : Ended α, ∀ tokens' ending', p (s.onto tokens' ending') = r.onto tokens' ending'

theorem get_bind {α : Type} {s : ParserState} (f : ParserState → Parser α) :
    (get >>= f) s = f s s := rfl

section Declare

variable {name : String} {type : Ty} {span : Span} {s : ParserState}

theorem declare_of_large (h : maxWidth < s.used + type.width) :
    declare name type span s = .error (.error ⟨.semantic (.tooLarge name), span⟩) s := by
  rw [declare, get_bind]
  dsimp only
  rw [if_pos h]
  rfl

theorem declare_of_known (hFits : ¬ maxWidth < s.used + type.width)
    (h : s.scope.declare? ⟨name, type, s.used⟩ = none) :
    declare name type span s = .error (.error ⟨.semantic (.redeclared name), span⟩) s := by
  rw [declare, get_bind]
  dsimp only
  rw [if_neg hFits, h]
  rfl

theorem declare_of_new {scope : Scope} (hFits : ¬ maxWidth < s.used + type.width)
    (h : s.scope.declare? ⟨name, type, s.used⟩ = some scope) :
    declare name type span s = .ok () { s with
      scope := scope
      used := s.used + type.width
      log := .declared ⟨name, type, s.used⟩ :: s.log } := by
  rw [declare, get_bind]
  dsimp only
  rw [if_neg hFits, h]
  rfl

end Declare

/-- Reading a token where there is one: the expected one, or it is refused. `expect` does this if a
token is left. -/
def Parser.expectNext (token : Token) : Parser Span := do
  let found ← next
  if found.value = token then return found.span
  else fail (.unexpectedToken token found.value)

namespace Local

variable {α β : Type} {p q : Parser α} {f g : α → Parser β}

theorem pure (a : α) : Local (pure a : Parser α) (pure a) :=
  ⟨fun _ _ h => h, fun s _ _ _ => ⟨.ok a s, fun _ _ => rfl⟩⟩

/-- A parser that stops without a look at the tokens. -/
theorem stop {stop : Stop} (hNot : ¬ stop.IsFound) : Local (throw stop : Parser α) q :=
  ⟨fun _ _ h => h.of_error hNot, fun s _ _ _ => ⟨.error stop s, fun _ _ => rfl⟩⟩

theorem bind (hp : Local p q) (hf : ∀ a, Local (f a) (g a)) : Local (p >>= f) (q >>= g) := by
  refine ⟨fun s n h => ?_, fun s tokens ending h => ?_⟩
  · -- tokens are only ever read off, so the first part has not started behind the second
    cases hRun : p s with
    | ok a s₁ =>
      rw [bind_of_ok hRun] at h
      have hMid := (hf a).starts s₁ n h
      refine hp.starts s n ?_
      rwa [hRun]
    | error stop s₁ =>
      rw [bind_of_error hRun] at h
      refine hp.starts s n ?_
      rwa [hRun]
  · cases hRun : p (s.onto tokens ending) with
    | ok a s₁ =>
      rw [bind_of_ok hRun] at h
      -- the first part ends in front of the tokens as well
      have hMid : Ended.InFront tokens.length (p (s.onto tokens ending)) := by
        rw [hRun]
        exact (hf a).starts s₁ _ h
      obtain ⟨r, hSame⟩ := hp.ignores s tokens ending hMid
      have hr := hRun.symm.trans (hSame tokens ending)
      cases r with
      | error stop s₂ => cases hr
      | ok b s₂ =>
        cases hr
        obtain ⟨r, hNext⟩ := (hf a).ignores s₂ tokens ending h
        exact ⟨r, fun tokens' ending' => (bind_of_ok (hSame tokens' ending')).trans
          (hNext tokens' ending')⟩
    | error stop s₁ =>
      rw [bind_of_error hRun] at h
      have hMid : Ended.InFront tokens.length (p (s.onto tokens ending)) := by rwa [hRun]
      obtain ⟨r, hSame⟩ := hp.ignores s tokens ending hMid
      have hr := hRun.symm.trans (hSame tokens ending)
      cases r with
      | ok b s₂ => cases hr
      | error stop' s₂ =>
        cases hr
        exact ⟨.error stop s₂, fun tokens' ending' => bind_of_error (hSame tokens' ending')⟩

/-- A parser that has started in front of the tokens behind has a token of its own to start with. -/
theorem of_starts
    (hStarts : ∀ (s : ParserState) (n : Nat), Ended.InFront n (p s) → n < s.rest.length)
    (hIgnores : ∀ (t : Located Token) (rest : List (Located Token)) (s : ParserState),
      s.rest = t :: rest → ∀ (tokens : List (Located Token)) (ending : Option (Located LexError)),
        Ended.InFront tokens.length (p (s.onto tokens ending)) →
        ∃ r : Ended α, ∀ tokens' ending', p (s.onto tokens' ending') = r.onto tokens' ending') :
    Local p q := by
  refine ⟨hStarts, fun s tokens ending hEnd => ?_⟩
  cases hRest : s.rest with
  | cons t rest => exact hIgnores t rest s hRest tokens ending hEnd
  | nil =>
    -- otherwise the run would have to start behind the place where it ends
    have hLength : tokens.length < (s.rest ++ tokens).length := hStarts _ _ hEnd
    rw [hRest] at hLength
    exact absurd hLength (Nat.lt_irrefl _)

/-- The parser goes on with the token that it has read, or refuses it. -/
theorem next {f g : Located Token → Parser α}
    (h : ∀ found, Local (f found) (g found) ∨
      ∃ error : GrammarError, error.found? = some found.value ∧ f found = fail error ∧
        g found = fail error) : Local (next >>= f) (next >>= g) := by
  -- behind the token that has been read the run can end only in front of what follows it
  have hRest (t : Located Token) (s : ParserState) (n : Nat)
      (hEnd : Ended.InFront n (f t s)) : n ≤ s.rest.length := by
    rcases h t with hf | ⟨error, -, hFail, -⟩
    · exact Nat.le_of_lt (hf.starts s n hEnd)
    · rw [hFail] at hEnd
      exact hEnd.elim Nat.le_of_lt And.right
  refine of_starts (fun s n hEnd => ?_) fun t rest s hCons tokens ending hEnd => ?_
  · obtain ⟨rest, ending, last, scope, used, loops, met, log⟩ := s
    cases rest with
    | cons t rest => exact Nat.lt_succ_of_le (hRest t _ n hEnd)
    | nil =>
      cases ending with
      | none => exact hEnd.of_error (not_found_of_none rfl _)
      | some failure => exact hEnd.of_error (not_found_lexical _ _)
  · obtain ⟨_, ending₀, last, scope, used, loops, met, log⟩ := s
    cases hCons
    rcases h t with hf | ⟨error, -, hFail, -⟩
    · exact hf.ignores ⟨rest, ending₀, t.span, scope, used, loops, met, log⟩ tokens ending hEnd
    · -- the refusal names the token, and reads nothing more
      refine ⟨.error (.error ⟨.grammatical error, t.span⟩)
        ⟨rest, ending₀, t.span, scope, used, loops, met, log⟩, fun tokens' ending' => ?_⟩
      show f t _ = _
      rw [hFail]
      rfl

theorem peek : Local peek peek := by
  refine of_starts (fun s n hEnd => ?_) fun t rest s hCons tokens ending _ => ?_
  · obtain ⟨rest, ending, last, scope, used, loops, met, log⟩ := s
    cases rest with
    | cons t rest => exact hEnd
    | nil =>
      cases ending with
      | none => exact hEnd
      | some failure => exact hEnd.of_error (not_found_lexical _ _)
  · obtain ⟨_, ending₀, last, scope, used, loops, met, log⟩ := s
    cases hCons
    exact ⟨.ok (some t.value) ⟨t :: rest, ending₀, last, scope, used, loops, met, log⟩,
      fun _ _ => rfl⟩

theorem expect (token : Token) : Local (expect token) (expect token) := by
  have hRead : Local (expectNext token) (expectNext token) := by
    refine next fun found => ?_
    split
    · exact .inl (pure _)
    · exact .inr ⟨_, rfl, rfl, rfl⟩
  -- where no token is left another error is reported, which names no token either
  refine of_starts (fun s n hEnd => ?_) fun t rest s hCons tokens ending hEnd => ?_
  · obtain ⟨rest, ending, last, scope, used, loops, met, log⟩ := s
    cases rest with
    | cons t rest => exact hRead.starts _ n hEnd
    | nil =>
      cases ending with
      | none => exact hEnd.of_error (not_found_of_none rfl _)
      | some failure => exact hRead.starts _ n hEnd
  · obtain ⟨_, ending₀, last, scope, used, loops, met, log⟩ := s
    cases hCons
    exact hRead.ignores ⟨t :: rest, ending₀, last, scope, used, loops, met, log⟩ tokens ending hEnd

/-- What is opened in front of a parser and closed behind it does not touch the tokens. -/
theorem inside (enter leave : ParserState → ParserState) (hp : Local p q)
    (hEnter : ∀ s, (enter s).rest = s.rest) (hLeave : ∀ s, (leave s).rest = s.rest)
    (hEnterOnto : ∀ s tokens ending, enter (s.onto tokens ending) = (enter s).onto tokens ending)
    (hLeaveOnto : ∀ s tokens ending, leave (s.onto tokens ending) = (leave s).onto tokens ending) :
    Local (Parser.inside enter leave p) (Parser.inside enter leave q) := by
  -- closing leaves the tokens alone, so the inner run ends where the whole one does
  have hSame (s : ParserState) (n : Nat)
      (hEnd : Ended.InFront n (Parser.inside enter leave p s)) :
      Ended.InFront n (p (enter s)) := by
    cases hInside : p (enter s) with
    | ok a s' =>
      rw [inside_of_ok hInside] at hEnd
      show n < s'.rest.length
      rw [← hLeave s']
      exact hEnd
    | error stop s' =>
      rw [inside_of_error hInside] at hEnd
      show n < s'.rest.length ∨ stop.IsFound ∧ n ≤ s'.rest.length
      rw [← hLeave s']
      exact hEnd
  refine ⟨fun s n hEnd => hEnter s ▸ hp.starts (enter s) n (hSame s n hEnd), ?_⟩
  intro s tokens ending hEnd
  have hInside := hSame _ _ hEnd
  rw [hEnterOnto] at hInside
  obtain ⟨r, hr⟩ := hp.ignores (enter s) tokens ending hInside
  cases r with
  | ok a s₁ =>
    refine ⟨.ok a (leave s₁), fun tokens' ending' => ?_⟩
    rw [Parser.inside, hEnterOnto, hr]
    exact congrArg _ (hLeaveOnto s₁ tokens' ending')
  | error stop s₁ =>
    refine ⟨.error stop (leave s₁), fun tokens' ending' => ?_⟩
    rw [Parser.inside, hEnterOnto, hr]
    exact congrArg _ (hLeaveOnto s₁ tokens' ending')

theorem declare (name : String) (type : Ty) (span : Span) :
    Local (declare name type span) (declare name type span) := by
  -- storage and scope decide, and they are the same whatever stands behind
  have hRun (s : ParserState) :
      (∃ error, ∀ tokens ending, Parser.declare name type span (s.onto tokens ending) =
        .error (.error ⟨.semantic error, span⟩) (s.onto tokens ending)) ∨
      ∃ s₁ : ParserState, s₁.rest = s.rest ∧ ∀ tokens ending,
        Parser.declare name type span (s.onto tokens ending) = .ok () (s₁.onto tokens ending) := by
    by_cases hLarge : maxWidth < s.used + type.width
    · exact .inl ⟨_, fun _ _ => declare_of_large hLarge⟩
    · cases hScope : s.scope.declare? ⟨name, type, s.used⟩ with
      | none => exact .inl ⟨_, fun _ _ => declare_of_known hLarge hScope⟩
      | some scope => exact .inr ⟨{ s with
          scope := scope
          used := s.used + type.width
          log := .declared ⟨name, type, s.used⟩ :: s.log }, rfl,
          fun _ _ => declare_of_new hLarge hScope⟩
  refine ⟨fun s n hEnd => ?_, fun s tokens ending hEnd => ?_⟩
  · -- a state is itself with nothing behind it
    have hSelf : s.onto [] s.ending = s := by simp [ParserState.onto]
    rcases hRun s with ⟨error, hSame⟩ | ⟨s₁, hRest, hSame⟩
    · rw [← hSelf, hSame, hSelf] at hEnd
      exact hEnd.of_error (not_found_semantic error span)
    · rw [← hSelf, hSame] at hEnd
      have hLength : n < (s₁.rest ++ []).length := hEnd
      rwa [hRest, List.append_nil] at hLength
  · rcases hRun s with ⟨error, hSame⟩ | ⟨s₁, -, hSame⟩
    · exact ⟨.error (.error ⟨.semantic error, span⟩) s, hSame⟩
    · exact ⟨.ok () s₁, hSame⟩

end Local

/-- **No parser looks further ahead**: `Local` is `Closed` under the ways in which parsers are
built. -/
theorem local_closed : Closed Eq Local Local where
  exhausted _ _ := .stop not_found_exhausted
  pure := .pure
  bind := .bind
  context _ _ h := {
    starts := fun s => (h s.scope s.used s.loops).starts s
    ignores := fun s => (h s.scope s.used s.loops).ignores s }
  semantic _ error := .stop (not_found_semantic error _)
  repeated _ _ := .stop (not_found_of_none rfl _)
  peek := .peek
  next h := .next fun found => h found.value found.span found.span rfl
  expect token _ _ h := .bind (.expect token) fun span => h span span rfl
  newExit := ⟨fun _ _ h => h, fun s _ _ _ =>
    ⟨.ok ⟨s.met⟩ { s with met := s.met + 1 }, fun _ _ => rfl⟩⟩
  inLoop exit h := h.inside (enterLoop exit) leaveLoop (fun _ => rfl) (fun _ => rfl)
    (fun _ _ _ => rfl) fun _ _ _ => rfl
  inScope h := h.inside enterScope leaveScope (fun _ => rfl) (fun _ => rfl)
    (fun _ _ _ => rfl) fun _ _ _ => rfl
  widen h := h
  declare name type _ _ h := h ▸ .declare name type _
  bindDeclaring := .bind
  nextDeclaring h := .next fun found => h found.value found.span found.span rfl

/-! ## Fuel -/

/-- The first parser runs out of fuel, or both do the same, from any state. -/
def Agrees {α : Type} (p q : Parser α) : Prop :=
  ∀ s, (∃ s', p s = .error .exhausted s') ∨ p s = q s

theorem Agrees.bind {α β : Type} {p q : Parser α} {f g : α → Parser β} (hp : Agrees p q)
    (hf : ∀ a, Agrees (f a) (g a)) : Agrees (p >>= f) (q >>= g) := by
  intro s
  cases hRun : p s with
  | error stop s₁ =>
    rw [bind_of_error hRun]
    rcases hp s with ⟨s', hExhausted⟩ | hSame
    · -- a first part that lacks fuel does not come to an end
      cases hRun.symm.trans hExhausted
      exact .inl ⟨s₁, rfl⟩
    · exact .inr (bind_of_error (hSame.symm.trans hRun)).symm
  | ok a s₁ =>
    rw [bind_of_ok hRun]
    rcases hp s with ⟨s', hExhausted⟩ | hSame
    · cases hRun.symm.trans hExhausted
    · rw [bind_of_ok (hSame.symm.trans hRun)]
      exact hf a s₁

/-- What is opened in front of both parsers and closed behind them makes no difference. -/
theorem Agrees.inside {α : Type} {p q : Parser α} (enter leave : ParserState → ParserState)
    (hp : Agrees p q) : Agrees (Parser.inside enter leave p) (Parser.inside enter leave q) := by
  intro s
  rcases hp (enter s) with ⟨s', hExhausted⟩ | hSame
  · exact .inl ⟨leave s', inside_of_error hExhausted⟩
  · rw [Parser.inside, Parser.inside, hSame]
    exact .inr rfl

theorem Agrees.refl {α : Type} (p : Parser α) : Agrees p p := fun _ => .inr rfl

theorem Agrees.next {α : Type} {f g : Located Token → Parser α}
    (h : ∀ found, Agrees (f found) (g found) ∨
      ∃ error : GrammarError, error.found? = some found.value ∧ f found = fail error ∧
        g found = fail error) : Agrees (Parser.next >>= f) (Parser.next >>= g) := by
  refine Agrees.bind (.refl Parser.next) fun found => ?_
  rcases h found with hf | ⟨error, -, hFail, hFail'⟩
  · exact hf
  · rw [hFail, hFail']
    exact .refl _

/-- **More fuel makes no difference**, unless there was too little: `Agrees` is `Closed`. -/
theorem agrees_closed : Closed Eq Agrees Agrees where
  exhausted _ _ s := .inl ⟨s, rfl⟩
  pure _ := .refl _
  bind := .bind
  context _ _ h s := h s.scope s.used s.loops s
  semantic h _ := h ▸ .refl _
  repeated h _ := h ▸ .refl _
  peek := .refl _
  next h := .next fun found => h found.value found.span found.span rfl
  expect _ _ _ h := .bind (.refl _) fun span => h span span rfl
  newExit := .refl _
  inLoop exit h := .inside (enterLoop exit) leaveLoop h
  inScope h := .inside enterScope leaveScope h
  widen h := h
  declare _ _ _ _ h := h ▸ .refl _
  bindDeclaring := .bind
  nextDeclaring h := .next fun found => h found.value found.span found.span rfl

/-! ## Programs -/

/-- The run of the parser that comes to an outcome. -/
theorem run_of_outcome {tokens : List (Located Token)} {ending : Option (Located LexError)}
    {stop : Stop} (h : (readTokens tokens ending).outcome = .error stop) :
    ∃ s', program (fuelFor tokens.length) (.initial tokens ending) = .error stop s' := by
  rw [readTokens] at h
  split at h
  · cases h
  · next stop' s' hRun =>
    cases h
    exact ⟨s', hRun⟩

theorem run_of_ok {tokens : List (Located Token)} {ending : Option (Located LexError)}
    {p : Program} (h : (readTokens tokens ending).outcome = .ok p) :
    ∃ s', program (fuelFor tokens.length) (.initial tokens ending) = .ok p s' := by
  rw [readTokens] at h
  split at h
  · next p' s' hRun =>
    cases h
    exact ⟨s', hRun⟩
  · cases h

theorem outcome_of_run {tokens : List (Located Token)} {ending : Option (Located LexError)}
    {stop : Stop} {s' : ParserState}
    (h : program (fuelFor tokens.length) (.initial tokens ending) = .error stop s') :
    (readTokens tokens ending).outcome = .error stop := by
  rw [readTokens, h]

/-- With more fuel than there is a program is read in the same way, since `fuelFor` it is enough. -/
theorem program_of_fuel (tokens : List (Located Token)) (ending : Option (Located LexError))
    {fuel : Nat} (hFuel : fuelFor tokens.length ≤ fuel) :
    program fuel (.initial tokens ending) =
      program (fuelFor tokens.length) (.initial tokens ending) := by
  rcases agrees_closed.program hFuel (.initial tokens ending) with ⟨s', hExhausted⟩ | hSame
  · exact absurd (outcome_of_run hExhausted) (readTokens_ne_exhausted tokens ending)
  · exact hSame.symm

/-- **What fails in front of some tokens fails in front of any others**, with the same error, and
however the lexer ends behind them. -/
theorem outcome_of_beginning {before after : List (Located Token)}
    {ending : Option (Located LexError)} {stop : Stop} {s' : ParserState}
    (hRun : program (fuelFor (before ++ after).length) (.initial (before ++ after) ending) =
      .error stop s')
    (hEnd : after.length < s'.rest.length ∨ stop.IsFound ∧ after.length ≤ s'.rest.length)
    (after' : List (Located Token)) (ending' : Option (Located LexError)) :
    (readTokens (before ++ after') ending').outcome = .error stop := by
  -- with fuel enough for both the runs do the same
  let fuel := max (fuelFor (before ++ after).length) (fuelFor (before ++ after').length)
  have hMore : program fuel (.initial (before ++ after) ending) = .error stop s' :=
    (program_of_fuel _ _ (Nat.le_max_left ..)).trans hRun
  have hLocal := (local_closed.program (Nat.le_refl fuel)).ignores (.initial before none)
  obtain ⟨r, hSame⟩ := hLocal after ending (by
    show Ended.InFront _ (program fuel (.initial (before ++ after) ending))
    rw [hMore]
    exact hEnd)
  have hr := hMore.symm.trans (hSame after ending)
  cases r with
  | ok p s₁ => cases hr
  | error stop' s₁ =>
    cases hr
    have hAgain : program fuel (.initial (before ++ after') ending') =
        .error stop (s₁.onto after' ending') := hSame after' ending'
    exact outcome_of_run ((program_of_fuel _ _ (Nat.le_max_right ..)).symm.trans hAgain)

end JumpCode
