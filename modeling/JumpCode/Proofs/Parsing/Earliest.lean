import JumpCode.Proofs.Parsing.Lookahead
import JumpCode.Proofs.Parsing.StmtHalting

/-!
# JumpCode — grammatical errors come as early as they can

A grammatical error strikes at the first token with which no program can go on; what stands behind
this token has no influence. Where an error says that tokens are missing, they can be added.

* `IsSentence`, `BeginsSentence` — the programs of the grammar, and their beginnings;
* `GrammarError.Strikes` — the token at which an error strikes, and where it is reported;
* `StopsWithin.begins` — what the parser has read when it halts can be completed;
* `grammatical_earliest` — the errors of the grammar.
-/

namespace JumpCode

open JumpCode.Parser

/-- These tokens are a program of the grammar: those of some derivation of a block, whether it obeys
the rules or not. -/
def IsSentence (ts : List Token) : Prop := ∃ d : Clause .block, d.tokens = ts

/-- With these tokens a program of the grammar may begin: they can be completed to one that
`IsSentence`. -/
def BeginsSentence (ts : List Token) : Prop := ∃ more, IsSentence (ts ++ more)

/-- At which token behind others an error strikes, and where it is reported: it names the token
(`GrammarError.found?`) and is reported there; dimensions on both sides of a name strike at the
bracket behind the name and are reported at the name. -/
inductive GrammarError.Strikes :
    GrammarError → List (Located Token) → Located Token → Span → Prop
  | found {error : GrammarError} {before : List (Located Token)} {t : Located Token}
      (hFound : error.found? = some t.value) : Strikes error before t t.span
  | repeated {text : String} {span : Span} {before : List (Located Token)} {t : Located Token}
      (hBracket : t.value = .mark .openSquare) :
      Strikes (.duplicateDims text) (before ++ [⟨.name text, span⟩]) t span

/-- All errors but those about dimensions name the token at which they strike. -/
theorem GrammarError.Strikes.found?_eq {error : GrammarError} {before : List (Located Token)}
    {t : Located Token} {span : Span} (h : error.Strikes before t span)
    (hOther : ∀ text, error ≠ .duplicateDims text) : error.found? = some t.value := by
  cases h with
  | found hFound => exact hFound
  | repeated => exact absurd rfl (hOther _)

/-- An error that says that tokens are missing names none. -/
theorem GrammarError.IsEnd.found?_eq_none {error : GrammarError} (h : error.IsEnd) :
    error.found? = none := by
  cases h <;> rfl

section

variable {tokens before : List (Located Token)} {t : Located Token} {error : GrammarError}
  {span : Span}

/-- A program of the grammar may break rules, but there is no grammatical error in it: the parser
reads on to the end, or stops for a rule. -/
theorem not_grammatical_of_sentence (h : IsSentence (tokens.map (·.value))) :
    (readTokens tokens none).outcome ≠ .error (.error ⟨.grammatical error, span⟩) := by
  intro hError
  obtain ⟨d, hTokens⟩ := h
  -- the same tokens have a derivation that the parser follows, and it denies none of it but for
  -- rules
  obtain ⟨y, hSame, hNearest, -⟩ := d.exists_nearest
  rcases outcome_of_yields (program_accepts (hSame.trans hTokens) hNearest) with
    ⟨p, hOk, -⟩ | ⟨stop, hStop, hDenies⟩
  · cases hOk.symm.trans hError
  · cases hStop.symm.trans hError
    rcases hDenies with hExhausted | ⟨⟨_, _, hSemantic⟩, -⟩
    · cases hExhausted
    · cases hSemantic

/-- No program begins with tokens behind which there is always a grammatical error. -/
theorem not_begins_of_outcome
    (h : ∀ after, (readTokens (before ++ t :: after) none).outcome =
      .error (.error ⟨.grammatical error, span⟩)) :
    ¬ BeginsSentence ((before ++ [t]).map (·.value)) := by
  rintro ⟨more, hSentence⟩
  -- the rest of a program can be given any places
  let after : List (Located Token) := more.map (⟨·, .first⟩)
  have hValues : after.map (·.value) = more := by simp [after, Function.comp_def]
  refine not_grammatical_of_sentence ?_ (h after)
  rw [← hValues] at hSentence
  simpa using hSentence

/-- What has been read when the parser halts can be completed to a program (`Clause.Leads.begins`).
-/
theorem Clause.Leads.beginsSentence {p : Place} {ts us : List Token} {ds : List Decl}
    (h : Clause.Leads .block p ts ds) (hBegins : p.Begins us) : BeginsSentence (ts ++ us) := by
  obtain ⟨x, more, hTokens⟩ := h.begins hBegins
  exact ⟨more, x, hTokens⟩

/-- Where the parser ends in front of what follows a token, this does not matter, and no program
begins with the tokens up to this one: any continuation would lead to the same error. -/
theorem struck {after : List (Located Token)} {ending : Option (Located LexError)}
    {s' : ParserState} (hTokens : tokens = before ++ t :: after)
    (hRun : program (fuelFor tokens.length) (.initial tokens ending) =
      .error (.error ⟨.grammatical error, span⟩) s')
    (hEnd : after.length < s'.rest.length ∨
      (Stop.error ⟨.grammatical error, span⟩).IsFound ∧ after.length ≤ s'.rest.length) :
    ¬ BeginsSentence ((before ++ [t]).map (·.value)) ∧
      ∀ after' ending, (readTokens (before ++ t :: after') ending).outcome =
        .error (.error ⟨.grammatical error, span⟩) := by
  have hSplit (rest : List (Located Token)) : before ++ t :: rest = (before ++ [t]) ++ rest := by
    simp
  rw [hTokens, hSplit] at hRun
  have hSame (after' : List (Located Token)) (ending : Option (Located LexError)) :
      (readTokens (before ++ t :: after') ending).outcome =
        .error (.error ⟨.grammatical error, span⟩) := by
    rw [hSplit]
    exact outcome_of_beginning hRun hEnd after' ending
  exact ⟨not_begins_of_outcome fun after' => hSame after' none, hSame⟩

/-- If the parser ends in front of a bracket, behind a name, then it is this bracket that no program
goes on with. -/
theorem struck_repeated {ending : Option (Located LexError)} {name : Located Token}
    {s' : ParserState} (hTokens : tokens = before ++ name :: s'.rest)
    (hNext : s'.tokens.head? = some (.mark .openSquare))
    (hRun : program (fuelFor tokens.length) (.initial tokens ending) =
      .error (.error ⟨.grammatical error, span⟩) s') :
    ∃ t after, tokens = (before ++ [name]) ++ t :: after ∧ t.value = .mark .openSquare ∧
      ¬ BeginsSentence ((before ++ [name] ++ [t]).map (·.value)) ∧
      ∀ after' ending, (readTokens (before ++ [name] ++ t :: after') ending).outcome =
        .error (.error ⟨.grammatical error, span⟩) := by
  obtain ⟨t, after, hBehind⟩ : ∃ t after, s'.rest = t :: after := by
    cases hAfter : s'.rest with
    | nil => simp [ParserState.tokens, hAfter] at hNext
    | cons t after => exact ⟨t, after, rfl⟩
  have hSplit : tokens = (before ++ [name]) ++ t :: after := by
    rw [hTokens, hBehind]
    simp
  have hLonger : after.length < s'.rest.length := by
    rw [hBehind]
    exact Nat.lt_succ_self _
  refine ⟨t, after, hSplit, ?_, struck hSplit hRun (.inl hLonger)⟩
  simpa [ParserState.tokens, hBehind] using hNext

/-- Where tokens are missing, more can follow; and the error is reported at the last token. -/
theorem missing_at_end (hEnd : error.IsEnd) (hBegins : BeginsSentence (tokens.map (·.value)))
    (h : (readTokens tokens none).outcome = .error (.error ⟨.grammatical error, span⟩)) :
    (∃ more, more ≠ [] ∧ IsSentence (tokens.map (·.value) ++ more)) ∧
      span = lastTokenSpan tokens := by
  refine ⟨?_, ?_⟩
  · obtain ⟨more, hSentence⟩ := hBegins
    refine ⟨more, ?_, hSentence⟩
    -- if nothing followed, the tokens would be a program already
    rintro rfl
    rw [List.append_nil] at hSentence
    exact not_grammatical_of_sentence hSentence h
  · cases blamed_of_read h with
    | token _ hAbout => cases hEnd <;> cases hAbout
    | missing => rfl

/-- **Grammatical errors come as early as they can.** If an error says that tokens are missing, the
tokens are the beginning of a program, in which more follow, and the error is reported at the last
token, or at the start if there is none. Otherwise it strikes at a token: those in front of it are
the beginning of a program, those up to it are not, and whatever follows it, also if the lexer fails
there, the error is the same and is reported at the same place. -/
theorem grammatical_earliest
    (h : (readTokens tokens none).outcome = .error (.error ⟨.grammatical error, span⟩)) :
    (error.IsEnd → (∃ more, more ≠ [] ∧ IsSentence (tokens.map (·.value) ++ more)) ∧
      span = lastTokenSpan tokens) ∧
    (¬ error.IsEnd → ∃ before t after, tokens = before ++ t :: after ∧
      error.Strikes before t span ∧ BeginsSentence (before.map (·.value)) ∧
      ¬ BeginsSentence ((before ++ [t]).map (·.value)) ∧
      ∀ after' ending, (readTokens (before ++ t :: after') ending).outcome =
        .error (.error ⟨.grammatical error, span⟩)) := by
  obtain ⟨s', hRun⟩ := run_of_outcome h
  obtain ⟨hLeads, hCourse, hStops⟩ := (program_stops _ _).of_error hRun
  obtain ⟨located, hTokens, rfl⟩ := hCourse.read
  -- what has been read is complete so far, and the way in which the parser stops tells the token
  -- that it strikes at
  have hTokens : tokens = located ++ _ := hTokens
  cases hStops with
  | refused hRefused =>
    -- a rule that is broken is no error of the grammar
    obtain ⟨_, _, -, -, hStop⟩ := hRefused.read
    cases hStop
  | halt hHalt =>
    cases hHalt with
    | @found read t error' _ hRest hBegins hFound _ =>
      refine ⟨fun hEnd => ?_, fun _ => ?_⟩
      · cases hEnd.found?_eq_none.symm.trans hFound
      · rw [hRest, ← List.append_assoc] at hTokens
        have hBefore := hLeads.beginsSentence hBegins
        rw [← List.map_append] at hBefore
        exact ⟨located ++ read, t, s'.rest, hTokens, .found hFound, hBefore,
          struck hTokens hRun (.inr ⟨⟨error, t.value, t.span, hFound, rfl⟩, Nat.le_refl _⟩)⟩
    | @repeated read text _ _ hRest hNext hBegins _ =>
      refine ⟨nofun, fun _ => ?_⟩
      rw [hRest, ← List.append_assoc] at hTokens
      obtain ⟨t, after, hSplit, hBracket, hStruck⟩ := struck_repeated hTokens hNext hRun
      have hBefore := hLeads.beginsSentence hBegins
      exact ⟨_, t, after, hSplit, .repeated hBracket, by simpa using hBefore, hStruck⟩
    | atEnd hEnd hRest hBegins _ =>
      rw [hCourse.ending] at hEnd
      obtain ⟨error', span', hIsEnd, hStop⟩ := hEnd
      cases hStop
      refine ⟨fun _ => missing_at_end hIsEnd ?_ h, fun hNot => absurd hIsEnd hNot⟩
      have hBefore := hLeads.beginsSentence hBegins
      rwa [ParserState.tokens, ← List.map_append, ← hTokens] at hBefore

end

/-- A block that is open, and a parenthesis that stands in it. -/
def strayParen : List (Located Token) :=
  [⟨.mark .openCurly, ⟨⟨1, 1⟩, ⟨1, 2⟩⟩⟩, ⟨.mark .closeParen, ⟨⟨1, 3⟩, ⟨1, 4⟩⟩⟩]

/-- A block that is open can be closed. The parenthesis is refused, and whatever follows it is not
looked at. -/
theorem grammatical_earliest_sample :
    (∃ more, more ≠ [] ∧ IsSentence (.mark .openCurly :: more)) ∧
    BeginsSentence [.mark .openCurly] ∧
    ¬ BeginsSentence [.mark .openCurly, .mark .closeParen] ∧
    ∀ after ending, (readTokens (strayParen ++ after) ending).outcome =
      .error (.error ⟨.grammatical (.expectedName (.mark .closeParen)), ⟨⟨1, 3⟩, ⟨1, 4⟩⟩⟩) := by
  have hOpen : (readTokens [strayParen.head (by decide)] none).outcome =
      .error (.error ⟨.grammatical (.missingToken (.mark .closeCurly)), ⟨⟨1, 1⟩, ⟨1, 2⟩⟩⟩) :=
    Reading.outcome_of_failure? (by decide +kernel)
  have hStray : (readTokens strayParen none).outcome =
      .error (.error ⟨.grammatical (.expectedName (.mark .closeParen)), ⟨⟨1, 3⟩, ⟨1, 4⟩⟩⟩) :=
    Reading.outcome_of_failure? (by decide +kernel)
  obtain ⟨hMissing, -⟩ := (grammatical_earliest hOpen).1 (.missingToken _)
  refine ⟨hMissing, ?_⟩
  obtain ⟨before, t, after, hTokens, hStrikes, hBegins, hNot, hSame⟩ :=
    (grammatical_earliest hStray).2 nofun
  have hValue : t.value = .mark .closeParen :=
    (Option.some.inj (hStrikes.found?_eq fun text => nofun)).symm
  rcases before with _ | ⟨t₀, _ | ⟨t₁, before⟩⟩
  · obtain ⟨rfl, -⟩ := List.cons.inj hTokens
    cases hValue
  · obtain ⟨hFirst, hRest⟩ := List.cons.inj hTokens
    obtain ⟨hSecond, -⟩ := List.cons.inj hRest
    have hStart : strayParen = [t₀, t] := by rw [← hFirst, ← hSecond, strayParen]
    rw [hStart]
    rw [← hFirst] at hBegins
    rw [← hFirst, ← hSecond] at hNot
    exact ⟨hBegins, hNot, hSame⟩
  · simp [strayParen] at hTokens

end JumpCode
