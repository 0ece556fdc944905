import JumpCode.Program
import JumpCode.Proofs.NearestElse
import JumpCode.Proofs.Parsing.StmtAcceptance

/-!
# JumpCode — the language of the parser

The parser accepts the programs of the grammar that obey the rules, and no others; the program it
gives is what the derivation stands for in which every `else` belongs to the nearest `if`.

* `readTokens_ne_exhausted` — the fuel is always enough;
* `exists_derivation` — what is accepted has a derivation;
* `accepts_language` — what has a derivation is accepted.
-/

namespace JumpCode

open JumpCode.Parser

/-- A derivation obeys the rules and stands for a `Program`: for its tree, and its storage. -/
def Clause.IsProgram (d : Clause .block) (p : Program) : Prop :=
  ∃ t, d.Means .empty none ⟨0, 0⟩ p.body t ∧ t.used = p.width

theorem Clause.IsProgram.unique {d : Clause .block} {p q : Program} (h : d.IsProgram p)
    (h' : d.IsProgram q) : p = q := by
  obtain ⟨t, hMeans, hWidth⟩ := h
  obtain ⟨t', hMeans', hWidth'⟩ := h'
  obtain ⟨hBody, rfl⟩ := hMeans.unique hMeans'
  obtain ⟨body, width⟩ := p
  obtain ⟨body', width'⟩ := q
  cases hBody
  cases hWidth.symm.trans hWidth'
  rfl

section

variable {tokens : List (Located Token)} {ending : Option (Located LexError)} {p : Program}

/-- Reading tokens comes to what the run of the parser comes to: what `Yields` says of `program`
holds of `readTokens`. -/
theorem outcome_of_yields {onOk : Program → Prop} {onStop : Stop → Prop}
    (h : Yields (program (fuelFor tokens.length)) (.initial tokens ending)
      (fun p _ => onOk p) (fun stop _ => onStop stop)) :
    (∃ p, (readTokens tokens ending).outcome = .ok p ∧ onOk p) ∨
      ∃ stop, (readTokens tokens ending).outcome = .error stop ∧ onStop stop := by
  rw [readTokens]
  unfold Yields at h
  split at h
  · next p s hRun =>
    rw [hRun]
    exact .inl ⟨p, rfl, h⟩
  · next stop s hRun =>
    rw [hRun]
    exact .inr ⟨stop, rfl, h⟩

/-- A program has a derivation, and nothing is left behind it; and the fuel has been enough. -/
theorem program_reads :
    Yields (program (fuelFor tokens.length)) (.initial tokens ending)
      (fun p _ => ending = none ∧ ∃ d : Clause .block,
        d.tokens = tokens.map (·.value) ∧ d.NearestElse ∧ d.IsProgram p)
      (fun stop _ => stop ≠ .exhausted) := by
  rw [program]
  refine ((stmtReads (fuelFor tokens.length)).block (.initial tokens ending)).bind ?_ ?_
  · intro stop _ hShort hStop
    -- a block of some tokens costs less fuel than there is
    have hFuel : fuelFor tokens.length = 16 * (tokens.length + 1) := rfl
    have hLength : (ParserState.initial tokens ending).rest.length = tokens.length := rfl
    have := hShort hStop
    omega
  rintro body s ⟨d, hd⟩
  refine (yields_peek_end s).bind (fun _ _ h => h) ?_
  rintro t s₁ ⟨rfl, hLast⟩
  split
  -- a token behind the block is refused
  · refine (yields_next s₁).bind (fun _ _ h => h.1) fun found s₂ _ => ?_
    exact Stop.noConfusion
  · next hEnd =>
    obtain ⟨hTokens, hEnding⟩ := hLast (Bool.eq_false_iff.mpr hEnd)
    have hRead : tokens.map (·.value) = d.tokens ++ s₁.tokens := hd.moves.tokens
    rw [hTokens, List.append_nil] at hRead
    rw [yields_get, yields_pure]
    exact ⟨hd.moves.ending.symm.trans hEnding, d, hRead.symm, hd.nearest, s₁.tally, hd.means, rfl⟩

/-- The program of a derivation is read, unless the derivation stands for none (`Stop.Denies`). -/
theorem program_accepts {d : Clause .block} (hTokens : d.tokens = tokens.map (·.value))
    (hNearest : d.NearestElse) :
    Yields (program (fuelFor tokens.length)) (.initial tokens none) (fun p _ => d.IsProgram p)
      (fun stop _ => stop.Denies (∃ p, d.IsProgram p)) := by
  have hFaces : Faces (.initial tokens none) (d.tokens ++ []) := by
    rw [List.append_nil, hTokens]
    exact ⟨rfl, rfl⟩
  rw [program]
  have hBlock : Yields (block (fuelFor tokens.length)) (.initial tokens none) _ _ :=
    d.accepted hNearest (fuelFor tokens.length) _ _ hFaces trivial
  refine hBlock.bind ?_ ?_
  · intro stop _ hDenies
    -- the parser may refuse the block if there is no tree for it
    refine hDenies.mono ?_
    rintro ⟨p, t, hMeans, _⟩
    exact ⟨p.body, t, hMeans⟩
  intro body s hd
  refine (hFaces.moves hd.moves).peek ?_
  exact ⟨s.tally, hd.means, rfl⟩

end

/-- **The fuel is always enough**: `fuelFor` the tokens is more than any run needs. -/
theorem readTokens_ne_exhausted (tokens : List (Located Token))
    (ending : Option (Located LexError)) :
    (readTokens tokens ending).outcome ≠ .error .exhausted := by
  intro hExhausted
  rcases outcome_of_yields program_reads with ⟨p, hOk, _⟩ | ⟨stop, hError, hNe⟩
  · cases hOk.symm.trans hExhausted
  · cases hError.symm.trans hExhausted
    exact hNe rfl

/-- **What is accepted has a derivation**, in which every `else` belongs to the nearest `if`. -/
theorem exists_derivation {tokens : List (Located Token)} {ending : Option (Located LexError)}
    {p : Program} (h : (readTokens tokens ending).outcome = .ok p) :
    ending = none ∧ ∃ d : Clause .block,
      d.tokens = tokens.map (·.value) ∧ d.NearestElse ∧ d.IsProgram p := by
  rcases outcome_of_yields program_reads with ⟨q, hOk, hRead⟩ | ⟨stop, hError, _⟩
  · cases hOk.symm.trans h
    exact hRead
  · cases hError.symm.trans h

/-- What is accepted is the program that its derivation stands for, if every `else` in it belongs to
the nearest `if`. -/
theorem isProgram_of_read {tokens : List (Located Token)} {ending : Option (Located LexError)}
    {p : Program} (h : (readTokens tokens ending).outcome = .ok p) {d : Clause .block}
    (hTokens : d.tokens = tokens.map (·.value)) (hNearest : d.NearestElse) : d.IsProgram p := by
  obtain ⟨rfl, -⟩ := exists_derivation h
  rcases outcome_of_yields (program_accepts hTokens hNearest) with
    ⟨q, hOk, hq⟩ | ⟨stop, hError, _⟩
  · cases hOk.symm.trans h
    exact hq
  · cases hError.symm.trans h

/-- **What has a derivation is accepted** as what it stands for, if it obeys the rules. -/
theorem outcome_of_derivation {tokens : List (Located Token)} {d : Clause .block} {p : Program}
    (hTokens : d.tokens = tokens.map (·.value)) (hNearest : d.NearestElse)
    (hProgram : d.IsProgram p) : (readTokens tokens none).outcome = .ok p := by
  rcases outcome_of_yields (program_accepts hTokens hNearest) with
    ⟨q, hOk, hq⟩ | ⟨stop, hError, hDenies⟩
  · rw [hOk, hq.unique hProgram]
  · rcases hDenies with rfl | ⟨_, hNone⟩
    · exact absurd hError (readTokens_ne_exhausted tokens none)
    · exact absurd ⟨p, hProgram⟩ hNone

/-- **The language of the parser.** A sequence of tokens is accepted exactly if it has a derivation
that obeys the rules. Then it has one in which every `else` belongs to the nearest `if`, and what
is read is the program that this derivation stands for. -/
theorem accepts_language (tokens : List (Located Token)) :
    ((∃ p, (readTokens tokens none).outcome = .ok p) ↔
      ∃ (d : Clause .block) (p : Program), d.tokens = tokens.map (·.value) ∧ d.IsProgram p) ∧
    ∀ p, (readTokens tokens none).outcome = .ok p ↔
      ∃ d : Clause .block, d.tokens = tokens.map (·.value) ∧ d.NearestElse ∧ d.IsProgram p := by
  refine ⟨⟨?_, ?_⟩, fun p => ⟨?_, ?_⟩⟩
  · rintro ⟨p, h⟩
    obtain ⟨-, d, hTokens, _, hProgram⟩ := exists_derivation h
    exact ⟨d, p, hTokens, hProgram⟩
  · rintro ⟨d, p, hTokens, t, hMeans, hWidth⟩
    -- any derivation may be given, the parser finds the one with the nearest `if`
    obtain ⟨y, hSame, hNearest, hRules⟩ := d.exists_nearest
    obtain ⟨body, h⟩ := hRules hMeans
    have hProgram : y.IsProgram ⟨body, p.width⟩ := ⟨t, h, hWidth⟩
    exact ⟨_, outcome_of_derivation (hSame.trans hTokens) hNearest hProgram⟩
  · intro h
    exact (exists_derivation h).2
  · rintro ⟨d, hTokens, hNearest, hProgram⟩
    exact outcome_of_derivation hTokens hNearest hProgram

/-- The failure that a `Reading` ends with, if it does. -/
def Reading.failure? (r : Reading) : Option (Located CompileError) :=
  match r.outcome with
  | .error (.error failure) => some failure
  | _ => none

theorem Reading.outcome_of_failure? {r : Reading} {failure : Located CompileError}
    (h : r.failure? = some failure) : r.outcome = .error (.error failure) := by
  unfold failure? at h
  split at h
  · rename_i hOutcome
    rw [hOutcome, Option.some.inj h]
  · cases h

/-- Whether a `Reading` gives a program, and one that passes a test. -/
def Reading.passes (r : Reading) (test : Program → Bool) : Bool :=
  match r.outcome with
  | .ok p => test p
  | .error _ => false

theorem Reading.exists_of_passes {r : Reading} {test : Program → Bool} (h : r.passes test) :
    ∃ p, r.outcome = .ok p ∧ test p := by
  unfold passes at h
  split at h
  · exact ⟨_, ‹_›, h⟩
  · cases h

/-- The tokens of a program with loops of both kinds, a conditional, a break, an array and truth
values:

    { float [2] a; int i; bool b;
      do {
        i = i + 1;
        while (b && !(i == 2)) { a[i] = a[0] * 2; if (b) break; else ; }
      } while (i < 2); }
-/
def sampleTokens : List (Located Token) :=
  ([.mark .openCurly, .scalar .float, .mark .openSquare, .intLiteral 2, .mark .closeSquare,
    .name "a", .mark .semicolon, .scalar .int, .name "i", .mark .semicolon, .scalar .bool,
    .name "b", .mark .semicolon, .keyword .doWord, .mark .openCurly, .name "i", .mark .assign,
    .name "i", .mark .plus, .intLiteral 1, .mark .semicolon, .keyword .whileWord,
    .mark .openParen, .name "b", .mark .and, .mark .not, .mark .openParen, .name "i",
    .mark .equal, .intLiteral 2, .mark .closeParen, .mark .closeParen, .mark .openCurly,
    .name "a", .mark .openSquare, .name "i", .mark .closeSquare, .mark .assign, .name "a",
    .mark .openSquare, .intLiteral 0, .mark .closeSquare, .mark .times, .intLiteral 2,
    .mark .semicolon, .keyword .ifWord, .mark .openParen, .name "b", .mark .closeParen,
    .keyword .breakWord, .mark .semicolon, .keyword .elseWord, .mark .semicolon,
    .mark .closeCurly, .mark .closeCurly, .keyword .whileWord, .mark .openParen, .name "i",
    .mark .less, .intLiteral 2, .mark .closeParen, .mark .semicolon,
    .mark .closeCurly] : List Token).map (⟨·, .first⟩)

/-- The sample is a program. -/
theorem exists_sample : ∃ p, (readTokens sampleTokens none).outcome = .ok p := by
  have hPasses : (readTokens sampleTokens none).passes fun _ => true := by decide +kernel
  obtain ⟨p, hRead, -⟩ := Reading.exists_of_passes hPasses
  exact ⟨p, hRead⟩

end JumpCode
