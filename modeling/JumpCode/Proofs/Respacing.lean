import JumpCode.Proofs.Dumping
import JumpCode.Proofs.Lexing.Bytes
import JumpCode.Proofs.Parsing.Displacement

/-!
# JumpCode — layout does not matter

A text whose tokens end with the text may be spaced anew: behind any token and in front of the
first one. The tokens stay what they are, and where they stand does not matter to the parser; so
the program is the same, or the error is, and so is all that the program comes to.

* `Fills` — spacing, and the places where it may go;
* `Source.Alike` — sources that come to the same but for the places that errors blame;
* `respaced_alike` — the source of a text, and that of the text with more spacing.
-/

namespace JumpCode

/-! ## Sources that come to the same -/

/-- Two sources come to the same: both hold the same `Program`, which adds the same to an `Emitter`
and has the same listing, or both fail with the same `CompileError`, in one place or another. -/
structure Source.Alike (s s' : Source) : Prop where
  tokens : s.scan.tokens.map (·.value) = s'.scan.tokens.map (·.value)
  accepts (p : Program) : s.read.outcome = .ok p ↔ s'.read.outcome = .ok p
  rejects (error : CompileError) : (∃ span, s.read.outcome = .error (.error ⟨error, span⟩)) ↔
    ∃ span, s'.read.outcome = .error (.error ⟨error, span⟩)
  log : s.read.log = s'.read.log
  emits (times : Nat) (e e' : Emitter) : s.emitInto times e = .ok e' ↔ s'.emitInto times e = .ok e'
  listing (o : Options) : (o.respond s).listing = (o.respond s').listing

/-- **The tokens decide all but places**: sources with the same `Scan`, spans aside, are `Alike`. -/
theorem Source.alike_of_tokens {s s' : Source}
    (hTokens : s.scan.tokens.map (·.value) = s'.scan.tokens.map (·.value))
    (hFailure : s.scan.failure.map (·.value) = s'.scan.failure.map (·.value)) : s.Alike s' := by
  -- any places correspond here
  have hSame : List.Forall₂ (Located.Alike fun _ _ => True) s.scan.tokens s'.scan.tokens := by
    rw [← List.forall₂_eq_eq_eq, List.forall₂_map_left_iff, List.forall₂_map_right_iff] at hTokens
    exact hTokens.imp fun _ _ hValue => ⟨hValue, trivial⟩
  have hEnding : Option.Rel (Located.Alike fun _ _ => True) s.scan.failure s'.scan.failure := by
    cases hOne : s.scan.failure with
    | none =>
      rw [hOne, Option.map_none, eq_comm, Option.map_eq_none_iff] at hFailure
      rw [hFailure]
      exact .none
    | some failure =>
      rw [hOne, Option.map_some, eq_comm, Option.map_eq_some_iff] at hFailure
      obtain ⟨failure', hOther, hValue⟩ := hFailure
      rw [hOther]
      exact .some ⟨hValue.symm, trivial⟩
  obtain ⟨hOutcome, hLog⟩ := readTokens_alike trivial hSame hEnding
  generalize h : (readTokens s.scan.tokens s.scan.failure).outcome = r at hOutcome
  generalize h' : (readTokens s'.scan.tokens s'.scan.failure).outcome = r' at hOutcome
  cases hOutcome with
  | ok p =>
    have hBoth : s.read.outcome = s'.read.outcome := h.trans h'.symm
    refine ⟨hTokens, fun _ => by rw [hBoth], fun _ => by rw [hBoth], hLog, fun times e e' => ?_,
      fun o => ?_⟩
    · rw [Source.emitInto, hBoth, Source.emitInto]
    · rw [Options.listing_respond, hBoth, Options.listing_respond]
  | @error error span span' =>
    -- neither source comes to anything but its error
    have hFails : s.read.outcome = .error (.error ⟨error, span⟩) := h
    have hFails' : s'.read.outcome = .error (.error ⟨error, span'⟩) := h'
    refine ⟨hTokens, fun p => ?_, fun error' => ?_, hLog, fun times e e' => ?_, fun o => ?_⟩
    · rw [hFails, hFails']
      exact ⟨nofun, nofun⟩
    · simp [hFails, hFails']
    · rw [Source.emitInto, hFails, Source.emitInto, hFails']
      exact ⟨nofun, nofun⟩
    · rw [Options.listing_respond, hFails, Options.listing_respond, hFails']

/-! ## Spacing -/

/-- `Spacing` that may be filled in behind the front of a text which has these tokens: behind a
token, where a blank has to come first, in front of the first token, or into the spacing there. -/
inductive Fills (tokens : List (Located Token)) (front : List Char) : List Char → Prop
  | behind {t c spacing} (hToken : t ∈ tokens) (hStop : t.span.stop = Position.first.through front)
      (hBlank : isBlank c) (hSpacing : Spacing spacing) : Fills tokens front (c :: spacing)
  | ahead {t spacing} (hFirst : tokens.head? = some t)
      (hStart : t.span.start = Position.first.through front) (hSpacing : Spacing spacing) :
      Fills tokens front spacing
  | leading {spacing} (hFront : Spacing front) (hSpacing : Spacing spacing) :
      Fills tokens front spacing

/-- What is filled in (`Fills`) changes the places of tokens alone: the text `Lexes` to the same
ones. -/
theorem Lexes.fill {front back filler : List Char} {tokens : List (Located Token)}
    (h : Lexes .first (front ++ back) tokens) (hFills : Fills tokens front filler) :
    ∃ tokens', Lexes .first (front ++ (filler ++ back)) tokens' ∧
      tokens'.map (·.value) = tokens.map (·.value) := by
  cases hFills with
  | behind hToken hStop hBlank hSpacing => exact h.insert_behind hToken hStop hBlank hSpacing
  | @ahead t _ hFirst hStart hSpacing =>
    obtain ⟨more, rfl⟩ := List.head?_eq_some_iff.mp hFirst
    exact h.insert_ahead (h.spacing hStart) hSpacing
  | leading hFront hSpacing => exact h.insert_ahead hFront hSpacing

/-- **Layout does not matter.** A source that the lexer reads up to its end holds the bytes of a
text. Filling in spacing behind any of its tokens, or in front of them all, leaves the tokens as
they are, and neither does the lexer fail on the new text; so the one holds a program if and only if
the other does, and the same one, with the same width, tree, code and listing, or both are refused
for the same reason. -/
theorem respaced_alike :
    (∀ (name : String) (bytes : List UInt8), (Source.ofBytes name bytes).scan.failure = none →
      ∃ text, bytes = encode text) ∧
    ∀ (name : String) (front back filler : List Char),
      (Source.ofBytes name (encode (front ++ back))).scan.failure = none →
      Fills (Source.ofBytes name (encode (front ++ back))).scan.tokens front filler →
      (Source.ofBytes name (encode (front ++ (filler ++ back)))).scan.failure = none ∧
        (Source.ofBytes name (encode (front ++ (filler ++ back)))).Alike
          (Source.ofBytes name (encode (front ++ back))) := by
  refine ⟨fun name bytes => Source.exists_encode, ?_⟩
  intro name front back filler hFailure hFills
  have hLexes : Lexes .first (front ++ back)
      (Source.ofBytes name (encode (front ++ back))).scan.tokens :=
    (Source.scan_encode name).mp ⟨rfl, hFailure⟩
  -- the steps through the text are taken anew, and they give the tokens of the new text
  obtain ⟨tokens', hLexes', hValues⟩ := hLexes.fill hFills
  obtain ⟨hTokens', hFailure'⟩ := (Source.scan_encode name).mpr hLexes'
  refine ⟨hFailure', Source.alike_of_tokens ?_ ?_⟩
  · rw [hTokens', hValues]
  · rw [hFailure', hFailure]

/-- A text up to the slash of a division, behind which `apart` may be filled in. -/
def dividing : List Char := "\x7bint x;x=4/".toList

/-- The text behind the slash. -/
def divided : List Char := "2;\x7d".toList

/-- A comment with a blank in front, which keeps it apart from the slash that `dividing` ends with.
-/
def apart : List Char := [' ', '/', '/', ' ', 't', 'w', 'o', '\n']

/-- Behind the slash of a division a comment may stand, if a blank comes first. -/
theorem respaced_alike_sample :
    (Source.ofBytes "sample" (encode (dividing ++ divided))).scan.failure = none ∧
    Fills (Source.ofBytes "sample" (encode (dividing ++ divided))).scan.tokens dividing apart ∧
    (Source.ofBytes "sample" (encode (dividing ++ (apart ++ divided)))).Alike
      (Source.ofBytes "sample" (encode (dividing ++ divided))) := by
  have hFailure : (Source.ofBytes "sample" (encode (dividing ++ divided))).scan.failure = none := by
    decide +kernel
  have hSlash : (⟨.mark .slash, ⟨⟨1, 11⟩, ⟨1, 12⟩⟩⟩ : Located Token) ∈
      (Source.ofBytes "sample" (encode (dividing ++ divided))).scan.tokens := by decide +kernel
  have hSpacing : Spacing ('/' :: '/' :: ([' ', 't', 'w', 'o'] ++ '\n' :: [])) :=
    .comment (by decide) .nil
  have hFills : Fills (Source.ofBytes "sample" (encode (dividing ++ divided))).scan.tokens dividing
      apart := .behind hSlash (by decide +kernel) (by decide) hSpacing
  exact ⟨hFailure, hFills, (respaced_alike.2 "sample" dividing divided apart hFailure hFills).2⟩

end JumpCode
