import JumpCode.Proofs.Lexing.Beyond
import JumpCode.Proofs.Lexing.Layout
import JumpCode.Proofs.Real64.Rounding

/-!
# JumpCode — numerals at their value

A run of digits is read as the integer that it denotes, and with a point behind it as the real that
is nearest to the decimal. The part before the point is counted like an integer in both cases,
before it shows whether a point follows: so a numeral with a whole part that is too large for an
integer is no real either, however well a real could hold it.

* `Lexer.Before` — a lexer that stands before a gap, a lexeme and one character more;
* `Lexer.next_numeral` — integers and reals of any length, at their value;
* `Lexer.large_real_overflows` — a real that fits its type and is refused.
-/

namespace JumpCode

open Text

namespace Lexer

/-- Whether a `Lexer` stands before a gap, a run of characters and one character more. What comes
after that is any stream, lines that cannot be read included. -/
structure Before (lexer : Lexer) (gap run : Text) (next : Located Char) (more : List Item) :
    Prop where
  failed : lexer.failed = false
  rest : lexer.cursor.rest = items (gap ++ (run ++ [next])) ++ more
  hGap : Gap (chars gap) (chars run)

end Lexer

/-- Behind the first digit of a numeral anything may follow: the `Gap` before it is the same. -/
theorem Gap.of_isDigit {gap rest rest' : List Char} {c : Char} (hDigit : c.isDigit)
    (h : Gap gap (c :: rest)) : Gap gap (c :: rest') := by
  have hSlash : c ≠ '/' := by
    rintro rfl
    exact absurd hDigit (by decide)
  -- along the gap: only where it ends does it matter what stands behind
  generalize hRest : c :: rest = behind at h
  induction h with
  | full hFull =>
    subst hRest
    refine .full fun hBegins => hFull (.inl (hBegins.resolve_right fun hMarks => ?_))
    exact hSlash hMarks.1
  | blank hBlank _ ih => exact .blank hBlank (ih hRest)
  | comment hBody hEnd _ ih =>
    subst hRest
    refine .comment hBody ?_ (ih rfl)
    rename_i gap _ _
    cases gap <;> simpa using hEnd

namespace Lexer

/-- Before a text that can be read, and more: where the answer leaves an item of the text, what
comes after it does not count (`next_behind`). -/
theorem Before.next {lexer : Lexer} {gap run : Text} {c : Located Char} {more : List Item}
    (h : lexer.Before gap run c more) {answer : Answer} {after : Lexer}
    (hNext : (Lexer.mk ⟨lexer.cursor.last, items (gap ++ (run ++ [c]))⟩ false).next =
      (answer, after)) (hRest : after.cursor.rest ≠ []) :
    lexer.next = (answer, after.behind more) := by
  obtain ⟨⟨last, stream⟩, failed⟩ := lexer
  obtain ⟨rfl, rfl, -⟩ := h
  have hBehind := next_behind more (c := ⟨last, items (gap ++ (run ++ [c]))⟩)
    (by rw [hNext]; exact hRest)
  rwa [hNext] at hBehind

/-- A numeral with a point always has a value, since `Real64.ofDecimal` is defined for all digits.
-/
theorem next_ne_badReal (lexer : Lexer) (text : String) (span : Span) :
    lexer.next.1 ≠ some (.error ⟨.badReal text, span⟩) := by
  obtain ⟨c, failed⟩ := lexer
  cases failed with
  | true =>
    -- a lexer that has failed can fail once more only at a line that cannot be read
    simp only [next, if_true]
    split <;> simp [fail]
  | false =>
    have hTurn := turn_next c
    intro hBad
    generalize (Lexer.mk c false).next.1 = answer at hTurn hBad
    generalize (Lexer.mk c false).next.2 = after at hTurn
    cases hTurn with
    | ended => cases hBad
    | unreadable => simp [fail] at hBad
    | token => cases hBad
    -- what is taken in a text fails at a character, at half a pair or with an overflow
    | failure hGap hTakes hNext =>
      simp only [fail, Option.some.injEq, Except.error.injEq, Located.mk.injEq] at hBad
      obtain ⟨rfl, -⟩ := hBad
      cases hTakes

section

variable {lexer : Lexer} {gap digits : Text} {first next : Located Char} {more : List Item}

/-- A lexeme that can go no further with the next character is the token that it `Denotes`. -/
theorem Before.next_token {run : Text} (h : lexer.Before gap (first :: run) next more)
    {t : Token} (hDigit : first.value.isDigit)
    (hLongest : Longest (chars (first :: run)) [next.value])
    (hDenotes : Denotes (chars (first :: run)) t) :
    lexer.next = (some (.ok ⟨t, first.span.join (lastSpan first.span run)⟩),
      ⟨⟨lastSpan first.span run, .char next.value next.span :: more⟩, false⟩) := by
  have hGap : Gap (chars gap) (chars (first :: run ++ [next])) := h.hGap.of_isDigit hDigit
  obtain ⟨last, hLast⟩ : ∃ last, (first :: run).getLast? = some last :=
    ⟨_, List.getLast?_eq_some_getLast (by simp)⟩
  have hEnd : lastSpan first.span run = last.span := by
    rw [← lastSpan_cons first.span]
    simp [lastSpan, hLast]
  rw [hEnd]
  exact h.next (Lexer.next_token hGap hLongest hDenotes rfl hLast lexer.cursor.last) (by simp)

/-- A run of digits is an integer, at its value. -/
theorem next_integer (h : lexer.Before gap (first :: digits) next more)
    (hDigits : IsDigits (chars (first :: digits)))
    (hFits : Real64.digitsValue (chars (first :: digits)) ≤ maxInt)
    (hNext : next.value.isDigit = false) (hPoint : next.value ≠ '.') :
    lexer.next = (some (.ok ⟨.intLiteral (Real64.digitsValue (chars (first :: digits))),
        first.span.join (lastSpan first.span digits)⟩),
      ⟨⟨lastSpan first.span digits, .char next.value next.span :: more⟩, false⟩) :=
  h.next_token (hDigits _ (by simp))
    ((longest_integer_iff hDigits (by simp)).mpr (by simp [hNext, hPoint]))
    (.integer hDigits (by simp) hFits)

/-- With a point behind it, it is a real, and the value is rounded once. -/
theorem next_real {point : Located Char} {fraction : Text}
    (h : lexer.Before gap (first :: digits ++ point :: fraction) next more)
    (hDigits : IsDigits (chars (first :: digits)))
    (hFits : Real64.digitsValue (chars (first :: digits)) ≤ maxInt)
    (hPoint : point.value = '.') (hFraction : IsDigits (chars fraction))
    (hNext : next.value.isDigit = false) :
    ∃ r : Real64,
      r.IsNearest (Real64.digitsValue (chars (first :: digits)) +
        Real64.digitsValue (chars fraction) / (10 : ℚ) ^ fraction.length) ∧
      lexer.next = (some (.ok ⟨.realLiteral r,
          first.span.join (lastSpan first.span (digits ++ point :: fraction))⟩),
        ⟨⟨lastSpan first.span (digits ++ point :: fraction),
          .char next.value next.span :: more⟩, false⟩) := by
  -- one lexeme of three parts, which ends where the second run of digits does
  have hText : chars (first :: (digits ++ point :: fraction)) =
      chars (first :: digits) ++ '.' :: chars fraction := by simp [hPoint]
  have hLongest := (longest_real_iff hDigits (by simp) hFraction).mpr
    (show ∀ c ∈ [next.value].head?, c.isDigit = false by simp [hNext])
  have hDenotes := Denotes.real hDigits (by simp) hFits hFraction
  rw [← hText] at hLongest hDenotes
  refine ⟨_, ?_, h.next_token (hDigits _ (by simp)) hLongest hDenotes⟩
  rw [show fraction.length = (chars fraction).length from (List.length_map _).symm]
  exact Real64.ofDecimal_isNearest (Nat.lt_of_le_of_lt hFits (by decide)) hFraction

/-- A run of digits that is too large for an integer is refused, whatever stands behind it. -/
theorem next_tooLarge {rest : Text} (h : lexer.Before gap (first :: digits ++ rest) next more)
    (hDigits : IsDigits (chars (first :: digits)))
    (hOver : maxInt < Real64.digitsValue (chars (first :: digits))) :
    ∃ d ∈ first :: digits, lexer.next.1 = some (.error ⟨.intOverflow, d.span⟩) := by
  -- up to the first digit with which the value is too large; the lexer takes no more than this
  obtain ⟨before, behind, d, hText, hFits, hTooLarge⟩ :=
    @exists_overflow (first :: digits) 0 (Nat.zero_le _) hOver
  have hBefore : IsDigits (chars (before ++ [d])) := by
    intro c hc
    refine hDigits c ?_
    rw [hText]
    simp only [chars_append, chars_cons, List.mem_append, List.mem_cons] at hc ⊢
    tauto
  have hSplit : first :: digits ++ rest ++ [next] = before ++ d :: (behind ++ rest ++ [next]) := by
    rw [hText]
    simp
  have hGap : Gap (chars gap) (chars (before ++ d :: (behind ++ rest ++ [next]))) := by
    rw [← hSplit]
    exact h.hGap.of_isDigit (hDigits _ (by simp))
  obtain ⟨last, hNext⟩ := next_overflow hGap hBefore hFits hTooLarge lexer.cursor.last
  rw [← hSplit] at hNext
  refine ⟨d, by simp [hText], ?_⟩
  rw [h.next hNext (by simp)]

end

/-- **Numerals are read at their value.** At the start of a token stands a run of digits, of any
length. With a character behind it that goes on with no numeral, it is the one integer that it
denotes, if this fits. With a point and more digits, or none, it is the one real that is nearest to
the decimal, if the part before the point fits. Where that part is too large for an integer, one of
its digits is refused as an overflow, with a point behind it too. No real is refused for having no
value. -/
theorem next_numeral {gap digits : Text} {first : Located Char}
    (hDigits : IsDigits (chars (first :: digits))) :
    (∀ (lexer : Lexer) (next : Located Char) (more : List Item),
      lexer.Before gap (first :: digits) next more →
      next.value.isDigit = false → next.value ≠ '.' →
      (Real64.digitsValue (chars (first :: digits)) ≤ maxInt →
        lexer.next = (some (.ok ⟨.intLiteral (Real64.digitsValue (chars (first :: digits))),
            first.span.join (lastSpan first.span digits)⟩),
          ⟨⟨lastSpan first.span digits, .char next.value next.span :: more⟩, false⟩)) ∧
      (maxInt < Real64.digitsValue (chars (first :: digits)) →
        ∃ d ∈ first :: digits, lexer.next.1 = some (.error ⟨.intOverflow, d.span⟩))) ∧
    (∀ (lexer : Lexer) (point : Located Char) (fraction : Text) (next : Located Char)
      (more : List Item),
      lexer.Before gap (first :: digits ++ point :: fraction) next more →
      point.value = '.' → IsDigits (chars fraction) → next.value.isDigit = false →
      (Real64.digitsValue (chars (first :: digits)) ≤ maxInt →
        ∃ r : Real64,
          r.IsNearest (Real64.digitsValue (chars (first :: digits)) +
            Real64.digitsValue (chars fraction) / (10 : ℚ) ^ fraction.length) ∧
          lexer.next = (some (.ok ⟨.realLiteral r,
              first.span.join (lastSpan first.span (digits ++ point :: fraction))⟩),
            ⟨⟨lastSpan first.span (digits ++ point :: fraction),
              .char next.value next.span :: more⟩, false⟩)) ∧
      (maxInt < Real64.digitsValue (chars (first :: digits)) →
        ∃ d ∈ first :: digits, lexer.next.1 = some (.error ⟨.intOverflow, d.span⟩))) ∧
    ∀ (lexer : Lexer) (text : String) (span : Span),
      lexer.next.1 ≠ some (.error ⟨.badReal text, span⟩) := by
  -- without a point, with one, and at any place
  refine ⟨fun lexer next more h hNext hPoint => ⟨fun hFits => ?_, fun hOver => ?_⟩,
    fun lexer point fraction next more h hPoint hFraction hNext => ⟨fun hFits => ?_, ?_⟩,
    next_ne_badReal⟩
  · exact next_integer h hDigits hFits hNext hPoint
  · have h' : lexer.Before gap (first :: digits ++ []) next more := by rwa [List.append_nil]
    exact next_tooLarge h' hDigits hOver
  · exact next_real h hDigits hFits hPoint hFraction hNext
  · exact next_tooLarge h hDigits

/-- Leading zeros count for nothing before the point, and trailing ones for nothing behind it. -/
theorem next_numeral_sample :
    ∃ r : Real64, r.IsNearest (29 / 4) ∧
      (ofItems (Source.mk "sample" [some "007.250"]).items).next.1 =
        some (.ok ⟨.realLiteral r, ⟨⟨1, 1⟩, ⟨1, 8⟩⟩⟩) := by
  have hDigits : IsDigits (chars (⟨'0', ⟨⟨1, 1⟩, ⟨1, 2⟩⟩⟩ :: locate ⟨1, 2⟩ ['0', '7'])) := by
    simp [IsDigits]
  have hBefore : (ofItems (Source.mk "sample" [some "007.250"]).items).Before []
      (⟨'0', ⟨⟨1, 1⟩, ⟨1, 2⟩⟩⟩ :: locate ⟨1, 2⟩ ['0', '7'] ++
        ⟨'.', ⟨⟨1, 4⟩, ⟨1, 5⟩⟩⟩ :: locate ⟨1, 5⟩ ['2', '5', '0'])
      ⟨'\n', ⟨⟨1, 8⟩, ⟨1, 9⟩⟩⟩ [] :=
    ⟨rfl, by decide +kernel, .full (by simp [BeginsGap, isBlank])⟩
  obtain ⟨r, hNearest, hNext⟩ :=
    ((next_numeral hDigits).2.1 _ _ _ _ _ hBefore rfl (by simp [IsDigits]) rfl).1 (by decide)
  have hWhole : Real64.digitsValue ['0', '0', '7'] = 7 := by decide
  have hFraction : Real64.digitsValue ['2', '5', '0'] = 250 := by decide
  refine ⟨r, ?_, by rw [hNext]; rfl⟩
  convert hNearest using 1
  rw [show chars _ = ['0', '0', '7'] from rfl, show chars _ = ['2', '5', '0'] from rfl, hWhole,
    hFraction, show List.length (locate _ _) = 3 from rfl]
  norm_num

/-- **A real with a large whole part is refused**, though a real of 64 bits can hold it without any
rounding: the digits before the point are counted as if they made an integer. -/
theorem large_real_overflows :
    ¬ ∀ (lexer : Lexer) (gap digits fraction : Text) (first point next : Located Char)
        (more : List Item), IsDigits (chars (first :: digits)) →
        lexer.Before gap (first :: digits ++ point :: fraction) next more →
        point.value = '.' → IsDigits (chars fraction) → next.value.isDigit = false →
        ∃ (r : Real64) (span : Span), lexer.next.1 = some (.ok ⟨.realLiteral r, span⟩) := by
  intro h
  have hBefore : (ofItems (Source.mk "sample" [some "2147483648.5"]).items).Before []
      (⟨'2', ⟨⟨1, 1⟩, ⟨1, 2⟩⟩⟩ :: locate ⟨1, 2⟩ "147483648".toList ++
        ⟨'.', ⟨⟨1, 11⟩, ⟨1, 12⟩⟩⟩ :: locate ⟨1, 12⟩ ['5'])
      ⟨'\n', ⟨⟨1, 13⟩, ⟨1, 14⟩⟩⟩ [] :=
    ⟨rfl, by decide +kernel, .full (by simp [BeginsGap, isBlank])⟩
  obtain ⟨r, span, hNext⟩ := h _ _ _ _ _ _ _ _ (by simp [IsDigits]) hBefore rfl
    (by simp [IsDigits]) rfl
  have hOverflow : (ofItems (Source.mk "sample" [some "2147483648.5"]).items).next.1 =
      some (.error ⟨.intOverflow, ⟨⟨1, 10⟩, ⟨1, 11⟩⟩⟩) := by decide +kernel
  simp [hOverflow] at hNext

end Lexer

end JumpCode
