import JumpCode.Program
import JumpCode.Proofs.Lexing.Request
import Mathlib.Data.List.Chain

/-!
# JumpCode — lexing loses nothing

The lexer comes to the division of a text into gaps and longest lexemes, and every text has one, so
this division is the only one. In a source each line ends its tokens.

* `Text.exists_splits` — every text can be divided;
* `Lexer.scan_of_splits` — the lexer comes to every division;
* `scan_splits` — the tokens of a text and the failure behind them are its only division.
-/

namespace JumpCode

open Text

/-! ## Every text can be divided -/

/-- A `Text` begins with a run of characters of a class, and goes on with another character. -/
theorem Text.exists_run (class? : Char → Bool) (text : Text) :
    ∃ run rest : Text, text = run ++ rest ∧ (∀ c ∈ chars run, class? c) ∧
      ∀ c ∈ (chars rest).head?, class? c = false := by
  induction text with
  | nil => exact ⟨[], [], rfl, by simp, by simp⟩
  | cons c text ih =>
    by_cases hClass : class? c.value
    · obtain ⟨run, rest, rfl, hRun, hStop⟩ := ih
      exact ⟨c :: run, rest, rfl, by simpa [hClass] using hRun, hStop⟩
    · exact ⟨[], c :: text, rfl, by simp, by simpa using hClass⟩

/-- Before the rest of a `Text` there is a `Gap`, empty perhaps. -/
theorem Text.exists_gap (text : Text) :
    ∃ gap rest : Text, text = gap ++ rest ∧ Gap (chars gap) (chars rest) := by
  generalize hLength : text.length = n
  induction n using Nat.strongRecOn generalizing text with
  | _ n ih =>
    by_cases hBegins : BeginsGap (chars text)
    · match text with
      | [] => simp [BeginsGap] at hBegins
      | c :: text =>
        by_cases hBlank : isBlank c.value
        · obtain ⟨gap, rest, rfl, hGap⟩ := ih text.length (by simp at hLength; omega) text rfl
          exact ⟨c :: gap, rest, rfl, .blank hBlank hGap⟩
        · -- a comment: both slashes, and all up to the end of the line
          simp only [BeginsGap, chars_cons, hBlank, Bool.false_eq_true, false_or] at hBegins
          obtain ⟨hSlash, hMore⟩ := hBegins
          obtain ⟨behind, hBehind⟩ := List.head?_eq_some_iff.mp hMore
          obtain ⟨d, text, rfl, hSlash', -⟩ := chars_eq_cons_iff.mp hBehind
          obtain ⟨body, after, rfl, hBody, hEnd⟩ := text.exists_run (· != '\n')
          obtain ⟨gap, rest, rfl, hGap⟩ := ih after.length (by simp at hLength; omega) after rfl
          refine ⟨c :: d :: (body ++ gap), rest, by simp, ?_⟩
          rw [chars_cons, chars_cons, chars_append, hSlash, hSlash']
          exact .comment (fun h => by simpa using hBody _ h) (by simpa using hEnd) hGap
    · exact ⟨[], text, rfl, .full hBegins⟩

/-- A run of digits that is too large has a first digit at which it gets so: behind it
`digitsValueFrom` is more than `maxInt`. -/
theorem exists_overflow {text : Text} {value : Nat} (hFits : value ≤ maxInt)
    (hOver : maxInt < digitsValueFrom value (chars text)) :
    ∃ (digits rest : Text) (d : Located Char), text = digits ++ d :: rest ∧
      digitsValueFrom value (chars digits) ≤ maxInt ∧
      maxInt < digitsValueFrom value (chars (digits ++ [d])) := by
  induction text generalizing value with
  | nil =>
    simp at hOver
    omega
  | cons c text ih =>
    -- the first digit with which the value does not fit is the one that we look for
    by_cases hNext : 10 * value + Real64.digitValue c.value ≤ maxInt
    · obtain ⟨digits, rest, d, rfl, h, h'⟩ := ih hNext hOver
      exact ⟨c :: digits, rest, d, rfl, h, h'⟩
    · exact ⟨[], text, c, rfl, hFits, by simpa using hNext⟩

/-- Whether a `Text` begins with a `Longest` lexeme that is a token. -/
def BeginsToken (text : Text) : Prop :=
  ∃ (first : Located Char) (more rest : Text) (t : Token), text = first :: more ++ rest ∧
    Longest (chars (first :: more)) (chars rest) ∧ Denotes (chars (first :: more)) t

theorem beginsToken_word {c : Located Char} (h : isWordStart c.value) (text : Text) :
    BeginsToken (c :: text) := by
  obtain ⟨run, rest, rfl, hRun, hStop⟩ := text.exists_run isWordPart
  have hWord : IsWord (chars (c :: run)) := .intro h hRun
  exact ⟨c, run, rest, _, rfl, hWord.longest_iff.mpr hStop, hWord.denotes⟩

theorem beginsToken_pair {c d : Located Char} {m : Mark} (h : m.text.toList = [c.value, d.value])
    (text : Text) : BeginsToken (c :: d :: text) :=
  ⟨c, [d], text, .mark m, rfl, longest_pair h _, by simpa [← h] using Denotes.mark m⟩

theorem beginsToken_lone {c : Located Char} {m : Mark} (h : m.text.toList = [c.value])
    (text : Text) : BeginsToken (c :: text) := by
  by_cases hLongest : Longest [c.value] (chars text)
  · exact ⟨c, [], text, .mark m, rfl, hLongest, by simpa [← h] using Denotes.mark m⟩
  · -- a mark that is not the longest is the beginning of a pair
    rw [longest_mark_iff h] at hLongest
    push Not at hLongest
    obtain ⟨d, hd, hPair⟩ := hLongest
    obtain ⟨pair, hPair⟩ := Option.ne_none_iff_exists'.mp hPair
    obtain ⟨behind, hBehind⟩ := List.head?_eq_some_iff.mp hd
    obtain ⟨d, text, rfl, rfl, -⟩ := chars_eq_cons_iff.mp hBehind
    exact beginsToken_pair (Mark.text_of_ofPair? hPair) text

theorem beginsToken_mark {c : Located Char} {text : Text} {m : Mark}
    (h : m.text.toList <+: chars (c :: text)) : BeginsToken (c :: text) := by
  rcases m.text_cases with ⟨d, hd, -⟩ | ⟨d, hd, -⟩ | ⟨d, e, hd, -⟩
  · obtain ⟨rfl, -⟩ := List.cons_prefix_cons.mp (hd ▸ h)
    exact beginsToken_lone hd text
  · obtain ⟨rfl, -⟩ := List.cons_prefix_cons.mp (hd ▸ h)
    exact beginsToken_lone hd text
  · obtain ⟨rfl, behind, hBehind⟩ := List.cons_prefix_cons.mp (hd ▸ h)
    obtain ⟨d, text, rfl, rfl, -⟩ := chars_eq_cons_iff.mp hBehind.symm
    exact beginsToken_pair hd text

/-- A text that begins with a digit begins with a numeral, which may be too large. -/
theorem beginsToken_digit {c : Located Char} (h : c.value.isDigit) (text : Text) :
    BeginsToken (c :: text) ∨
      ∃ (digits rest : Text) (d : Located Char), c :: text = digits ++ d :: rest ∧
        IsDigits (chars (digits ++ [d])) ∧ Real64.digitsValue (chars digits) ≤ maxInt ∧
        maxInt < Real64.digitsValue (chars (digits ++ [d])) := by
  obtain ⟨run, rest, rfl, hRun, hStop⟩ := text.exists_run Char.isDigit
  have hDigits : IsDigits (chars (c :: run)) := by simpa [IsDigits, h] using hRun
  by_cases hFits : Real64.digitsValue (chars (c :: run)) ≤ maxInt
  · refine .inl ?_
    by_cases hPoint : (chars rest).head? = some '.'
    · -- a point makes it a real, and all digits behind the point belong to it
      obtain ⟨behind, hBehind⟩ := List.head?_eq_some_iff.mp hPoint
      obtain ⟨point, behind, rfl, hValue, -⟩ := chars_eq_cons_iff.mp hBehind
      obtain ⟨fraction, rest, rfl, hFraction, hEnd⟩ := Text.exists_run Char.isDigit behind
      have hText : chars (c :: (run ++ point :: fraction)) =
          chars (c :: run) ++ '.' :: chars fraction := by simp [hValue]
      have hLongest := (longest_real_iff hDigits (by simp) hFraction).mpr hEnd
      have hDenotes := Denotes.real hDigits (by simp) hFits hFraction
      rw [← hText] at hLongest hDenotes
      exact ⟨c, run ++ point :: fraction, rest, _, by simp, hLongest, hDenotes⟩
    · refine ⟨c, run, rest, _, rfl, ?_, .integer hDigits (by simp) hFits⟩
      refine (longest_integer_iff hDigits (by simp)).mpr fun d hd => ⟨hStop d hd, ?_⟩
      rintro rfl
      exact hPoint hd
  · refine .inr ?_
    -- the run is cut where it gets too large, and what is cut off stays in the rest
    obtain ⟨digits, rest', d, hSplit, hBelow, hOver⟩ :=
      exists_overflow (Nat.zero_le maxInt) (Nat.lt_of_not_le hFits)
    refine ⟨digits, rest' ++ rest, d, ?_, ?_, hBelow, hOver⟩
    · rw [← List.cons_append, hSplit]
      simp
    intro e he
    refine hDigits e ?_
    rw [hSplit]
    simp only [chars_append, chars_cons, chars_nil, List.mem_append, List.mem_cons,
      List.not_mem_nil, or_false] at he ⊢
    tauto

/-- **Every text can be divided**: `Splits` holds for some tokens and some failure. The induction is
on the length of the text, and behind each gap the next character decides which rule it is. -/
theorem Text.exists_splits (text : Text) : ∃ tokens failure, Splits text tokens failure := by
  generalize hLength : text.length = n
  induction n using Nat.strongRecOn generalizing text with
  | _ n ih =>
    obtain ⟨gap, rest, rfl, hGap⟩ := text.exists_gap
    match rest with
    | [] => exact ⟨[], none, by simpa using Splits.done hGap⟩
    | c :: rest =>
      -- behind a token the rest is shorter
      have hToken : BeginsToken (c :: rest) → ∃ tokens failure,
          Splits (gap ++ c :: rest) tokens failure := by
        rintro ⟨first, more, rest', t, hText, hLongest, hDenotes⟩
        rw [hText] at hGap hLength ⊢
        obtain ⟨tokens, failure, hRest⟩ := ih rest'.length (by simp at hLength; omega) rest' rfl
        exact ⟨_, _, .token hGap hLongest hDenotes rfl (List.getLast?_eq_some_getLast (by simp))
          hRest⟩
      -- what fails is decided by whether a lexeme begins so, and whether one is there
      by_cases hBegins : ∃ lexeme, IsLexeme lexeme ∧ lexeme.head? = some c.value
      · by_cases hThere : ∃ lexeme, IsLexeme lexeme ∧ lexeme <+: chars (c :: rest)
        · obtain ⟨lexeme, hLexeme, hPrefix⟩ := hThere
          obtain ⟨d, behind, rfl⟩ := List.exists_cons_of_ne_nil hLexeme.ne_nil
          obtain ⟨rfl, -⟩ := List.cons_prefix_cons.mp hPrefix
          -- the kind of lexeme is told by its first character
          by_cases hPart : isWordPart c.value
          · rcases isWordPart_cases hPart with hStart | hDigit
            · exact hToken (beginsToken_word hStart rest)
            · rcases beginsToken_digit hDigit rest with
                h | ⟨digits, rest', d, hText, hDigits, h, h'⟩
              · exact hToken h
              · rw [hText] at hGap ⊢
                exact ⟨_, _, .intOverflow hGap hDigits h h'⟩
          · obtain ⟨m, hText⟩ := hLexeme.isMark (by simpa using hPart)
            exact hToken (beginsToken_mark (hText ▸ hPrefix))
        · simp only [not_exists, not_and] at hThere
          exact ⟨_, _, .expected hGap hBegins hThere⟩
      · simp only [not_exists, not_and] at hBegins
        exact ⟨_, _, .badChar hGap hBegins⟩

/-! ## All tokens -/

namespace Lexer

/-! What a scan comes to, by the answer to its first request. -/

theorem scan_of_token {lexer after : Lexer} {t : Located Token}
    (h : lexer.next = (some (.ok t), after)) :
    lexer.scan = { after.scan with tokens := t :: after.scan.tokens } := by
  rw [scan]
  split <;> simp_all

theorem scan_of_error {lexer : Lexer} {error : Located LexError}
    (h : lexer.next.1 = some (.error error)) : lexer.scan = ⟨[], some error, lexer.next.2⟩ := by
  rw [scan]
  split <;> simp_all

theorem scan_of_none {lexer : Lexer} (h : lexer.next.1 = none) :
    lexer.scan = ⟨[], none, lexer.next.2⟩ := by
  rw [scan]
  split <;> simp_all

/-- The lexer comes to every division of the text that it reads, by induction on `Splits`. So a text
has one division only. -/
theorem scan_of_splits {text : Text} {tokens : List (Located Token)}
    {failure : Option (Located LexError)} (h : Splits text tokens failure) (before : Span) :
    (Lexer.mk ⟨before, items text⟩ false).scan.tokens = tokens ∧
      (Lexer.mk ⟨before, items text⟩ false).scan.failure = failure := by
  induction h generalizing before with
  | done hGap =>
    rw [scan_of_none (next_done hGap before)]
    exact ⟨rfl, rfl⟩
  | @token _ _ _ _ last _ _ _ hGap hLongest hDenotes hFirst hLast hRest ih =>
    obtain ⟨hTokens, hFailure⟩ := ih last.span
    rw [scan_of_token (next_token hGap hLongest hDenotes hFirst hLast before)]
    exact ⟨congrArg (_ :: ·) hTokens, hFailure⟩
  | badChar hGap hNone =>
    rw [scan_of_error (next_badChar hGap hNone before)]
    exact ⟨rfl, rfl⟩
  | expected hGap hBegins hNone =>
    rw [scan_of_error (next_expected hGap hBegins hNone before)]
    exact ⟨rfl, rfl⟩
  | intOverflow hGap hDigits hFits hOver =>
    rw [scan_of_error (next_intOverflow hGap hDigits hFits hOver before)]
    exact ⟨rfl, rfl⟩

end Lexer

/-! ## Tokens stand on one line -/

/-- Whether an `Item` begins where the one before it ends, unless a line ends there, and ends on the
line on which it begins. -/
def Item.Continues : Item → Item → Prop
  | .char c span, .char _ span' => c ≠ '\n' → span'.start = span.stop
  | _, _ => True

/-- Whether an `Item` ends on the line on which it begins. -/
def Item.OnLine : Item → Prop
  | .char _ span => span.start.line = span.stop.line
  | .unreadable => True

theorem lineItems_onLine (p : Position) (cs : List Char) :
    ∀ item ∈ lineItems p cs, item.OnLine := by
  induction cs generalizing p with
  | nil => simp [lineItems, Item.OnLine]
  | cons c cs ih => simpa [lineItems, Item.OnLine] using ih (p.after c)

theorem lineItems_continues (p : Position) (cs : List Char) {rest : List Item}
    (h : rest.IsChain Item.Continues) : (lineItems p cs ++ rest).IsChain Item.Continues := by
  induction cs generalizing p with
  | nil =>
    cases rest with
    | nil => simp [lineItems]
    | cons item rest => cases item <;> simpa [lineItems, Item.Continues] using h
  | cons c cs ih =>
    have hRest := ih (p.after c)
    cases cs <;> simp_all [lineItems, Item.Continues]

theorem itemsFrom_onLine (n : Nat) (lines : List (Option String)) :
    ∀ item ∈ itemsFrom n lines, item.OnLine := by
  induction lines generalizing n with
  | nil => simp [itemsFrom]
  | cons line lines ih =>
    cases line with
    | none => simpa [itemsFrom, Item.OnLine] using ih (n + 1)
    | some text =>
      intro item hItem
      rcases List.mem_append.mp hItem with h | h
      · exact lineItems_onLine _ _ item h
      · exact ih (n + 1) item h

theorem itemsFrom_continues (n : Nat) (lines : List (Option String)) :
    (itemsFrom n lines).IsChain Item.Continues := by
  induction lines generalizing n with
  | nil => simp [itemsFrom]
  | cons line lines ih =>
    cases line with
    | none =>
      have hRest := ih (n + 1)
      rw [itemsFrom]
      generalize itemsFrom (n + 1) lines = rest at hRest
      cases rest <;> simp_all [Item.Continues]
    | some text => exact lineItems_continues _ _ (ih (n + 1))

/-- A run of characters without a newline ends on the line on which it begins, if each of them
`Continues` the one before. -/
theorem Text.line_of_run {run : Text} {first last : Located Char}
    (hContinues : (items run).IsChain Item.Continues) (hOnLine : ∀ item ∈ items run, item.OnLine)
    (hNewline : '\n' ∉ chars run) (hFirst : run.head? = some first)
    (hLast : run.getLast? = some last) : first.span.start.line = last.span.stop.line := by
  induction run generalizing first with
  | nil => simp at hFirst
  | cons c run ih =>
    obtain rfl : c = first := by simpa using hFirst
    simp only [items_cons, List.mem_cons, forall_eq_or_imp, Item.OnLine] at hOnLine
    simp only [chars_cons, List.mem_cons, not_or] at hNewline
    cases run with
    | nil =>
      obtain rfl : c = last := by simpa using hLast
      exact hOnLine.1
    | cons d run =>
      simp only [items_cons, List.isChain_cons_cons, Item.Continues] at hContinues
      have hRest := ih hContinues.2 hOnLine.2 hNewline.2 rfl (by simpa using hLast)
      rw [hOnLine.1, ← hContinues.1 (Ne.symm hNewline.1), hRest]

theorem Splits.line_of_token {text : Text} {tokens : List (Located Token)}
    {failure : Option (Located LexError)} (h : Splits text tokens failure)
    (hContinues : (items text).IsChain Item.Continues)
    (hOnLine : ∀ item ∈ items text, item.OnLine) :
    ∀ t ∈ tokens, t.span.start.line = t.span.stop.line := by
  induction h with
  | done | badChar | expected | intOverflow => simp
  | token hGap hLongest hDenotes hFirst hLast hRest ih =>
    simp only [items_append, List.mem_append, or_imp, forall_and] at hContinues hOnLine
    have hBehind := hContinues.right_of_append
    have hLine := Text.line_of_run hBehind.left_of_append hOnLine.2.1 hDenotes.not_newline
      hFirst hLast
    simpa [hLine] using ih hBehind.right_of_append hOnLine.2.2

/-! ## The lexer divides the text -/

/-- **Lexing loses nothing.** For a text that can be read, the tokens up to its end or to the first
failure, and that failure, are its one division into gaps and longest lexemes (`Splits`). In a
source, and in one that is cut off anywhere, every token stands on one line. -/
theorem scan_splits (text : Text) :
    (∀ (tokens : List (Located Token)) (failure : Option (Located LexError)),
      Splits text tokens failure ↔
        (Lexer.ofItems text.items).scan.tokens = tokens ∧
          (Lexer.ofItems text.items).scan.failure = failure) ∧
    ∀ (s : Source) (cut : Nat), text.items = s.items.take cut →
      ∀ t ∈ (Lexer.ofItems text.items).scan.tokens, t.span.start.line = t.span.stop.line := by
  obtain ⟨tokens, failure, hSplits⟩ := text.exists_splits
  obtain ⟨rfl, rfl⟩ : (Lexer.ofItems text.items).scan.tokens = tokens ∧
      (Lexer.ofItems text.items).scan.failure = failure := Lexer.scan_of_splits hSplits .first
  refine ⟨fun tokens failure => ⟨fun h => Lexer.scan_of_splits h .first, ?_⟩, ?_⟩
  · rintro ⟨rfl, rfl⟩
    exact hSplits
  · intro s cut hText
    refine hSplits.line_of_token ?_ ?_
    · rw [hText]
      exact (itemsFrom_continues 1 s.lines).take cut
    · rw [hText]
      exact fun item hItem => itemsFrom_onLine 1 s.lines item (List.mem_of_mem_take hItem)

/-- A text that ends inside of a comment, behind an operator of two characters. -/
theorem scan_splits_sample : ∃ (text : Text) (t : Located Token),
    text.items = (Source.mk "sample" [some "a", some " <=//b"]).items.take 7 ∧
    t ∈ (Lexer.ofItems text.items).scan.tokens ∧ t.value = .mark .lessOrEqual ∧
    t.span.start.line = t.span.stop.line := by
  let text : Text := [⟨'a', ⟨⟨1, 1⟩, ⟨1, 2⟩⟩⟩, ⟨'\n', ⟨⟨1, 2⟩, ⟨1, 3⟩⟩⟩, ⟨' ', ⟨⟨2, 1⟩, ⟨2, 2⟩⟩⟩,
    ⟨'<', ⟨⟨2, 2⟩, ⟨2, 3⟩⟩⟩, ⟨'=', ⟨⟨2, 3⟩, ⟨2, 4⟩⟩⟩, ⟨'/', ⟨⟨2, 4⟩, ⟨2, 5⟩⟩⟩,
    ⟨'/', ⟨⟨2, 5⟩, ⟨2, 6⟩⟩⟩]
  let t : Located Token := ⟨.mark .lessOrEqual, ⟨⟨2, 2⟩, ⟨2, 4⟩⟩⟩
  have hText : text.items = (Source.mk "sample" [some "a", some " <=//b"]).items.take 7 := by
    decide +kernel
  have hToken : t ∈ (Lexer.ofItems text.items).scan.tokens := by decide +kernel
  exact ⟨text, t, hText, hToken, rfl, (scan_splits text).2 _ _ hText t hToken⟩

end JumpCode
