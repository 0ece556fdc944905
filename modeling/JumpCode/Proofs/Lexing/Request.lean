import JumpCode.Proofs.Lexing.Lexeme
import Mathlib.Tactic.Tauto

/-!
# JumpCode — one request to the lexer

What the lexer answers on a text that can be read, for each way in which the text may go on behind
its gap. The items are those of a text, so what the runs of the lexer take is said in characters.

* `skipGap_gap`, `takeRun_items`, `takeNumeral_items` — the runs of characters;
* `takeLexeme_token` — a longest lexeme is taken as the token that it denotes;
* `Lexer.next_token`, `Lexer.next_done`, `Lexer.next_badChar`, `Lexer.next_expected`,
  `Lexer.next_intOverflow` — one request.
-/

namespace JumpCode

open Text

/-! ## Runs of characters -/

/-- The `Span` of the last character of a run, or the one before it if the run is empty. -/
def lastSpan (before : Span) (run : Text) : Span := (run.getLast?.map (·.span)).getD before

@[simp] theorem lastSpan_nil (before : Span) : lastSpan before [] = before := rfl

@[simp] theorem lastSpan_cons (before : Span) (c : Located Char) (run : Text) :
    lastSpan before (c :: run) = lastSpan c.span run := by
  cases run <;> simp [lastSpan, List.getLast?_cons]

theorem skipGap_inComment (last : Span) (c : Char) (span : Span) (rest : List Item) :
    skipGap true last (.char c span :: rest) = skipGap (c != '\n') span rest := by
  rw [skipGap.eq_def]
  simp

theorem skipGap_blank {c : Char} (h : isBlank c) (last span : Span) (rest : List Item) :
    skipGap false last (.char c span :: rest) = skipGap false span rest := by
  rw [skipGap.eq_def]
  simp [h]

/-- A comment lasts up to the newline, or up to the end of the text. -/
theorem skipGap_comment {body rest : Text} (hBody : '\n' ∉ chars body)
    (hEnd : ∀ c ∈ (chars rest).head?, c = '\n') (last : Span) :
    ∃ last', skipGap true last (items (body ++ rest)) = skipGap false last' (items rest) := by
  induction body generalizing last with
  | nil =>
    match rest with
    | [] => exact ⟨last, rfl⟩
    | c :: rest =>
      have hNewline : c.value = '\n' := hEnd c.value rfl
      exact ⟨last, by simp [skipGap_inComment, skipGap_blank, isBlank, hNewline]⟩
  | cons c body ih =>
    simp only [chars_cons, List.mem_cons, not_or] at hBody
    have hInside : (c.value != '\n') = true := by simpa using Ne.symm hBody.1
    obtain ⟨last', h⟩ := ih hBody.2 c.span
    exact ⟨last', by simpa [skipGap_inComment, hInside] using h⟩

/-- The lexer stops where no gap goes on. -/
theorem skipGap_full {rest : Text} (h : ¬ BeginsGap (chars rest)) (last : Span) :
    skipGap false last (items rest) = ⟨last, items rest⟩ := by
  cases rest with
  | nil => rfl
  | cons c rest =>
    simp only [BeginsGap, chars_cons, not_or, not_and] at h
    rw [items_cons, skipGap.eq_4]
    · simp [h.1]
    · intro span' rest' hSlash hRest
      cases rest with
      | nil => cases hRest
      | cons d rest =>
        simp only [items_cons, List.cons.injEq, Item.char.injEq] at hRest
        exact h.2 hSlash (by simp [hRest.1.1])

/-- The lexer passes a `Gap` and no more, and stands in front of the rest. -/
theorem skipGap_gap {gap rest : Text} (h : Gap (chars gap) (chars rest)) (last : Span) :
    ∃ last', skipGap false last (items (gap ++ rest)) = ⟨last', items rest⟩ := by
  generalize hRun : chars gap = run at h
  generalize hAfter : chars rest = after at h
  induction h generalizing gap last with
  | full hFull =>
    obtain rfl : gap = [] := chars_eq_nil_iff.mp hRun
    subst hAfter
    exact ⟨last, skipGap_full hFull last⟩
  | blank hBlank hGap ih =>
    obtain ⟨c, gap, rfl, rfl, rfl⟩ := chars_eq_cons_iff.mp hRun
    obtain ⟨last', h⟩ := ih c.span rfl hAfter
    exact ⟨last', by simpa [skipGap_blank hBlank] using h⟩
  | comment hBody hEnd hGap ih =>
    obtain ⟨a, more, rfl, hA, hMore⟩ := chars_eq_cons_iff.mp hRun
    obtain ⟨b, more, rfl, hB, hMore⟩ := chars_eq_cons_iff.mp hMore
    obtain ⟨body, gap, rfl, rfl, rfl⟩ := chars_eq_append_iff.mp hMore
    subst hAfter
    have hEnd' : ∀ c ∈ (chars (gap ++ rest)).head?, c = '\n' := by
      simpa only [chars_append] using hEnd
    obtain ⟨last₁, h₁⟩ := skipGap_comment hBody hEnd' b.span
    obtain ⟨last', h⟩ := ih last₁ rfl rfl
    refine ⟨last', ?_⟩
    simpa [skipGap, isBlank, hA, hB, ← h₁] using h

/-- Of a run of characters of a class, all are taken, and `takeRun` stops at the first one that is
not of the class. -/
theorem takeRun_items {class? : Char → Bool} {run rest : Text} (hRun : ∀ c ∈ chars run, class? c)
    (hStop : ∀ c ∈ (chars rest).head?, class? c = false) (last : Span) :
    takeRun class? last (items (run ++ rest)) = (chars run, ⟨lastSpan last run, items rest⟩) := by
  induction run generalizing last with
  | nil =>
    match rest with
    | [] => rfl
    | c :: rest => simp [takeRun, hStop c.value rfl]
  | cons c run ih =>
    simp only [chars_cons, List.mem_cons, forall_eq_or_imp] at hRun
    simp [takeRun, hRun.1, ih hRun.2]

/-! ## Numerals -/

/-- The value of a numeral, with digits to go on with: `Real64.digitsValue` starts from zero. -/
def digitsValueFrom (value : Nat) (digits : List Char) : Nat :=
  digits.foldl (fun value c => 10 * value + Real64.digitValue c) value

@[simp] theorem digitsValueFrom_nil (value : Nat) : digitsValueFrom value [] = value := rfl

@[simp] theorem digitsValueFrom_cons (value : Nat) (c : Char) (digits : List Char) :
    digitsValueFrom value (c :: digits) =
      digitsValueFrom (10 * value + Real64.digitValue c) digits := by
  simp only [digitsValueFrom, List.foldl_cons]

theorem digitsValueFrom_concat (value : Nat) (digits : List Char) (c : Char) :
    digitsValueFrom value (digits ++ [c]) =
      10 * digitsValueFrom value digits + Real64.digitValue c := by
  simp [digitsValueFrom]

theorem digitsValue_eq (digits : List Char) :
    Real64.digitsValue digits = digitsValueFrom 0 digits := rfl

theorem le_digitsValueFrom (value : Nat) (digits : List Char) :
    value ≤ digitsValueFrom value digits := by
  induction digits generalizing value with
  | nil => simp
  | cons c digits ih =>
    have := ih (10 * value + Real64.digitValue c)
    simp only [digitsValueFrom_cons]
    omega

theorem digitValue_le {c : Char} (h : c.isDigit) : Real64.digitValue c ≤ 9 := by
  simp only [Char.isDigit, Bool.and_eq_true, decide_eq_true_eq] at h
  have hLe : c.toNat ≤ 57 := h.2
  simp only [Real64.digitValue]
  omega

/-- All digits that fit are taken; a digit behind them is one with which the numeral would be more
than `maxInt`. -/
theorem takeNumeral_items {digits : Text} (rest : Text) {value : Nat}
    (hDigits : IsDigits (chars digits)) (hFits : digitsValueFrom value (chars digits) ≤ maxInt)
    (hStop : ∀ c ∈ (chars rest).head?, c.isDigit →
      maxInt < 10 * digitsValueFrom value (chars digits) + Real64.digitValue c) (last : Span) :
    takeNumeral value last (items (digits ++ rest)) =
      (digitsValueFrom value (chars digits), ⟨lastSpan last digits, items rest⟩) := by
  induction digits generalizing value last with
  | nil =>
    match rest with
    | [] => rfl
    | c :: rest =>
      have hTest :
          (c.value.isDigit && 10 * value + Real64.digitValue c.value ≤ maxInt) = false := by
        simpa using hStop c.value rfl
      simp [takeNumeral, hTest]
  | cons c digits ih =>
    simp only [chars_cons, digitsValueFrom_cons] at hFits hStop
    have hDigit : c.value.isDigit := hDigits c.value (by simp)
    -- the value only grows, so that what fits at the end has fitted all along
    have hNext : 10 * value + Real64.digitValue c.value ≤ maxInt :=
      Nat.le_trans (le_digitsValueFrom _ (chars digits)) hFits
    simp [takeNumeral, hDigit, hNext, ih (fun d hd => hDigits d (by simp [hd])) hFits hStop]

/-- A run of digits that can go no further is an integer. -/
theorem takeNumber_integer {digits rest : Text} (hDigits : IsDigits (chars digits))
    (hFits : Real64.digitsValue (chars digits) ≤ maxInt)
    (hStop : ∀ c ∈ (chars rest).head?, c.isDigit = false ∧ c ≠ '.') (last : Span) :
    takeNumber ⟨last, items (digits ++ rest)⟩ =
      (.ok (.intLiteral (Real64.digitsValue (chars digits))),
        ⟨lastSpan last digits, items rest⟩) := by
  have hTake := takeNumeral_items rest hDigits hFits
    (fun c hc hDigit => by simp [(hStop c hc).1] at hDigit) last
  match rest with
  | [] =>
    rw [List.append_nil] at hTake
    simp [takeNumber, digitsValue_eq, hTake]
  | c :: rest =>
    have hc := hStop c.value rfl
    simp [takeNumber, digitsValue_eq, hTake, hc.1, hc.2]

/-- With a point a run of digits is a real, of all digits behind it too. -/
theorem takeNumber_real {whole fraction rest : Text} {point : Located Char}
    (hPoint : point.value = '.') (hWhole : IsDigits (chars whole))
    (hFits : Real64.digitsValue (chars whole) ≤ maxInt) (hFraction : IsDigits (chars fraction))
    (hStop : ∀ c ∈ (chars rest).head?, c.isDigit = false) (last : Span) :
    takeNumber ⟨last, items (whole ++ (point :: fraction ++ rest))⟩ =
      (.ok (.realLiteral (.ofDecimal (Real64.digitsValue (chars whole)) (chars fraction))),
        ⟨lastSpan last (whole ++ point :: fraction), items rest⟩) := by
  -- the point is no digit, so the digits in front of it end there
  have hTake := takeNumeral_items (point :: fraction ++ rest) hWhole hFits
    (fun c hc hDigit => by
      obtain rfl : c = '.' := by simpa [hPoint] using hc.symm
      simp at hDigit) last
  have hRun := takeRun_items hFraction hStop point.span
  have hLast : lastSpan last (whole ++ point :: fraction) = lastSpan point.span fraction := by
    simp [lastSpan, List.getLast?_cons]
  simp only [List.cons_append] at hTake
  simp [takeNumber, digitsValue_eq, hTake, hPoint, hRun, hLast]

/-- A run of digits that gets too large is none. -/
theorem takeNumber_intOverflow {digits rest : Text} {d : Located Char}
    (hDigits : IsDigits (chars (digits ++ [d])))
    (hFits : Real64.digitsValue (chars digits) ≤ maxInt)
    (hOver : maxInt < Real64.digitsValue (chars (digits ++ [d]))) (last : Span) :
    takeNumber ⟨last, items (digits ++ d :: rest)⟩ =
      (.error .intOverflow, ⟨lastSpan last digits, items (d :: rest)⟩) := by
  have hDigit : d.value.isDigit := hDigits d.value (by simp)
  have hTake := takeNumeral_items (d :: rest) (fun c hc => hDigits c (by simp [hc])) hFits
    (fun c hc _ => by
      obtain rfl : d.value = c := by simpa using hc
      simpa [digitsValue_eq, digitsValueFrom_concat] using hOver) last
  have hPoint : d.value ≠ '.' := by
    intro h
    simp [h] at hDigit
  simp [takeNumber, hTake, hDigit, hPoint]

/-! ## One lexeme -/

theorem Keyword.isWord (k : Keyword) : IsWord k.name.toList := by
  cases k <;> simp [Keyword.name, isWord_cons, isWordStart, isWordPart]

theorem Scalar.isWord (s : Scalar) : IsWord s.name.toList := by
  cases s <;> simp [Scalar.name, isWord_cons, isWordStart, isWordPart]

theorem Token.ofWord_name {word : List Char} (hKeyword : ∀ k : Keyword, word ≠ k.name.toList)
    (hScalar : ∀ s : Scalar, word ≠ s.name.toList) :
    Token.ofWord (String.ofList word) = .name (String.ofList word) := by
  have hKeyword' : Keyword.ofName? (String.ofList word) = none := by
    simp only [Keyword.ofName?, List.find?_eq_none, beq_iff_eq]
    intro k _ hEq
    exact hKeyword k (by simp [hEq])
  have hScalar' : Scalar.ofName? (String.ofList word) = none := by
    simp only [Scalar.ofName?, List.find?_eq_none, beq_iff_eq]
    intro s _ hEq
    exact hScalar s (by simp [hEq])
  simp [ofWord, hKeyword', hScalar']

theorem Token.ofWord_keyword (k : Keyword) : Token.ofWord k.name = .keyword k := by
  cases k <;> decide

theorem Token.ofWord_scalar (s : Scalar) : Token.ofWord s.name = .scalar s := by
  cases s <;> decide

/-- A word denotes what the lexer takes it for. -/
theorem IsWord.denotes {word : List Char} (h : IsWord word) :
    Denotes word (Token.ofWord (String.ofList word)) := by
  by_cases hKeyword : ∃ k : Keyword, word = k.name.toList
  · obtain ⟨k, rfl⟩ := hKeyword
    rw [String.ofList_toList, Token.ofWord_keyword]
    exact .keyword k
  by_cases hScalar : ∃ s : Scalar, word = s.name.toList
  · obtain ⟨s, rfl⟩ := hScalar
    rw [String.ofList_toList, Token.ofWord_scalar]
    exact .scalar s
  simp only [not_exists] at hKeyword hScalar
  rw [Token.ofWord_name hKeyword hScalar]
  exact .name h hKeyword hScalar

theorem takeLexeme_word {first : Located Char} {more rest : Text} {word : List Char}
    (hText : chars (first :: more) = word) (hWord : IsWord word)
    (hLongest : Longest word (chars rest)) (last : Span) :
    takeLexeme last first.value first.span (items (more ++ rest)) =
      (.ok (.ofWord (String.ofList word)), ⟨lastSpan first.span more, items rest⟩) := by
  have hStop := hWord.longest_iff.mp hLongest
  obtain ⟨hStart, hRest⟩ := hWord
  rw [chars_cons] at hText
  obtain ⟨rfl, rfl⟩ := List.cons.inj hText
  -- no mark begins as a word does
  have hPart := isWordPart_of_isWordStart hStart
  have hRun := takeRun_items hRest hStop first.span
  simp [takeLexeme, ofChar?_of_isWordPart hPart, isOperatorStart_of_isWordPart hPart, hStart, hRun]

theorem takeLexeme_digit {first : Located Char} (h : first.value.isDigit) (last : Span)
    (text : Text) : takeLexeme last first.value first.span (items text) =
      takeNumber ⟨last, items (first :: text)⟩ := by
  have hPart := isWordPart_of_isDigit h
  simp [takeLexeme, ofChar?_of_isWordPart hPart, isOperatorStart_of_isWordPart hPart,
    isWordStart_of_isDigit h, h]

theorem takeLexeme_mark {first : Located Char} {more rest : Text} {m : Mark}
    (hText : chars (first :: more) = m.text.toList)
    (hLongest : Longest m.text.toList (chars rest)) (last : Span) :
    takeLexeme last first.value first.span (items (more ++ rest)) =
      (.ok (.mark m), ⟨lastSpan first.span more, items rest⟩) := by
  rcases m.text_cases with
    ⟨c, hc, hOf⟩ | ⟨c, hc, hNone, hStart, hOf⟩ | ⟨c, d, hc, hNone, hStart, hOf⟩
  · obtain ⟨rfl, hMore⟩ := List.cons.inj (hText.trans hc)
    obtain rfl : more = [] := chars_eq_nil_iff.mp hMore
    simp [takeLexeme, hOf]
  · obtain ⟨rfl, hMore⟩ := List.cons.inj (hText.trans hc)
    obtain rfl : more = [] := chars_eq_nil_iff.mp hMore
    have hStop := (longest_mark_iff hc).mp (hc ▸ hLongest)
    cases rest with
    | nil => simp [takeLexeme, takeOperator, hNone, hStart, hOf]
    | cons d rest => simp [takeLexeme, takeOperator, hNone, hStart, hOf, hStop d.value rfl]
  · obtain ⟨rfl, hMore⟩ := List.cons.inj (hText.trans hc)
    -- the second character of a pair is taken with the first one
    obtain ⟨second, more, rfl, rfl, hNil⟩ := chars_eq_cons_iff.mp hMore
    obtain rfl : more = [] := chars_eq_nil_iff.mp hNil
    simp [takeLexeme, takeOperator, hNone, hStart, hOf]

/-- A `Longest` lexeme is taken as the token that it `Denotes`. The cases are those of `Denotes`. -/
theorem takeLexeme_token {first : Located Char} {more rest : Text} {t : Token}
    (hLongest : Longest (chars (first :: more)) (chars rest))
    (hDenotes : Denotes (chars (first :: more)) t) (last : Span) :
    takeLexeme last first.value first.span (items (more ++ rest)) =
      (.ok t, ⟨lastSpan first.span more, items rest⟩) := by
  generalize hText : chars (first :: more) = lexeme at hLongest hDenotes
  cases hDenotes with
  | keyword k =>
    have h := takeLexeme_word hText k.isWord hLongest last
    rwa [String.ofList_toList, Token.ofWord_keyword] at h
  | scalar s =>
    have h := takeLexeme_word hText s.isWord hLongest last
    rwa [String.ofList_toList, Token.ofWord_scalar] at h
  | name hWord hKeyword hScalar =>
    have h := takeLexeme_word hText hWord hLongest last
    rwa [Token.ofWord_name hKeyword hScalar] at h
  | integer hDigits hSome hFits =>
    have hStop := (longest_integer_iff hDigits hSome).mp hLongest
    subst hText
    rw [takeLexeme_digit (hDigits _ (by simp))]
    simpa using takeNumber_integer hDigits hFits hStop last
  | real hWhole hSome hFits hFraction =>
    have hStop := (longest_real_iff hWhole hSome hFraction).mp hLongest
    -- the places of the digits are cut where their text has the point
    obtain ⟨whole, behind, hSplit, rfl, hBehind⟩ := chars_eq_append_iff.mp hText
    obtain ⟨point, fraction, rfl, hPoint, rfl⟩ := chars_eq_cons_iff.mp hBehind
    obtain ⟨c, whole, rfl⟩ := List.exists_cons_of_ne_nil (l := whole) (by rintro rfl; simp at hSome)
    obtain ⟨rfl, rfl⟩ := List.cons.inj hSplit
    rw [takeLexeme_digit (hWhole _ (by simp))]
    simpa using takeNumber_real hPoint hWhole hFits hFraction hStop last
  | mark m => exact takeLexeme_mark hText hLongest last

/-- Where a `Mark` could begin but no lexeme is there, a second character is missing. -/
theorem takeLexeme_expected {c : Located Char} {rest : Text}
    (hBegins : ∃ lexeme, IsLexeme lexeme ∧ lexeme.head? = some c.value)
    (hNone : ∀ lexeme, IsLexeme lexeme → ¬ lexeme <+: chars (c :: rest)) (last : Span) :
    takeLexeme last c.value c.span (items rest) =
      (.error (.expected c.value), ⟨c.span, items rest⟩) := by
  have hAlone : ¬ IsLexeme [c.value] := fun h => hNone _ h ⟨chars rest, rfl⟩
  have hPart : isWordPart c.value = false := by
    by_contra hPart
    exact hAlone (isLexeme_of_isWordPart (by simpa using hPart))
  obtain ⟨lexeme, hLexeme, hHead⟩ := hBegins
  obtain ⟨behind, rfl⟩ := List.head?_eq_some_iff.mp hHead
  obtain ⟨m, hText⟩ := hLexeme.isMark hPart
  -- One character of a mark is not enough here, so it is one of the marks of two.
  rcases m.text_cases with ⟨d, hd, -⟩ | ⟨d, hd, -⟩ | ⟨d, e, hd, hOf, hStart, -⟩
  · obtain ⟨rfl, rfl⟩ := List.cons.inj (hText.symm.trans hd)
    exact absurd hLexeme hAlone
  · obtain ⟨rfl, rfl⟩ := List.cons.inj (hText.symm.trans hd)
    exact absurd hLexeme hAlone
  · obtain ⟨rfl, rfl⟩ := List.cons.inj (hText.symm.trans hd)
    have hLone : Mark.ofLone? c.value = none := by
      by_contra hSome
      obtain ⟨lone, hOf⟩ := Option.ne_none_iff_exists'.mp hSome
      exact hAlone (Mark.text_of_ofLone? hOf ▸ .mark lone)
    match rest with
    | [] => simp [takeLexeme, takeOperator, hOf, hStart, hLone]
    | next :: rest =>
      have hPair : Mark.ofPair? c.value next.value = none := by
        by_contra hSome
        obtain ⟨pair, hOf⟩ := Option.ne_none_iff_exists'.mp hSome
        exact hNone _ (.mark pair) ⟨chars rest, by simp [Mark.text_of_ofPair? hOf]⟩
      simp [takeLexeme, takeOperator, hOf, hStart, hLone, hPair]

theorem takeLexeme_badChar {c : Located Char} {rest : Text}
    (hNone : ∀ lexeme, IsLexeme lexeme → lexeme.head? ≠ some c.value) (last : Span) :
    takeLexeme last c.value c.span (items rest) =
      (.error (.badChar c.value), ⟨last, items (c :: rest)⟩) := by
  -- each way in which a lexeme may begin is ruled out by a lexeme that begins so
  have hOf : Mark.ofChar? c.value = none := by
    by_contra hSome
    obtain ⟨m, hm⟩ := Option.ne_none_iff_exists'.mp hSome
    exact hNone _ (.mark m) (by simp [Mark.text_of_ofChar? hm])
  have hOperator : isOperatorStart c.value = false := by
    by_contra hStart
    obtain ⟨m, behind, hText⟩ := exists_mark_of_isOperatorStart (by simpa using hStart)
    exact hNone _ (.mark m) (by simp [hText])
  have hWord : isWordStart c.value = false := by
    by_contra hStart
    exact hNone [c.value] (.word (.intro (by simpa using hStart) (by simp))) rfl
  have hDigit : c.value.isDigit = false := by
    by_contra hDigit
    exact hNone [c.value] (.integer (by simpa [IsDigits] using hDigit) (by simp)) rfl
  simp [takeLexeme, hOf, hOperator, hWord, hDigit]

/-! ## One request -/

namespace Lexer

/-- Behind a `Gap` the lexer takes a lexeme and delivers what this comes to. -/
theorem next_lexeme {gap rest : Text} {c : Located Char}
    (h : Gap (chars gap) (chars (c :: rest))) (last : Span) :
    ∃ last', (Lexer.mk ⟨last, items (gap ++ c :: rest)⟩ false).next =
      deliver c.span (takeLexeme last' c.value c.span (items rest)).1
        (takeLexeme last' c.value c.span (items rest)).2 := by
  obtain ⟨last', hSkip⟩ := skipGap_gap h last
  exact ⟨last', by simp [next, hSkip]⟩

theorem next_done {gap : Text} (h : Gap (chars gap) []) (last : Span) :
    (Lexer.mk ⟨last, items gap⟩ false).next.1 = none := by
  obtain ⟨last', hSkip⟩ := skipGap_gap (show Gap (chars gap) (chars []) from h) last
  rw [List.append_nil] at hSkip
  simp [next, hSkip]

theorem deliver_token (start last : Span) (t : Token) (rest : Text) :
    deliver start (.ok t) ⟨last, items rest⟩ =
      (some (.ok ⟨t, start.join last⟩), ⟨⟨last, items rest⟩, false⟩) := by
  cases rest <;> rfl

theorem deliver_error (start last : Span) (error : LexError) (rest : Text) :
    (deliver start (.error error) ⟨last, items rest⟩).1 =
      some (.error ⟨error, (rest.head?.map (·.span)).getD last⟩) := by
  cases rest <;> rfl

theorem next_token {gap lexeme rest : Text} {first last : Located Char} {t : Token}
    (hGap : Gap (chars gap) (chars (lexeme ++ rest)))
    (hLongest : Longest (chars lexeme) (chars rest)) (hDenotes : Denotes (chars lexeme) t)
    (hFirst : lexeme.head? = some first) (hLast : lexeme.getLast? = some last) (before : Span) :
    (Lexer.mk ⟨before, items (gap ++ (lexeme ++ rest))⟩ false).next =
      (some (.ok ⟨t, ⟨first.span.start, last.span.stop⟩⟩), ⟨⟨last.span, items rest⟩, false⟩) := by
  obtain ⟨more, rfl⟩ := List.head?_eq_some_iff.mp hFirst
  rw [List.cons_append] at hGap ⊢
  obtain ⟨before', hNext⟩ := next_lexeme hGap before
  have hEnd : lastSpan first.span more = last.span := by
    rw [← lastSpan_cons before]
    simp [lastSpan, hLast]
  rw [hNext, takeLexeme_token hLongest hDenotes, deliver_token, hEnd]
  rfl

theorem next_badChar {gap rest : Text} {c : Located Char}
    (hGap : Gap (chars gap) (chars (c :: rest)))
    (hNone : ∀ lexeme, IsLexeme lexeme → lexeme.head? ≠ some c.value) (before : Span) :
    (Lexer.mk ⟨before, items (gap ++ c :: rest)⟩ false).next.1 =
      some (.error ⟨.badChar c.value, c.span⟩) := by
  obtain ⟨before', hNext⟩ := next_lexeme hGap before
  rw [hNext, takeLexeme_badChar hNone, deliver_error]
  rfl

theorem next_expected {gap rest : Text} {c : Located Char}
    (hGap : Gap (chars gap) (chars (c :: rest)))
    (hBegins : ∃ lexeme, IsLexeme lexeme ∧ lexeme.head? = some c.value)
    (hNone : ∀ lexeme, IsLexeme lexeme → ¬ lexeme <+: chars (c :: rest)) (before : Span) :
    (Lexer.mk ⟨before, items (gap ++ c :: rest)⟩ false).next.1 =
      some (.error ⟨.expected c.value, (rest.head?.getD c).span⟩) := by
  obtain ⟨before', hNext⟩ := next_lexeme hGap before
  rw [hNext, takeLexeme_expected hBegins hNone, deliver_error]
  cases rest <;> rfl

/-- At the digit with which a numeral gets too large the lexer stops for good: it has `failed`. -/
theorem next_overflow {gap digits rest : Text} {d : Located Char}
    (hGap : Gap (chars gap) (chars (digits ++ d :: rest)))
    (hDigits : IsDigits (chars (digits ++ [d])))
    (hFits : Real64.digitsValue (chars digits) ≤ maxInt)
    (hOver : maxInt < Real64.digitsValue (chars (digits ++ [d]))) (before : Span) :
    ∃ last, (Lexer.mk ⟨before, items (gap ++ (digits ++ d :: rest))⟩ false).next =
      (some (.error ⟨.intOverflow, d.span⟩), ⟨⟨last, items (d :: rest)⟩, true⟩) := by
  match digits with
  | [] =>
    have hDigit := digitValue_le (hDigits d.value (by simp))
    simp [digitsValue_eq, maxInt] at hOver
    omega
  | first :: digits =>
    rw [List.cons_append] at hGap ⊢
    obtain ⟨before', hNext⟩ := next_lexeme hGap before
    rw [hNext, takeLexeme_digit (hDigits _ (by simp)), ← List.cons_append,
      takeNumber_intOverflow hDigits hFits hOver]
    exact ⟨_, rfl⟩

theorem next_intOverflow {gap digits rest : Text} {d : Located Char}
    (hGap : Gap (chars gap) (chars (digits ++ d :: rest)))
    (hDigits : IsDigits (chars (digits ++ [d])))
    (hFits : Real64.digitsValue (chars digits) ≤ maxInt)
    (hOver : maxInt < Real64.digitsValue (chars (digits ++ [d]))) (before : Span) :
    (Lexer.mk ⟨before, items (gap ++ (digits ++ d :: rest))⟩ false).next.1 =
      some (.error ⟨.intOverflow, d.span⟩) := by
  obtain ⟨last, hNext⟩ := next_overflow hGap hDigits hFits hOver before
  rw [hNext]

end Lexer

end JumpCode
