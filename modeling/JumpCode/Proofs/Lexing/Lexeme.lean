import JumpCode.Token.Lexer
import Mathlib.Data.List.Basic

/-!
# JumpCode — gaps and lexemes

How a text divides into tokens, said without the lexer: gaps between the lexemes, the words,
numerals and marks that lexemes are, and the token that each denotes. A lexeme is always the longest
at its place.

* `Splits` — the division of a text into tokens, up to the place where no token follows;
* `IsWord.longest_iff`, `longest_integer_iff`, `longest_real_iff`, `longest_mark_iff` — the next
  character alone shows whether a lexeme can go further.
-/

namespace JumpCode

/-! ## Texts -/

/-- A text that can be read throughout: characters, each with the `Span` that it takes. -/
abbrev Text := List (Located Char)

namespace Text

/-- The characters alone. -/
def chars (text : Text) : List Char := text.map (·.value)

/-- What reading the text delivers, as the items of a `Cursor`. -/
def items (text : Text) : List Item := text.map fun c => .char c.value c.span

@[simp] theorem chars_nil : chars [] = [] := rfl
@[simp] theorem chars_cons (c : Located Char) (text : Text) :
    chars (c :: text) = c.value :: chars text := rfl
@[simp] theorem chars_append (a b : Text) : chars (a ++ b) = chars a ++ chars b := by simp [chars]

theorem chars_eq_nil_iff {text : Text} : chars text = [] ↔ text = [] := List.map_eq_nil_iff

theorem chars_eq_cons_iff {text : Text} {c : Char} {rest : List Char} :
    chars text = c :: rest ↔
      ∃ (first : Located Char) (more : Text), text = first :: more ∧ first.value = c ∧
        chars more = rest :=
  List.map_eq_cons_iff

theorem chars_eq_append_iff {text : Text} {a b : List Char} :
    chars text = a ++ b ↔ ∃ x y : Text, text = x ++ y ∧ chars x = a ∧ chars y = b :=
  List.map_eq_append_iff

@[simp] theorem items_nil : items [] = [] := rfl
@[simp] theorem items_cons (c : Located Char) (text : Text) :
    items (c :: text) = .char c.value c.span :: items text := rfl
theorem items_append (a b : Text) : items (a ++ b) = items a ++ items b := by simp [items]

end Text

open Text

/-! ## Gaps -/

/-- Whether a `Gap` would go on with a text: with a blank or with the two slashes of a comment. -/
def BeginsGap : List Char → Prop
  | [] => False
  | c :: rest => isBlank c ∨ c = '/' ∧ rest.head? = some '/'

/-- All of the gap before the rest of a text: blanks, and comments which last from two slashes to
the next newline or to the end of the text. Behind it none of these follows (`BeginsGap`). -/
inductive Gap : (gap rest : List Char) → Prop
  | full {rest} (hFull : ¬ BeginsGap rest) : Gap [] rest
  | blank {c gap rest} (hBlank : isBlank c) (hGap : Gap gap rest) : Gap (c :: gap) rest
  | comment {body gap rest} (hBody : '\n' ∉ body) (hEnd : ∀ c ∈ (gap ++ rest).head?, c = '\n')
      (hGap : Gap gap rest) : Gap ('/' :: '/' :: (body ++ gap)) rest

/-! ## Lexemes -/

/-- A word: letters, digits and underscores, without a digit in front. -/
inductive IsWord : List Char → Prop
  | intro {c rest} (hStart : isWordStart c) (hRest : ∀ d ∈ rest, isWordPart d) : IsWord (c :: rest)

/-- A run of digits. -/
def IsDigits (run : List Char) : Prop := ∀ c ∈ run, c.isDigit

/-- The spelling of some token, or of a numeral that is too large to be one: a word, a numeral with
or without a point, or the text of a `Mark`. -/
inductive IsLexeme : List Char → Prop
  | word {word} (h : IsWord word) : IsLexeme word
  | integer {digits} (hDigits : IsDigits digits) (hSome : digits ≠ []) : IsLexeme digits
  | real {whole fraction} (hWhole : IsDigits whole) (hSome : whole ≠ [])
      (hFraction : IsDigits fraction) : IsLexeme (whole ++ '.' :: fraction)
  | mark (m : Mark) : IsLexeme m.text.toList

/-- Whether a lexeme can go no further: what follows does not extend it to another one that
`IsLexeme`. -/
def Longest (lexeme rest : List Char) : Prop :=
  ∀ longer, longer <+: lexeme ++ rest → IsLexeme longer → longer.length ≤ lexeme.length

/-- What a lexeme denotes. Words that are spelled exactly like a `Keyword` or a `Scalar` are these,
and all others are names. Integers are no greater than `maxInt`, and so are the digits in front of a
point. -/
inductive Denotes : List Char → Token → Prop
  | keyword (word : Keyword) : Denotes word.name.toList (.keyword word)
  | scalar (type : Scalar) : Denotes type.name.toList (.scalar type)
  | name {word} (hWord : IsWord word) (hKeyword : ∀ k : Keyword, word ≠ k.name.toList)
      (hScalar : ∀ s : Scalar, word ≠ s.name.toList) : Denotes word (.name (String.ofList word))
  | integer {digits} (hDigits : IsDigits digits) (hSome : digits ≠ [])
      (hFits : Real64.digitsValue digits ≤ maxInt) :
      Denotes digits (.intLiteral (Real64.digitsValue digits))
  | real {whole fraction} (hWhole : IsDigits whole) (hSome : whole ≠ [])
      (hFits : Real64.digitsValue whole ≤ maxInt) (hFraction : IsDigits fraction) :
      Denotes (whole ++ '.' :: fraction)
        (.realLiteral (.ofDecimal (Real64.digitsValue whole) fraction))
  | mark (m : Mark) : Denotes m.text.toList (.mark m)

/-! ## The division of a text -/

/-- **The division of a text** into tokens, up to the end of the text or to the place where no token
follows, and why there is none. A token takes the longest lexeme behind the gap, from the start of
its first character to the end of its last one. There is none where the next character begins no
lexeme, where it begins some lexemes but none of them is there, or where a run of digits, up to the
one that is next, gets too large. -/
inductive Splits : Text → List (Located Token) → Option (Located LexError) → Prop
  | done {gap} (hGap : Gap (chars gap) []) : Splits gap [] none
  | token {gap lexeme rest : Text} {first last : Located Char} {t : Token}
      {tokens : List (Located Token)} {failure : Option (Located LexError)}
      (hGap : Gap (chars gap) (chars (lexeme ++ rest)))
      (hLongest : Longest (chars lexeme) (chars rest)) (hDenotes : Denotes (chars lexeme) t)
      (hFirst : lexeme.head? = some first) (hLast : lexeme.getLast? = some last)
      (hRest : Splits rest tokens failure) :
      Splits (gap ++ (lexeme ++ rest)) (⟨t, ⟨first.span.start, last.span.stop⟩⟩ :: tokens) failure
  | badChar {gap rest : Text} {c : Located Char} (hGap : Gap (chars gap) (chars (c :: rest)))
      (hNone : ∀ lexeme, IsLexeme lexeme → lexeme.head? ≠ some c.value) :
      Splits (gap ++ c :: rest) [] (some ⟨.badChar c.value, c.span⟩)
  | expected {gap rest : Text} {c : Located Char} (hGap : Gap (chars gap) (chars (c :: rest)))
      (hBegins : ∃ lexeme, IsLexeme lexeme ∧ lexeme.head? = some c.value)
      (hNone : ∀ lexeme, IsLexeme lexeme → ¬ lexeme <+: chars (c :: rest)) :
      Splits (gap ++ c :: rest) [] (some ⟨.expected c.value, (rest.head?.getD c).span⟩)
  | intOverflow {gap digits rest : Text} {d : Located Char}
      (hGap : Gap (chars gap) (chars (digits ++ d :: rest)))
      (hDigits : IsDigits (chars (digits ++ [d])))
      (hFits : Real64.digitsValue (chars digits) ≤ maxInt)
      (hOver : maxInt < Real64.digitsValue (chars (digits ++ [d]))) :
      Splits (gap ++ (digits ++ d :: rest)) [] (some ⟨.intOverflow, d.span⟩)

/-! ## The first character of a lexeme -/

theorem Mark.text_of_ofChar? {c : Char} {m : Mark} (h : Mark.ofChar? c = some m) :
    m.text.toList = [c] := by
  unfold Mark.ofChar? at h
  split at h <;> cases h <;> rfl

theorem Mark.text_of_ofLone? {c : Char} {m : Mark} (h : Mark.ofLone? c = some m) :
    m.text.toList = [c] := by
  unfold Mark.ofLone? at h
  split at h <;> cases h <;> rfl

theorem Mark.text_of_ofPair? {c d : Char} {m : Mark} (h : Mark.ofPair? c d = some m) :
    m.text.toList = [c, d] := by
  unfold Mark.ofPair? at h
  split at h <;> cases h <;> rfl

/-- How the lexer tells marks apart: `Mark.ofChar?` knows those of one character that begin no
other, and for the rest `isOperatorStart` has the next character decide. -/
theorem Mark.text_cases (m : Mark) :
    (∃ c, m.text.toList = [c] ∧ Mark.ofChar? c = some m) ∨
    (∃ c, m.text.toList = [c] ∧ Mark.ofChar? c = none ∧ isOperatorStart c ∧
      Mark.ofLone? c = some m) ∨
    ∃ c d, m.text.toList = [c, d] ∧ Mark.ofChar? c = none ∧ isOperatorStart c ∧
      Mark.ofPair? c d = some m := by
  cases m <;> simp [Mark.text, Mark.ofChar?, Mark.ofLone?, Mark.ofPair?, isOperatorStart]

theorem exists_mark_of_isOperatorStart {c : Char} (h : isOperatorStart c) :
    ∃ (m : Mark) (rest : List Char), m.text.toList = c :: rest := by
  simp only [isOperatorStart, Bool.or_eq_true, beq_iff_eq, or_assoc] at h
  rcases h with rfl | rfl | rfl | rfl | rfl | rfl | rfl
  · exact ⟨.less, [], rfl⟩
  · exact ⟨.greater, [], rfl⟩
  · exact ⟨.assign, [], rfl⟩
  · exact ⟨.not, [], rfl⟩
  · exact ⟨.and, ['&'], rfl⟩
  · exact ⟨.or, ['|'], rfl⟩
  · exact ⟨.slash, [], rfl⟩

theorem Mark.isWordPart_head {m : Mark} {c : Char} {rest : List Char}
    (h : m.text.toList = c :: rest) : isWordPart c = false := by
  cases m <;> simp [Mark.text] at h <;> obtain ⟨rfl, -⟩ := h <;> decide

theorem ofChar?_of_isWordPart {c : Char} (h : isWordPart c) : Mark.ofChar? c = none := by
  by_contra hSome
  obtain ⟨m, hm⟩ := Option.ne_none_iff_exists'.mp hSome
  simp [Mark.isWordPart_head (Mark.text_of_ofChar? hm)] at h

theorem isOperatorStart_of_isWordPart {c : Char} (h : isWordPart c) :
    isOperatorStart c = false := by
  by_contra hStart
  obtain ⟨m, rest, hText⟩ := exists_mark_of_isOperatorStart (by simpa using hStart)
  simp [Mark.isWordPart_head hText] at h

theorem isWordPart_of_isWordStart {c : Char} (h : isWordStart c) : isWordPart c := by
  simp only [isWordStart, isWordPart, Char.isAlphanum, Bool.or_eq_true] at h ⊢
  tauto

theorem isWordPart_of_isDigit {c : Char} (h : c.isDigit) : isWordPart c := by
  simp [isWordPart, Char.isAlphanum, h]

theorem isWordPart_cases {c : Char} (h : isWordPart c) : isWordStart c ∨ c.isDigit := by
  simp only [isWordStart, isWordPart, Char.isAlphanum, Bool.or_eq_true] at h ⊢
  tauto

theorem isWordStart_of_isDigit {c : Char} (h : c.isDigit) : isWordStart c = false := by
  by_contra hStart
  have hDigit : (decide (c.val ≥ 48) && decide (c.val ≤ 57)) = true := h
  have hLetter : (c.isAlpha || c == '_') = true := by
    simpa only [isWordStart, Bool.not_eq_false] using hStart
  have hCases : (decide (c.val ≥ 65 ∧ c.val ≤ 90) ||
      (decide (c.val ≥ 97) && decide (c.val ≤ 122)) || c == '_') = true := hLetter
  simp only [Bool.or_eq_true, Bool.and_eq_true, decide_eq_true_eq, beq_iff_eq] at hDigit hCases
  have hHigh : c.toNat ≤ 57 := hDigit.2
  rcases hCases with (hUpper | hLower) | rfl
  · have hLow : 65 ≤ c.toNat := hUpper.1
    omega
  · have hLow : 97 ≤ c.toNat := hLower.1
    omega
  · exact absurd hHigh (by decide)

/-! ## Lexemes by their first character -/

/-- A character that may stand in a word is a lexeme by itself: a word, or an integer. -/
theorem isLexeme_of_isWordPart {c : Char} (h : isWordPart c) : IsLexeme [c] := by
  rcases isWordPart_cases h with hStart | hDigit
  · exact .word (.intro hStart (by simp))
  · exact .integer (by simpa [IsDigits] using hDigit) (by simp)

theorem isWord_cons {c : Char} {rest : List Char} :
    IsWord (c :: rest) ↔ isWordStart c ∧ ∀ d ∈ rest, isWordPart d := by
  constructor
  · rintro ⟨hStart, hRest⟩
    exact ⟨hStart, hRest⟩
  · exact fun ⟨hStart, hRest⟩ => .intro hStart hRest

theorem IsWord.isWordPart {word : List Char} (h : IsWord word) : ∀ c ∈ word, isWordPart c := by
  obtain ⟨hStart, hRest⟩ := h
  simpa [isWordPart_of_isWordStart hStart] using hRest

theorem IsLexeme.ne_nil {lexeme : List Char} (h : IsLexeme lexeme) : lexeme ≠ [] := by
  cases h with
  | word h => cases h; simp
  | integer _ hSome => exact hSome
  | real => simp
  | mark m => cases m <;> simp [Mark.text]

/-- A lexeme that begins like a word is one. -/
theorem IsLexeme.isWord {c : Char} {rest : List Char} (h : IsLexeme (c :: rest))
    (hStart : isWordStart c) : IsWord (c :: rest) := by
  generalize hText : c :: rest = lexeme at h
  cases h with
  | word h => exact h
  | integer hDigits hSome =>
    subst hText
    simp [isWordStart_of_isDigit (hDigits c (by simp))] at hStart
  | real hWhole hSome =>
    obtain ⟨d, more, rfl⟩ := List.exists_cons_of_ne_nil hSome
    obtain ⟨rfl, -⟩ := List.cons.inj hText
    simp [isWordStart_of_isDigit (hWhole c (by simp))] at hStart
  | mark m =>
    have hPart := isWordPart_of_isWordStart hStart
    simp [m.isWordPart_head hText.symm] at hPart

/-- A lexeme that begins with a digit is a numeral. -/
theorem IsLexeme.isNumeral {c : Char} {rest : List Char} (h : IsLexeme (c :: rest))
    (hDigit : c.isDigit) : IsDigits (c :: rest) ∨
      ∃ whole fraction, c :: rest = whole ++ '.' :: fraction ∧ IsDigits whole ∧
        IsDigits fraction := by
  generalize hText : c :: rest = lexeme at h
  cases h with
  | word h =>
    obtain ⟨hStart, -⟩ := h
    obtain ⟨rfl, -⟩ := List.cons.inj hText
    simp [isWordStart_of_isDigit hDigit] at hStart
  | integer hDigits hSome => exact .inl hDigits
  | real hWhole hSome hFraction => exact .inr ⟨_, _, rfl, hWhole, hFraction⟩
  | mark m =>
    have hPart := isWordPart_of_isDigit hDigit
    simp [m.isWordPart_head hText.symm] at hPart

/-- A lexeme that begins with anything else is a mark. -/
theorem IsLexeme.isMark {c : Char} {rest : List Char} (h : IsLexeme (c :: rest))
    (hPart : isWordPart c = false) : ∃ m : Mark, m.text.toList = c :: rest := by
  generalize hText : c :: rest = lexeme at h
  cases h with
  | word h =>
    obtain ⟨hStart, -⟩ := h
    obtain ⟨rfl, -⟩ := List.cons.inj hText
    simp [isWordPart_of_isWordStart hStart] at hPart
  | integer hDigits hSome =>
    subst hText
    simp [isWordPart_of_isDigit (hDigits c (by simp))] at hPart
  | real hWhole hSome =>
    obtain ⟨d, more, rfl⟩ := List.exists_cons_of_ne_nil hSome
    obtain ⟨rfl, -⟩ := List.cons.inj hText
    simp [isWordPart_of_isDigit (hWhole c (by simp))] at hPart
  | mark m => exact ⟨m, rfl⟩

/-- No token reaches over the end of a line. -/
theorem Denotes.not_newline {lexeme : List Char} {t : Token} (h : Denotes lexeme t) :
    '\n' ∉ lexeme := by
  have hDigits : ∀ {run : List Char}, IsDigits run → '\n' ∉ run :=
    fun hRun h => absurd (hRun _ h) (by decide)
  cases h with
  | keyword k => cases k <;> decide
  | scalar s => cases s <;> decide
  | name hWord => exact fun h => absurd (hWord.isWordPart _ h) (by decide)
  | integer hRun => exact hDigits hRun
  | real hWhole _ _ hFraction => simp [hDigits hWhole, hDigits hFraction]
  | mark m => cases m <;> decide

/-! ## The longest lexeme -/

theorem Longest.not_isLexeme {lexeme rest : List Char} {c : Char}
    (h : Longest lexeme (c :: rest)) : ¬ IsLexeme (lexeme ++ [c]) := by
  intro hLexeme
  have := h _ ⟨rest, by simp⟩ hLexeme
  simp only [List.length_append, List.length_singleton] at this
  omega

/-- What stays in a class of characters does not pass one outside of it. By this a `Longest` word or
numeral ends where the class does. -/
theorem length_le_of_stop (class? : Char → Bool) {longer run rest : List Char}
    (hPrefix : longer <+: run ++ rest) (hAll : ∀ c ∈ longer, class? c)
    (hStop : ∀ c ∈ rest.head?, class? c = false) : longer.length ≤ run.length := by
  by_contra hLonger
  match rest with
  | [] =>
    have := hPrefix.length_le
    simp at this
    omega
  | c :: rest =>
    have hNext : run ++ [c] <+: longer :=
      List.prefix_of_prefix_length_le ⟨rest, by simp⟩ hPrefix (by simp; omega)
    have hIn := hAll c (hNext.subset (by simp))
    simp [hStop c rfl] at hIn

/-- A word is the `Longest` lexeme exactly if no character that could stand in it comes next. -/
theorem IsWord.longest_iff {word rest : List Char} (h : IsWord word) :
    Longest word rest ↔ ∀ c ∈ rest.head?, JumpCode.isWordPart c = false := by
  obtain ⟨hStart, hRest⟩ := h
  constructor
  · intro hLongest c hc
    obtain ⟨rest, rfl⟩ := List.head?_eq_some_iff.mp hc
    by_contra hPart
    refine hLongest.not_isLexeme (.word (.intro hStart ?_))
    simpa [or_imp, forall_and] using ⟨hRest, Bool.of_not_eq_false hPart⟩
  · intro hStop longer hPrefix hLexeme
    match longer with
    | [] => simp
    | c :: longer =>
      obtain ⟨rfl, -⟩ := List.cons_prefix_cons.mp hPrefix
      exact length_le_of_stop JumpCode.isWordPart hPrefix (hLexeme.isWord hStart).isWordPart hStop

/-- An integer is the `Longest` lexeme exactly if neither a digit nor a point comes next. -/
theorem longest_integer_iff {digits rest : List Char} (hDigits : IsDigits digits)
    (hSome : digits ≠ []) :
    Longest digits rest ↔ ∀ c ∈ rest.head?, c.isDigit = false ∧ c ≠ '.' := by
  constructor
  · intro hLongest c hc
    obtain ⟨rest, rfl⟩ := List.head?_eq_some_iff.mp hc
    constructor
    · by_contra hDigit
      refine hLongest.not_isLexeme (.integer ?_ (by simp))
      simpa [IsDigits, or_imp, forall_and] using ⟨hDigits, Bool.of_not_eq_false hDigit⟩
    · rintro rfl
      exact hLongest.not_isLexeme (.real hDigits hSome (by simp [IsDigits]))
  · intro hStop longer hPrefix hLexeme
    obtain ⟨first, more, rfl⟩ := List.exists_cons_of_ne_nil hSome
    match longer with
    | [] => simp
    | c :: longer =>
      obtain ⟨rfl, -⟩ := List.cons_prefix_cons.mp hPrefix
      -- a numeral has digits and a point: neither of them follows
      refine length_le_of_stop (fun c => c.isDigit || c == '.') hPrefix ?_ ?_
      · intro d hd
        rcases hLexeme.isNumeral (hDigits c (by simp)) with h | ⟨whole, fraction, hText, hW, hF⟩
        · simp [h d hd]
        · rw [hText] at hd
          simp only [List.mem_append, List.mem_cons] at hd
          rcases hd with hd | rfl | hd
          · simp [hW d hd]
          · simp
          · simp [hF d hd]
      · intro d hd
        simpa using hStop d hd

/-- Digits end at a point, so the point of a numeral stands in one place. -/
theorem IsDigits.point_unique {a b x y : List Char} (ha : IsDigits a) (hb : IsDigits b)
    (h : a ++ '.' :: x = b ++ '.' :: y) : a = b ∧ x = y := by
  have hRun : ∀ {run : List Char} (rest : List Char), IsDigits run →
      (run ++ '.' :: rest).takeWhile Char.isDigit = run := by
    intro run rest hRun
    simp [List.takeWhile_append_of_pos hRun]
  have hEq : a = b := by rw [← hRun x ha, h, hRun y hb]
  subst hEq
  simpa using h

/-- A numeral with a point is the `Longest` lexeme exactly if no digit comes next. -/
theorem longest_real_iff {whole fraction rest : List Char} (hWhole : IsDigits whole)
    (hSome : whole ≠ []) (hFraction : IsDigits fraction) :
    Longest (whole ++ '.' :: fraction) rest ↔ ∀ c ∈ rest.head?, c.isDigit = false := by
  -- what may follow is decided by the fraction alone: the point has been taken
  constructor
  · intro hLongest c hc
    obtain ⟨rest, rfl⟩ := List.head?_eq_some_iff.mp hc
    by_contra hDigit
    -- a digit behind the fraction would make it a longer one
    have hMore : IsDigits (fraction ++ [c]) := by
      simpa [IsDigits, or_imp, forall_and] using ⟨hFraction, Bool.of_not_eq_false hDigit⟩
    exact hLongest.not_isLexeme (by simpa using IsLexeme.real hWhole hSome hMore)
  · intro hStop longer hPrefix hLexeme
    obtain ⟨first, more, rfl⟩ := List.exists_cons_of_ne_nil hSome
    match longer with
    | [] => simp
    | c :: longer =>
      have hHead := hPrefix
      simp only [List.cons_append, List.cons_prefix_cons] at hHead
      obtain ⟨rfl, -⟩ := hHead
      rcases hLexeme.isNumeral (hWhole c (by simp)) with h | ⟨whole', fraction', hText, hW, hF⟩
      · -- an integer would stop at the point
        have hPrefix' : c :: longer <+: c :: more ++ ('.' :: fraction ++ rest) := by
          simpa using hPrefix
        have := length_le_of_stop Char.isDigit hPrefix' h (by simp)
        simp at this ⊢
        omega
      · -- two points in one text are the same one, so that the fractions are compared
        rw [hText] at hPrefix ⊢
        obtain ⟨after, hAfter⟩ := hPrefix
        obtain ⟨rfl, hRest⟩ := hW.point_unique hWhole (x := fraction' ++ after)
          (y := fraction ++ rest) (by simpa using hAfter)
        have := length_le_of_stop Char.isDigit ⟨after, hRest⟩ hF hStop
        simpa using this

/-- A `Mark` of one character goes on exactly if the next character makes it another mark. -/
theorem longest_mark_iff {m : Mark} {c : Char} {rest : List Char} (h : m.text.toList = [c]) :
    Longest [c] rest ↔ ∀ d ∈ rest.head?, Mark.ofPair? c d = none := by
  constructor
  · intro hLongest d hd
    obtain ⟨rest, rfl⟩ := List.head?_eq_some_iff.mp hd
    by_contra hPair
    obtain ⟨pair, hPair⟩ := Option.ne_none_iff_exists'.mp hPair
    exact hLongest.not_isLexeme (by simpa [Mark.text_of_ofPair? hPair] using IsLexeme.mark pair)
  · intro hStop longer hPrefix hLexeme
    match longer with
    | [] => simp
    | c' :: longer =>
      obtain ⟨rfl, hMore⟩ := List.cons_prefix_cons.mp hPrefix
      obtain ⟨other, hOther⟩ := hLexeme.isMark (m.isWordPart_head h)
      rcases other.text_cases with ⟨d, hText, -⟩ | ⟨d, hText, -⟩ | ⟨d, e, hText, -, -, hPair⟩
      · simp [← hOther, hText]
      · simp [← hOther, hText]
      · obtain ⟨rfl, rfl⟩ := List.cons.inj (hOther.symm.trans hText)
        obtain ⟨after, rfl⟩ := hMore
        simp [hStop e rfl] at hPair

/-- A `Mark` of two characters can go no further. -/
theorem longest_pair {m : Mark} {c d : Char} (h : m.text.toList = [c, d]) (rest : List Char) :
    Longest [c, d] rest := by
  intro longer hPrefix hLexeme
  match longer with
  | [] => simp
  | c' :: longer =>
    obtain ⟨rfl, -⟩ := List.cons_prefix_cons.mp hPrefix
    obtain ⟨other, hOther⟩ := hLexeme.isMark (m.isWordPart_head h)
    rcases other.text_cases with ⟨d, hText, -⟩ | ⟨d, hText, -⟩ | ⟨d, e, hText, -⟩ <;>
      simp [← hOther, hText]

end JumpCode
