import JumpCode.Proofs.Grammar
import JumpCode.Proofs.Lexing.Bytes
import JumpCode.Proofs.Names.Texts

/-!
# JumpCode — texts that are put together

Some texts are known by the tokens that they are made of. Such a text is put together from its end,
one lexeme at a time: a lexeme comes to its token if the next character does not extend it, and
whatever stands behind that is read as it would be alone.

* `LexesTo` — the tokens of a text, wherever it begins;
* `LexesTo.mark`, `LexesTo.word`, `LexesTo.numeral` — one more lexeme in front of a text;
* `LexesTo.brackets` — lengths in brackets are dimensions;
* `LexesTo.scan` — the tokens that are found in the bytes of a text.
-/

namespace JumpCode

/-! ## Texts and their tokens -/

/-- A text has tokens of these values, wherever it begins: `Lexes` holds at every `Position`. -/
def LexesTo (text : List Char) (ts : List Token) : Prop :=
  ∀ p, ∃ tokens, Lexes p text tokens ∧ tokens.map (·.value) = ts

/-- No gap begins with a word or a numeral. -/
theorem not_beginsGap_of_isWordPart {lexeme : List Char} (rest : List Char) (hSome : lexeme ≠ [])
    (hPart : ∀ c ∈ lexeme, isWordPart c) : ¬ BeginsGap (lexeme ++ rest) := by
  obtain ⟨c, more, rfl⟩ := List.exists_cons_of_ne_nil hSome
  have hFirst := hPart c (List.mem_cons_self ..)
  rintro (hBlank | ⟨rfl, -⟩)
  · rw [not_blank_of_isWordPart hFirst] at hBlank
    cases hBlank
  · cases hFirst

/-- A mark that one character decides is no half of a pair. -/
theorem Mark.ofPair?_of_ofChar? {c : Char} {m : Mark} (h : Mark.ofChar? c = some m) (d : Char) :
    Mark.ofPair? c d = none := by
  unfold Mark.ofPair?
  split <;> first | rfl | cases h

namespace LexesTo

variable {lexeme rest : List Char} {t : Token} {ts : List Token}

theorem nil : LexesTo [] [] := fun _ => ⟨[], .nil, rfl⟩

theorem blank {c : Char} (hBlank : isBlank c) (h : LexesTo rest ts) : LexesTo (c :: rest) ts := by
  intro p
  obtain ⟨tokens, hLexes, hValues⟩ := h (p.past c)
  exact ⟨tokens, .blank hBlank hLexes, hValues⟩

/-- One more lexeme in front of a text, if it is the `Longest` there and no gap begins with it. -/
theorem token (hFull : ¬ BeginsGap (lexeme ++ rest)) (hLongest : Longest lexeme rest)
    (hDenotes : Denotes lexeme t) (h : LexesTo rest ts) : LexesTo (lexeme ++ rest) (t :: ts) := by
  intro p
  obtain ⟨tokens, hLexes, hValues⟩ := h (p.through lexeme)
  exact ⟨_ :: tokens, .token hFull hLongest hDenotes hLexes, congrArg (t :: ·) hValues⟩

theorem mark {c : Char} {m : Mark} (hMark : Mark.ofChar? c = some m) (h : LexesTo rest ts) :
    LexesTo (c :: rest) (.mark m :: ts) := by
  have hText : m.text.toList = [c] := Mark.text_of_ofChar? hMark
  have hDenotes : Denotes [c] (.mark m) := hText ▸ .mark m
  have hFull : ¬ BeginsGap ([c] ++ rest) := by
    rintro (hBlank | ⟨rfl, -⟩)
    · rw [hDenotes.not_blank c (List.mem_singleton_self c)] at hBlank
      cases hBlank
    · cases hMark
  exact h.token hFull ((longest_mark_iff hText).mpr fun d _ => Mark.ofPair?_of_ofChar? hMark d)
    hDenotes

theorem word (hWord : IsWord lexeme) (hDenotes : Denotes lexeme t)
    (hEnd : ∀ c ∈ rest.head?, isWordPart c = false) (h : LexesTo rest ts) :
    LexesTo (lexeme ++ rest) (t :: ts) :=
  h.token (not_beginsGap_of_isWordPart rest hDenotes.ne_nil hWord.isWordPart)
    (hWord.longest_iff.mpr hEnd) hDenotes

theorem scalar (b : Scalar) (hEnd : ∀ c ∈ rest.head?, isWordPart c = false) (h : LexesTo rest ts) :
    LexesTo (b.name.toList ++ rest) (.scalar b :: ts) :=
  h.word b.isWord (.scalar b) hEnd

theorem name {text : String} (hName : IsName text)
    (hEnd : ∀ c ∈ rest.head?, isWordPart c = false) (h : LexesTo rest ts) :
    LexesTo (text.toList ++ rest) (.name text :: ts) := by
  have hDenotes : Denotes text.toList (.name (String.ofList text.toList)) :=
    .name hName.word (fun k hSame => hName.keyword k (String.toList_inj.mp hSame))
      fun s hSame => hName.scalar s (String.toList_inj.mp hSame)
  rw [String.ofList_toList] at hDenotes
  exact h.word hName.word hDenotes hEnd

/-- The decimal numeral of a number that is not too large is its literal: `toString` writes digits
of this value. -/
theorem numeral {n : Nat} (hFits : n ≤ maxInt)
    (hEnd : ∀ c ∈ rest.head?, c.isDigit = false ∧ c ≠ '.') (h : LexesTo rest ts) :
    LexesTo ((toString n).toList ++ rest) (.intLiteral n :: ts) := by
  have hText : (toString n).toList = Nat.toDigits 10 n := by
    rw [Nat.toString_eq_ofList_toDigits, String.toList_ofList]
  have hValue : Real64.digitsValue (toString n).toList = n := by
    rw [hText, Real64.digitsValue_toDigits]
  have hDigits : IsDigits (toString n).toList := fun _ hc => isDigit_of_mem_nat hc
  have hSome : (toString n).toList ≠ [] := hText ▸ Nat.toDigits_ne_nil
  have hDenotes : Denotes (toString n).toList (.intLiteral n) := by
    have hLiteral := Denotes.integer hDigits hSome (hValue.le.trans hFits)
    rwa [hValue] at hLiteral
  refine h.token (not_beginsGap_of_isWordPart rest hSome fun c hc => ?_)
    ((longest_integer_iff hDigits hSome).mpr hEnd) hDenotes
  exact isWordPart_of_isDigit (hDigits c hc)

end LexesTo

/-! ## Lengths in brackets -/

/-- Each length in brackets, in order. -/
def brackets (lengths : List Nat) : String :=
  String.join (lengths.map fun n => "[" ++ toString n ++ "]")

theorem toList_brackets_cons (n : Nat) (lengths : List Nat) :
    (brackets (n :: lengths)).toList =
      '[' :: ((toString n).toList ++ ']' :: (brackets lengths).toList) := by
  simp [brackets]

/-- Lengths in brackets do not go on with a word. -/
theorem brackets_head (lengths : List Nat) {rest : List Char}
    (hEnd : ∀ c ∈ rest.head?, isWordPart c = false) :
    ∀ c ∈ ((brackets lengths).toList ++ rest).head?, isWordPart c = false := by
  cases lengths with
  | nil => exact hEnd
  | cons n lengths =>
    rw [toList_brackets_cons]
    intro c hc
    obtain rfl := Option.some.inj hc
    rfl

/-- **Lengths in brackets are dimensions**: the tokens of `dimsTokens`. -/
theorem LexesTo.brackets {lengths : List Nat} {rest : List Char} {ts : List Token}
    (hFits : ∀ n ∈ lengths, n ≤ maxInt) (h : LexesTo rest ts) :
    LexesTo ((brackets lengths).toList ++ rest)
      (dimsTokens (lengths.map Int.ofNat) ++ ts) := by
  induction lengths with
  | nil => exact h
  | cons n lengths ih =>
    have hMore := ih fun m hm => hFits m (List.mem_cons_of_mem n hm)
    rw [toList_brackets_cons, List.cons_append, List.append_assoc]
    refine .mark rfl (.numeral (hFits n (List.mem_cons_self ..)) ?_ (.mark rfl hMore))
    intro c hc
    obtain rfl := Option.some.inj hc
    exact ⟨rfl, by decide⟩

/-! ## Bytes -/

/-- The `Source` of a text, with the bytes of its characters. -/
def Source.ofText (file text : String) : Source := .ofBytes file (encode text.toList)

/-- **The tokens of a text** are found in its bytes, and nothing fails there (`Source.scan_encode`).
-/
theorem LexesTo.scan {text : String} {ts : List Token} (h : LexesTo text.toList ts)
    (file : String) : (Source.ofText file text).scan.tokens.map (·.value) = ts ∧
      (Source.ofText file text).scan.failure = none := by
  obtain ⟨tokens, hLexes, hValues⟩ := h .first
  obtain ⟨hTokens, hFailure⟩ := (Source.scan_encode file).mpr hLexes
  exact ⟨(congrArg _ hTokens).trans hValues, hFailure⟩

end JumpCode
