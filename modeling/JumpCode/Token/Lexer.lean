import JumpCode.Error
import JumpCode.Text.Source

/-!
# JumpCode — tokens from text

A lexer stands in a stream of items and takes the next token from it on request. Blanks and line
comments are skipped; each token is the longest that the text allows at its place. Whether a token
is complete shows only in the item after it, so a line that cannot be read right behind a token
swallows it. After the first failure no token follows any more.

* `Lexer.length_next_lt` — each token takes at least one item from the stream;
* `Lexer.scan` — all tokens up to the first failure or the end.
-/

namespace JumpCode

/-! ## Characters -/

/-- Whether a character separates tokens: space, tab, newline, form feed or carriage return.
`skipGap` passes over them. -/
def isBlank (c : Char) : Bool :=
  c == ' ' || c == '\t' || c == '\n' || c == '\x0c' || c == '\r'

/-- Whether a word may begin with a character: an ASCII letter or the underscore. -/
def isWordStart (c : Char) : Bool := c.isAlpha || c == '_'

/-- Whether a word may go on with a character: an ASCII letter or digit, or the underscore. -/
def isWordPart (c : Char) : Bool := c.isAlphanum || c == '_'

/-- The `Mark` that a character is by itself, whatever follows. -/
def Mark.ofChar? : Char → Option Mark
  | ';' => some semicolon
  | '+' => some plus
  | '-' => some minus
  | '*' => some times
  | '(' => some openParen
  | ')' => some closeParen
  | '\x7b' => some openCurly
  | '\x7d' => some closeCurly
  | '[' => some openSquare
  | ']' => some closeSquare
  | _ => none

/-- Whether a character begins a `Mark` that a second character may extend (`Mark.ofPair?`). -/
def isOperatorStart (c : Char) : Bool :=
  c == '<' || c == '>' || c == '=' || c == '!' || c == '&' || c == '|' || c == '/'

/-- The `Mark` of two characters, if they are one. -/
def Mark.ofPair? : Char → Char → Option Mark
  | '<', '=' => some lessOrEqual
  | '>', '=' => some greaterOrEqual
  | '=', '=' => some equal
  | '!', '=' => some notEqual
  | '&', '&' => some and
  | '|', '|' => some or
  | _, _ => none

/-- The `Mark` of a character that could be extended but is not, if it is one. -/
def Mark.ofLone? : Char → Option Mark
  | '<' => some less
  | '>' => some greater
  | '=' => some assign
  | '!' => some not
  | '/' => some slash
  | _ => none

/-! ## Runs of characters -/

/-- A place in a stream: the span of the last character taken, and the items that remain. -/
structure Cursor where
  last : Span
  rest : List Item
deriving DecidableEq, Repr

/-- Skips blanks and comments. A comment begins with two slashes and lasts to the end of its line;
an item that cannot be read ends the gap. -/
def skipGap (inComment : Bool) (last : Span) : List Item → Cursor
  | [] => ⟨last, []⟩
  | .unreadable :: rest => ⟨last, .unreadable :: rest⟩
  | .char c span :: rest =>
    if inComment then skipGap (c != '\n') span rest
    else if isBlank c then skipGap false span rest
    else
      match c, rest with
      | '/', .char '/' span' :: rest' => skipGap true span' rest'
      | _, _ => ⟨last, .char c span :: rest⟩

/-- Takes the longest run of characters of a class, for words and for the digits behind a point. -/
def takeRun (class? : Char → Bool) (last : Span) : List Item → List Char × Cursor
  | .char c span :: rest =>
    if class? c then
      let (run, cursor) := takeRun class? span rest
      (c :: run, cursor)
    else ([], ⟨last, .char c span :: rest⟩)
  | rest => ([], ⟨last, rest⟩)

/-- Takes decimal digits after a numeral of this value, as long as the value does not pass `maxInt`.
It stops before a digit exactly if that one would. -/
def takeNumeral (value : Nat) (last : Span) : List Item → Nat × Cursor
  | .char c span :: rest =>
    if c.isDigit && 10 * value + Real64.digitValue c ≤ maxInt then
      takeNumeral (10 * value + Real64.digitValue c) span rest
    else (value, ⟨last, .char c span :: rest⟩)
  | rest => (value, ⟨last, rest⟩)

/-! ## Lexemes -/

/-- Takes a number. A point makes it real, also with no digit behind; the digits in front of a point
have to fit in `maxInt` all the same. -/
def takeNumber (cursor : Cursor) : Except LexError Token × Cursor :=
  let (value, cursor) := takeNumeral 0 cursor.last cursor.rest
  match cursor.rest with
  | .char c span :: rest =>
    if c == '.' then
      let (fraction, cursor) := takeRun Char.isDigit span rest
      (.ok (.realLiteral (.ofDecimal value fraction)), cursor)
    else if c.isDigit then (.error .intOverflow, cursor)
    else (.ok (.intLiteral value), cursor)
  | _ => (.ok (.intLiteral value), cursor)

/-- Takes what an operator that begins with `c`, just taken, goes on with. -/
def takeOperator (c : Char) (cursor : Cursor) : Except LexError Token × Cursor :=
  let lone : Except LexError Token × Cursor :=
    match Mark.ofLone? c with
    | some mark => (.ok (.mark mark), cursor)
    | none => (.error (.expected c), cursor)
  match cursor.rest with
  | .char d span :: rest =>
    match Mark.ofPair? c d with
    | some mark => (.ok (.mark mark), ⟨span, rest⟩)
    | none => lone
  | _ => lone

/-- Takes the lexeme that begins with the character `c` before `rest`. A character that begins none
(`LexError.badChar`) is left in the stream. -/
def takeLexeme (last : Span) (c : Char) (span : Span) (rest : List Item) :
    Except LexError Token × Cursor :=
  match Mark.ofChar? c with
  | some mark => (.ok (.mark mark), ⟨span, rest⟩)
  | none =>
    if isOperatorStart c then takeOperator c ⟨span, rest⟩
    else if isWordStart c then
      let (run, cursor) := takeRun isWordPart span rest
      (.ok (.ofWord (String.ofList (c :: run))), cursor)
    else if c.isDigit then takeNumber ⟨last, .char c span :: rest⟩
    else (.error (.badChar c), ⟨last, .char c span :: rest⟩)

/-! ## The lexer -/

/-- A lexer: its place in the stream, and whether it has failed. `Lexer.next` goes from one to the
next. -/
structure Lexer where
  cursor : Cursor
  failed : Bool
deriving DecidableEq, Repr

namespace Lexer

/-- A lexer at the start of a stream, which has not failed. -/
def ofItems (items : List Item) : Lexer := ⟨⟨.first, items⟩, false⟩

/-- What a request gives: a token, a failure, or nothing, each of the first two with its place. -/
abbrev Answer := Option (Except (Located LexError) (Located Token))

/-- A failure at a cursor. It is placed at the next character, or at the last one taken if no
character is next; this is how the line that cannot be read gets a place at all. -/
def fail (error : LexError) (cursor : Cursor) : Answer × Lexer :=
  let span :=
    match cursor.rest with
    | .char _ span :: _ => span
    | _ => cursor.last
  (some (.error ⟨error, span⟩), ⟨cursor, true⟩)

/-- What a lexeme that has been taken amounts to, once the item behind it is seen. An unreadable
line there takes the token's place. -/
def deliver (start : Span) (result : Except LexError Token) (cursor : Cursor) : Answer × Lexer :=
  match cursor.rest, result with
  | .unreadable :: rest, _ => fail .input ⟨cursor.last, rest⟩
  | _, .error error => fail error cursor
  | _, .ok token => (some (.ok ⟨token, start.join cursor.last⟩), ⟨cursor, false⟩)

/-- Asks for the next token. A lexer that has failed reports only lines that cannot be read, and
only as long as one comes next. -/
def next (lexer : Lexer) : Answer × Lexer :=
  let cursor :=
    if lexer.failed then lexer.cursor else skipGap false lexer.cursor.last lexer.cursor.rest
  match cursor.rest with
  | [] => (none, ⟨cursor, lexer.failed⟩)
  | .unreadable :: rest => fail .input ⟨cursor.last, rest⟩
  | .char c span :: rest =>
    if lexer.failed then (none, lexer)
    else
      let (result, cursor) := takeLexeme cursor.last c span rest
      deliver span result cursor

end Lexer

/-! ## Progress -/

/-- `skipGap` only takes items away. -/
theorem length_skipGap_le (inComment : Bool) (last : Span) (items : List Item) :
    (skipGap inComment last items).rest.length ≤ items.length := by
  fun_induction skipGap inComment last items <;> simp_all <;> omega

/-- `takeRun` only takes items away. -/
theorem length_takeRun_le (class? : Char → Bool) (last : Span) (items : List Item) :
    (takeRun class? last items).2.rest.length ≤ items.length := by
  fun_induction takeRun class? last items <;> simp_all
  omega

/-- `takeNumeral` only takes items away. -/
theorem length_takeNumeral_le (value : Nat) (last : Span) (items : List Item) :
    (takeNumeral value last items).2.rest.length ≤ items.length := by
  fun_induction takeNumeral value last items <;> simp_all
  omega

/-- The first digit of a numeral always fits, so that `takeNumeral` takes it. -/
theorem length_takeNumeral_lt {c : Char} (h : c.isDigit) (last span : Span) (items : List Item) :
    (takeNumeral 0 last (.char c span :: items)).2.rest.length ≤ items.length := by
  have hValue : 10 * 0 + Real64.digitValue c ≤ maxInt := by
    simp only [Char.isDigit, Bool.and_eq_true, decide_eq_true_eq] at h
    have hLe : c.toNat ≤ 57 := h.2
    simp only [Real64.digitValue, maxInt]
    omega
  simp only [takeNumeral, h, hValue, decide_true, Bool.and_self, if_true]
  exact length_takeNumeral_le ..

/-- `takeNumber` takes the digit that a number begins with. -/
theorem length_takeNumber_le {c : Char} (h : c.isDigit) (last span : Span) (items : List Item) :
    (takeNumber ⟨last, .char c span :: items⟩).2.rest.length ≤ items.length := by
  have hLe := length_takeNumeral_lt h last span items
  simp only [takeNumber]
  split
  · rename_i d dSpan rest hRest
    have hRun := length_takeRun_le Char.isDigit dSpan rest
    rw [hRest, List.length_cons] at hLe
    split
    · exact Nat.le_trans hRun (by omega)
    · split <;> simp only [hRest, List.length_cons] <;> omega
  · exact hLe

/-- `takeOperator` only takes items away. -/
theorem length_takeOperator_le (c : Char) (cursor : Cursor) :
    (takeOperator c cursor).2.rest.length ≤ cursor.rest.length := by
  simp only [takeOperator]
  split
  · rename_i hRest
    split
    · simp [hRest]
    · split <;> simp
  · split <;> simp

/-- A lexeme that makes a token takes its first character at least. -/
theorem length_takeLexeme_le {last span : Span} {c : Char} {rest : List Item} {token : Token}
    (h : (takeLexeme last c span rest).1 = .ok token) :
    (takeLexeme last c span rest).2.rest.length ≤ rest.length := by
  revert h
  simp only [takeLexeme]
  split
  · simp
  · split
    · exact fun _ => length_takeOperator_le ..
    · split
      · exact fun _ => length_takeRun_le ..
      · split
        · rename_i hDigit
          exact fun _ => length_takeNumber_le hDigit ..
        · simp

namespace Lexer

/-- **Each token takes at least one item from the stream**, which is why `Lexer.scan` comes to an
end. -/
theorem length_next_lt {lexer after : Lexer} {token : Located Token}
    (h : lexer.next = (some (.ok token), after)) :
    after.cursor.rest.length < lexer.cursor.rest.length := by
  revert h
  simp only [next]
  split
  · simp
  · simp [fail]
  · rename_i c span rest hRest
    split
    · simp
    · rename_i hFailed
      simp only [hFailed, Bool.false_eq_true, if_false] at hRest ⊢
      have hGap := length_skipGap_le false lexer.cursor.last lexer.cursor.rest
      rw [hRest, List.length_cons] at hGap
      simp only [deliver]
      split
      · simp [fail]
      · simp [fail]
      · rename_i hToken _
        intro h
        obtain ⟨-, rfl⟩ := Prod.mk.inj h
        have := length_takeLexeme_le hToken
        simp only
        omega

end Lexer

/-! ## All tokens -/

/-- What lexing gives up to its first failure, and the `Lexer` then. -/
structure Scan where
  tokens : List (Located Token)
  failure : Option (Located LexError)
  lexer : Lexer

namespace Lexer

/-- Takes all tokens up to the first failure or the end of the text, by asking for one after the
other. -/
def scan (lexer : Lexer) : Scan :=
  match _h : lexer.next with
  | (none, after) => ⟨[], none, after⟩
  | (some (.error error), after) => ⟨[], some error, after⟩
  | (some (.ok token), after) =>
    let scan := after.scan
    { scan with tokens := token :: scan.tokens }
termination_by lexer.cursor.rest.length
decreasing_by exact length_next_lt _h

/-- The lexer that a failed one becomes by requests, made until it answers nothing: all unreadable
lines that come next are passed. -/
def settle (lexer : Lexer) : Lexer :=
  ⟨⟨lexer.cursor.last, lexer.cursor.rest.dropWhile (· == .unreadable)⟩, lexer.failed⟩

/-- A request to a failed lexer does not change where it settles. -/
theorem settle_next {lexer : Lexer} (h : lexer.failed) : lexer.next.2.settle = lexer.settle := by
  obtain ⟨⟨last, rest⟩, failed⟩ := lexer
  obtain rfl : failed = true := h
  match rest with
  | [] => rfl
  | .unreadable :: rest => simp [next, fail, settle]
  | .char c span :: rest => rfl

/-- How many items of a stream of `total` have been asked for. After an answer the lexer has looked
at the item that is next, if there is one. By this count `Source.kept` knows which lines can be
quoted. -/
def asked (lexer : Lexer) (total : Nat) : Nat :=
  min (total - lexer.cursor.rest.length + 1) total

end Lexer

end JumpCode
