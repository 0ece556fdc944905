import JumpCode.Proofs.Dumping
import JumpCode.Proofs.Lexing.Stream
import JumpCode.Proofs.Parsing.Language

/-!
# JumpCode — what a report underlines

The carets of a report stand below the line that it quotes. When the tabs of this line are expanded
as a reader sees them, the carets are in the columns of one piece of it: of the token that is to
blame, of the character at which the lexer fails, or of the first column where there is no token.

* `expand` — a line with its tabs expanded;
* `Row.span_piece` — the span of a piece of a line, in columns of the expanded line;
* `Under` — the carets that stand under a piece of a line;
* `report_underlines` — the piece that a report underlines, for each failure to compile a text.
-/

namespace JumpCode

open Text

/-! ## Expanded lines -/

/-- A text with its tabs expanded to stops every four columns, as `Position.after` counts them, from
a column on that is counted from zero. -/
def expand (column : Nat) : List Char → List Char
  | [] => []
  | c :: rest =>
    if c = '\t' then
      List.replicate (4 - column % 4) ' ' ++ expand (column + (4 - column % 4)) rest
    else c :: expand (column + 1) rest

theorem expand_cons (column : Nat) (c : Char) (rest : List Char) :
    expand column (c :: rest) =
      expand column [c] ++ expand (column + (expand column [c]).length) rest := by
  simp only [expand]
  split <;> simp

theorem expand_append (column : Nat) (a b : List Char) :
    expand column (a ++ b) = expand column a ++ expand (column + (expand column a).length) b := by
  induction a generalizing column with
  | nil => rfl
  | cons c a ih =>
    rw [List.cons_append, expand_cons, expand_cons _ c a, ih, List.append_assoc, List.length_append,
      Nat.add_assoc]

theorem expand_ne_nil (column : Nat) {piece : List Char} (h : piece ≠ []) :
    0 < (expand column piece).length := by
  obtain ⟨c, rest, rfl⟩ := List.exists_cons_of_ne_nil h
  simp only [expand]
  split
  · rw [List.length_append, List.length_replicate]
    omega
  · simp

/-- A character reaches as far as `expand` makes it: this is what relates the columns of a
`Position` to those of the expanded line. -/
theorem Position.after_eq (n column : Nat) (c : Char) :
    (Position.mk n (column + 1)).after c = ⟨n, column + (expand column [c]).length + 1⟩ := by
  by_cases hTab : c = '\t'
  · subst hTab
    simp only [after, tab, tabStop, expand, if_true, List.append_nil, List.length_replicate,
      mk.injEq, true_and]
    omega
  · simp [after, advance, expand, hTab]

/-! ## Pieces of a line -/

/-- A character of a `Row` takes the columns that it takes in the expanded line. -/
theorem Row.span_eq {n column : Nat} {line : List Char} {front back : Text} {c : Located Char}
    (h : Row ⟨n, column + 1⟩ line (front ++ c :: back)) :
    c.span = ⟨⟨n, column + (expand column (Text.chars front)).length + 1⟩,
      ⟨n, column + (expand column (Text.chars (front ++ [c]))).length + 1⟩⟩ := by
  induction front generalizing column line with
  | nil =>
    have hStart : c.span.start = ⟨n, column + 1⟩ := h.first c rfl
    have hStop := (endsInPlace_iff (hStart ▸ Nat.le_add_left 1 column)).mp (h.ends c (by simp))
    rw [hStart, Position.after_eq] at hStop
    exact congrArg₂ Span.mk hStart hStop
  -- behind its first character the row is one of a shorter line, which begins further right
  | cons d front ih =>
    cases line with
    | nil =>
      have hLength := congrArg List.length h.chars
      simp [Text.chars] at hLength
    | cons e line =>
      obtain ⟨-, hStart, hEnds, hRow⟩ := row_cons_iff.mp h
      have hStop := (endsInPlace_iff (hStart ▸ Nat.le_add_left 1 column)).mp hEnds
      rw [hStart, Position.after_eq] at hStop
      rw [hStop] at hRow
      have hWidth (rest : List Char) : (expand column (d.value :: rest)).length =
          (expand column [d.value]).length +
            (expand (column + (expand column [d.value]).length) rest).length := by
        rw [expand_cons, List.length_append]
      rw [ih hRow, chars_cons, List.cons_append, chars_cons, hWidth (Text.chars front),
        hWidth (Text.chars (front ++ [c]))]
      simp only [Nat.add_assoc]

/-- The span of a piece of a `Row`, in columns of the expanded line. -/
theorem Row.span_piece {n : Nat} {line : List Char} {front piece back : Text}
    {first last : Located Char} (h : Row ⟨n, 1⟩ line (front ++ (piece ++ back)))
    (hFirst : piece.head? = some first) (hLast : piece.getLast? = some last) :
    first.span.join last.span = ⟨⟨n, (expand 0 (Text.chars front)).length + 1⟩,
      ⟨n, (expand 0 (Text.chars front ++ Text.chars piece)).length + 1⟩⟩ := by
  -- the columns of the first character of the piece, then those of the last
  obtain ⟨more, rfl⟩ := List.head?_eq_some_iff.mp hFirst
  have hStart := h.span_eq
  obtain ⟨before, hBefore⟩ := List.getLast?_eq_some_iff.mp hLast
  rw [hBefore, List.append_assoc, List.singleton_append, ← List.append_assoc] at h
  have hStop := h.span_eq
  rw [Span.join, hStart, hStop, hBefore, ← chars_append, List.append_assoc]
  simp only [Nat.zero_add]

/-! ## Carets -/

/-- Whether carets stand under a piece of a line, in exactly the columns that it takes when `expand`
is applied to the line. The newline that ends the line is a piece too. -/
def Under (marks : Nat × Nat) (line piece : List Char) : Prop :=
  ∃ before after, line ++ ['\n'] = before ++ piece ++ after ∧
    marks = ((expand 0 before).length, (expand (expand 0 before).length piece).length)

/-- Whether a report quotes a line under its number and has a row of carets below it: both behind
margins of the same width, and the carets behind as many blanks as there are columns in front. -/
def Shows (shown : String) (number : Nat) (line : String) (marks : Nat × Nat) : Prop :=
  ∃ heading : String, shown = heading ++ "\n" ++
    toString number ++ " | " ++ line ++ "\n" ++
    String.ofList (List.replicate (toString number).length ' ') ++ " | " ++
    String.ofList (List.replicate marks.1 ' ' ++ List.replicate marks.2 '^') ++
    "\n\nTranslation aborted\n"

/-- Whatever the marks are, `reportMarking` puts them below the line that `quotedLine` takes. -/
theorem shows_reportMarking (marks : Nat × Nat) (name : String) (kept : List String)
    (failure : Located CompileError) :
    Shows (reportMarking marks name kept failure) failure.span.start.line
      (quotedLine kept failure.span.start.line) marks := by
  refine ⟨failure.value.kind ++ ": " ++ failure.value.message ++ "\n --> " ++
    failure.span.render name ++ "\n" ++
    String.ofList (List.replicate (toString failure.span.start.line).length ' ') ++ " |", ?_⟩
  unfold reportMarking
  simp only [String.append_assoc]
  rfl

/-- At least one caret is shown by `underline`. -/
theorem underline_pos (span : Span) : 0 < (underline span).2 := by
  simp only [underline]
  split <;> omega

/-- Whether a span stands on one line, from its first column on. -/
structure Span.OnLine (s : Span) : Prop where
  line : s.stop.line = s.start.line
  start : 1 ≤ s.start.column

/-- The carets of the span of a piece of a `Row` stand under it. -/
theorem Row.under {n : Nat} {line : List Char} {front piece back : Text}
    {first last : Located Char} (h : Row ⟨n, 1⟩ line (front ++ (piece ++ back)))
    (hFirst : piece.head? = some first) (hLast : piece.getLast? = some last) :
    (first.span.join last.span).OnLine ∧
      Under (underline (first.span.join last.span)) line (Text.chars piece) := by
  have hSome : Text.chars piece ≠ [] := by
    rintro hNone
    rw [chars_eq_nil_iff.mp hNone] at hFirst
    cases hFirst
  refine ⟨?_, Text.chars front, Text.chars back, ?_, ?_⟩
  · rw [h.span_piece hFirst hLast]
    exact ⟨rfl, Nat.le_add_left 1 _⟩
  · rw [← h.chars, chars_append, chars_append, List.append_assoc]
  · have hWidth := expand_ne_nil (expand 0 (Text.chars front)).length hSome
    rw [h.span_piece hFirst hLast, expand_append, List.length_append, underline, if_pos rfl,
      Nat.zero_add]
    simp only [Prod.mk.injEq]
    omega

/-! ## Tokens and characters in a text -/

/-- A token of a text that `Splits` is a piece of it, which denotes the token (`Denotes`). -/
theorem Splits.exists_piece {text : Text} {tokens : List (Located Token)}
    {failure : Option (Located LexError)} (h : Splits text tokens failure) :
    ∀ t ∈ tokens, ∃ (front piece back : Text) (first last : Located Char),
      text = front ++ (piece ++ back) ∧ piece.head? = some first ∧ piece.getLast? = some last ∧
        Denotes (Text.chars piece) t.value ∧ t.span = first.span.join last.span := by
  induction h with
  | done | badChar | expected | intOverflow => exact List.forall_mem_nil _
  | @token gap lexeme rest first last t tokens failure _ _ hDenotes hFirst hLast _ ih =>
    refine List.forall_mem_cons.mpr ⟨⟨gap, lexeme, rest, first, last, rfl, hFirst, hLast, hDenotes,
      rfl⟩, fun u hu => ?_⟩
    obtain ⟨front, piece, back, first', last', rfl, hPiece⟩ := ih u hu
    exact ⟨gap ++ (lexeme ++ front), piece, back, first', last', by simp, hPiece⟩

/-- Where no token follows in a text that `Splits`, a character of it is to blame. -/
theorem Splits.exists_char {text : Text} {tokens : List (Located Token)}
    {failure : Located LexError} (h : Splits text tokens (some failure)) :
    failure.value ≠ .input ∧ ∃ c ∈ text, failure.span = c.span := by
  generalize hFailure : some failure = ending at h
  induction h with
  | done => cases hFailure
  | token _ _ _ _ _ _ ih =>
    obtain ⟨hOther, c, hc, hSpan⟩ := ih hFailure
    exact ⟨hOther, c, by simp [hc], hSpan⟩
  | @badChar gap rest c =>
    obtain rfl := Option.some.inj hFailure
    exact ⟨nofun, c, by simp, rfl⟩
  | @expected gap rest c =>
    obtain rfl := Option.some.inj hFailure
    refine ⟨nofun, rest.head?.getD c, ?_, rfl⟩
    cases rest <;> simp
  | @intOverflow gap digits rest d =>
    obtain rfl := Option.some.inj hFailure
    exact ⟨nofun, d, by simp, rfl⟩

/-- Whether a line of a `Source` can be read and is this text. Lines are numbered from one on. -/
def Source.HasLine (s : Source) (number : Nat) (line : String) : Prop :=
  ∃ i, number = i + 1 ∧ s.lines[i]? = some (some line)

section

variable {bytes : List UInt8} {front piece back : Text} {first last : Located Char}

/-- A piece of a text that goes over no end of a line stands on one line (`Span.OnLine`), and the
carets of its span stand `Under` it. -/
theorem Source.under_piece (name : String)
    (h : (Source.ofBytes name bytes).items = Text.items (front ++ (piece ++ back)))
    (hFirst : piece.head? = some first) (hLast : piece.getLast? = some last)
    (hInside : '\n' ∉ Text.chars piece.dropLast) :
    (first.span.join last.span).OnLine ∧
      ∃ line, (Source.ofBytes name bytes).HasLine first.span.start.line line ∧
        Under (underline (first.span.join last.span)) line.toList (Text.chars piece) := by
  -- the row in which the first character of the piece stands
  have hDelivered : Delivered 1 (splitLines bytes) (Source.ofBytes name bytes).items :=
    delivered_iff.mpr rfl
  obtain ⟨more, rfl⟩ := List.head?_eq_some_iff.mp hFirst
  rw [h, items_append, List.cons_append, items_cons] at hDelivered
  obtain @⟨i, line, before, after, later, rest, hLine, hRow, hAfter, -⟩ := hDelivered.inRow rfl
  -- the row goes on at least as far as the piece, whose newline can only be its last character
  obtain ⟨behind, rfl⟩ : ∃ behind, after = more ++ behind := by
    have hText : more ++ back = ofItems (Text.items after ++ rest) := by
      rw [← hAfter, Text.ofItems_items]
    rw [Text.ofItems_append, Text.ofItems_items] at hText
    rcases List.append_eq_append_iff.mp hText with ⟨behind, hMore, -⟩ | ⟨behind, hMore, -⟩
    · exact ⟨behind, hMore⟩
    cases behind with
    | nil => exact ⟨[], by rw [hMore, List.append_nil, List.append_nil]⟩
    | cons c behind =>
      refine absurd ?_ hInside
      have hEnd : '\n' ∈ Text.chars (first :: after) := by
        have hLast := congrArg List.getLast? hRow.chars
        rw [chars_append, List.getLast?_concat, List.getLast?_append_of_ne_nil _ (by simp)] at hLast
        exact List.mem_of_getLast? hLast
      rw [hMore, ← List.cons_append, List.dropLast_append_of_ne_nil (List.cons_ne_nil c behind),
        chars_append]
      exact List.mem_append_left _ hEnd
  rw [← List.cons_append] at hRow
  have hStart := (hRow.ordered.1 first (by simp)).1
  obtain ⟨hOnLine, hUnder⟩ := hRow.under hFirst hLast
  refine ⟨hOnLine, String.ofList line, ?_, ?_⟩
  · refine ⟨i, by rw [hStart, Nat.add_comm], ?_⟩
    rw [Source.ofBytes, List.getElem?_map, hLine, Option.map_some, decodeLine_encode]
  · rw [String.toList_ofList]
    exact hUnder

end

/-! ## Failures -/

/-- What is underlined in a line, if the failure to read a `Source` is shown there: one character if
the lexer fails, one token if not, and the first column of the first line if there is no token. -/
inductive Source.Underlined (s : Source) (failure : Located CompileError) (line : String) : Prop
  | character {cause : LexError} {c : Char} (hCause : failure.value = .lexical cause)
      (hOther : cause ≠ .input)
      (hChar : .char c failure.span ∈ s.items)
      (hLine : s.HasLine failure.span.start.line line)
      (hUnder : Under (underline failure.span) line.toList [c]) : Underlined s failure line
  | token {t : Located Token} {lexeme : List Char}
      (hOther : ∀ cause, failure.value ≠ .lexical cause) (hToken : t ∈ s.scan.tokens)
      (hSpan : failure.span = t.span) (hDenotes : Denotes lexeme t.value)
      (hLine : s.HasLine failure.span.start.line line)
      (hUnder : Under (underline failure.span) line.toList lexeme) : Underlined s failure line
  | nothing (hOther : ∀ cause, failure.value ≠ .lexical cause) (hNone : s.scan.tokens = [])
      (hLine : failure.span.start.line = 1 ∧ line = quotedLine s.texts 1)
      (hFirst : underline failure.span = (0, 1)) : Underlined s failure line

theorem CompileError.About.ne_lexical {error : CompileError} {t : Token} (h : error.About t)
    (cause : LexError) : error ≠ .lexical cause := by
  rintro rfl
  cases h

/-- The tokens of a text, and why they end, are those of its division (`Splits`). -/
theorem Source.splits_encode (name : String) (text : List Char) :
    Splits (locate .first (deliver false text)) (Source.ofBytes name (encode text)).scan.tokens
      (Source.ofBytes name (encode text)).scan.failure := by
  obtain ⟨tokens, failure, hSplits⟩ := (locate .first (deliver false text)).exists_splits
  obtain ⟨rfl, rfl⟩ := Lexer.scan_of_splits hSplits .first
  rw [Source.scan, items_ofBytes_encode]
  exact hSplits

section

variable {name : String} {text : List Char} {failure : Located CompileError}

/-- A token of a text is underlined as a whole (`Source.Underlined`). -/
theorem Source.underlined_token {t : Located Token}
    (hToken : t ∈ (Source.ofBytes name (encode text)).scan.tokens) (hSpan : failure.span = t.span)
    (hOther : ∀ cause, failure.value ≠ .lexical cause) :
    failure.span.OnLine ∧
      ∃ line, (Source.ofBytes name (encode text)).Underlined failure line := by
  obtain ⟨front, piece, back, first, last, hText, hFirst, hLast, hDenotes, hJoin⟩ :=
    (Source.splits_encode name text).exists_piece t hToken
  -- no token goes over the end of a line
  have hInside : '\n' ∉ Text.chars piece.dropLast := fun hMem => hDenotes.not_newline (by
    rw [Text.chars, List.map_dropLast] at hMem
    exact List.dropLast_subset _ hMem)
  obtain ⟨hOnLine, line, hLine, hUnder⟩ :=
    Source.under_piece name (hText ▸ items_ofBytes_encode name text) hFirst hLast hInside
  have hStart : first.span.start = failure.span.start := by rw [hSpan, hJoin]; rfl
  rw [hStart] at hLine
  rw [← hJoin, ← hSpan] at hOnLine hUnder
  exact ⟨hOnLine, line, .token hOther hToken hSpan hDenotes hLine hUnder⟩

/-- The character of a text at which the lexer fails is underlined (`Source.Underlined`). -/
theorem Source.underlined_character {cause : Located LexError}
    (hFailure : (Source.ofBytes name (encode text)).scan.failure = some cause)
    (hSpan : failure.span = cause.span) (hCause : failure.value = .lexical cause.value) :
    failure.span.OnLine ∧
      ∃ line, (Source.ofBytes name (encode text)).Underlined failure line := by
  have hSplits := Source.splits_encode name text
  rw [hFailure] at hSplits
  obtain ⟨hOther, c, hc, hPlace⟩ := hSplits.exists_char
  obtain ⟨front, back, hText⟩ := List.append_of_mem hc
  have hItems := items_ofBytes_encode name text
  have hPiece : (Source.ofBytes name (encode text)).items = Text.items (front ++ ([c] ++ back)) :=
    hText ▸ hItems
  obtain ⟨hOnLine, line, hLine, hUnder⟩ : c.span.OnLine ∧
      ∃ line, (Source.ofBytes name (encode text)).HasLine c.span.start.line line ∧
        Under (underline c.span) line.toList [c.value] :=
    Source.under_piece name hPiece rfl rfl (by simp)
  rw [← hSpan.trans hPlace] at hOnLine hLine hUnder
  refine ⟨hOnLine, line, .character hCause hOther (c := c.value) ?_ hLine hUnder⟩
  rw [hItems, hSpan, hPlace]
  exact Text.mem_items hc

/-- **Whatever the parser blames is underlined**: the cases of `Blamed` are those of
`Source.Underlined`, since a text has no unreadable line. -/
theorem Source.underlined_of_blamed
    (h : Blamed (Source.ofBytes name (encode text)).scan.tokens
      (Source.ofBytes name (encode text)).scan.failure failure) :
    failure.span.OnLine ∧
      ∃ line, (Source.ofBytes name (encode text)).Underlined failure line := by
  cases h with
  | token hToken hAbout => exact Source.underlined_token hToken rfl hAbout.ne_lexical
  -- the last token, if there is one, or else the first column
  | missing hEnd =>
    cases hLast : (Source.ofBytes name (encode text)).scan.tokens.getLast? with
    | some t =>
      have hSpan : lastTokenSpan (Source.ofBytes name (encode text)).scan.tokens = t.span := by
        rw [lastTokenSpan, hLast]
        rfl
      exact Source.underlined_token (List.mem_of_getLast? hLast) hSpan fun _ h => by cases h
    | none =>
      have hNone := List.getLast?_eq_none_iff.mp hLast
      refine ⟨?_, _, .nothing (fun _ h => by cases h) hNone ⟨?_, rfl⟩ ?_⟩
      · rw [hNone]
        exact ⟨rfl, Nat.le_refl 1⟩
      · rw [hNone]
        rfl
      · rw [hNone]
        rfl
  | lexical hFailure => exact Source.underlined_character hFailure rfl rfl

/-- What is underlined is not a line that cannot be read. -/
theorem Source.Underlined.ne_input {s : Source} {line : String} (h : s.Underlined failure line) :
    failure.value ≠ .lexical .input := by
  intro hInput
  cases h with
  | character hCause hOther =>
    rw [hInput] at hCause
    exact hOther (CompileError.lexical.inj hCause).symm
  | token hOther | nothing hOther => exact hOther _ hInput

/-- What is underlined stands in the line that `quotedLine` takes. -/
theorem Source.Underlined.quotedLine {s : Source} {line : String} (h : s.Underlined failure line) :
    JumpCode.quotedLine s.texts failure.span.start.line = line := by
  have hQuoted (hLine : s.HasLine failure.span.start.line line) :
      JumpCode.quotedLine s.texts failure.span.start.line = line := by
    obtain ⟨i, hNumber, hAt⟩ := hLine
    rw [hNumber]
    exact Source.quotedLine_texts hAt
  cases h with
  | character _ _ _ hLine => exact hQuoted hLine
  | token _ _ _ _ hLine => exact hQuoted hLine
  | nothing _ _ hLine => rw [hLine.1, hLine.2]

end

/-- **The underline marks exactly the offending text.** If a text does not compile, its report shows
a line of it with at least one caret below. If it is the lexer that fails, the carets stand under
one character, which may be the end of the line; otherwise under one token, as a whole, or under the
first column of the first line if there is no token at all. What they stand under is where the
failure is placed, and their columns are those that it takes when the tabs of the line are expanded.
-/
theorem report_underlines (name : String) (text : List Char) {failure : Located CompileError}
    (h : (Source.ofBytes name (encode text)).read.outcome = .error (.error failure)) :
    failure.span.OnLine ∧ 0 < (underline failure.span).2 ∧
      ∃ line : String, (Source.ofBytes name (encode text)).Underlined failure line ∧
        Shows ((Source.ofBytes name (encode text)).report failure) failure.span.start.line line
          (underline failure.span) ∧
        ∀ o : Options, o.respond (Source.ofBytes name (encode text)) =
          ⟨o.preface (Source.ofBytes name (encode text)) ++
            (Source.ofBytes name (encode text)).report failure, none⟩ := by
  have hBlamed := blamed_of_read h
  obtain ⟨hOnLine, line, hUnderlined⟩ := Source.underlined_of_blamed hBlamed
  -- no matter how often the lexer has been asked, the report shows this failure
  obtain ⟨-, hReport, hSettled⟩ := Source.shows_of_blamed hBlamed (hUnderlined.ne_input)
  refine ⟨hOnLine, underline_pos _, line, hUnderlined, ?_, fun o => ?_⟩
  · rw [Source.report, hReport, ← hUnderlined.quotedLine]
    exact shows_reportMarking ..
  · rw [Options.respond_of_error o h, Source.report, Options.lexer]
    split
    · rw [hSettled, hReport]
    · rfl

end JumpCode
