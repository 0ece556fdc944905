import JumpCode.Proofs.Lexing.Words
import JumpCode.Proofs.Parsing.Displacement
import JumpCode.Proofs.Underlines

/-!
# JumpCode — reports that are printed

`report_underlines` says what the report of a failure marks, with places that are counted without a
limit and a row of carets of any width. A program has limits: it counts lines and columns with words
of 32 bits (`Source.readInWords`), and it pads no stretch of a report beyond `maxPadding`
(`Source.printReport`).

It fails where it should, in a place that is exact modulo 2^32. As long as the line can be counted
and neither the blanks nor the carets are too many, it prints the very report of
`report_underlines`.

* `Source.readInWords_alike` — the same program, or the same failure modulo 2^32;
* `Source.printReport_of_narrow` — a report that is narrow enough is printed as it is;
* `report_underlines_inWords` — what a printed report underlines;
* `report_underlines_limited` — three texts that are beyond the limits.
-/

namespace JumpCode

open Text

/-! ## Reading in words -/

/-- **A source is read in the same way in words**: the same program comes out, or the same error in
a place that is exact modulo 2^32, with the same messages. -/
theorem Source.readInWords_alike (s : Source) :
    Outcome.Alike (fun span place => place = span.moved Position.wrapped) s.read.outcome
        s.readInWords.outcome ∧
      s.read.log = s.readInWords.log := by
  rw [Source.readInWords, Source.scanInWords_eq]
  refine readTokens_alike rfl ?_ ?_
  · rw [List.forall₂_map_right_iff]
    exact List.forall₂_same.mpr fun t _ => ⟨rfl, rfl⟩
  · cases s.scan.failure with
    | none => exact .none
    | some failure => exact .some ⟨rfl, rfl⟩

/-- What is printed depends on how many items have been asked for, which is the same in words:
moving places changes none of `Lexer.asked`. -/
theorem Source.printReport_eq (s : Source) (failure : Located CompileError) :
    s.printReport failure =
      JumpCode.printReport s.name (s.kept (s.scan.lexer.asked s.items.length)) failure := by
  have hAsked (lexer : Lexer) (total : Nat) :
      (lexer.moved Position.wrapped).asked total = lexer.asked total := by
    simp only [Lexer.asked, Lexer.moved, Cursor.moved, List.length_map]
  rw [Source.printReport, Source.scanInWords_eq, Source.length_itemsInWords, hAsked]

/-- **A report is printed as it is**, if neither its blanks nor its carets are more than
`maxPadding`. -/
theorem Source.printReport_of_narrow (s : Source) {failure : Located CompileError}
    (hOnLine : failure.span.OnLine) (hSkipped : (underline failure.span).1 ≤ maxPadding)
    (hMarked : (underline failure.span).2 ≤ maxPadding) :
    s.printReport failure = .ok (s.report failure) := by
  rw [Source.printReport_eq]
  exact JumpCode.printReport_of_narrow _ _ hOnLine.start hSkipped hMarked hOnLine.line

/-- A `Span` on a line that can be counted is the same in words, if it is narrow: `maxPadding` is
far less than words can count. -/
theorem Span.moved_of_narrow {span : Span} (hOnLine : span.OnLine)
    (hLine : span.start.line < UInt32.size) (hSkipped : (underline span).1 ≤ maxPadding)
    (hMarked : (underline span).2 ≤ maxPadding) : span.moved Position.wrapped = span := by
  simp only [underline, if_pos hOnLine.line, maxPadding] at hSkipped hMarked
  have hStart : span.start.Fits := ⟨hLine, by simp only [UInt32.size]; omega⟩
  have hStop : span.stop.Fits := ⟨hOnLine.line ▸ hLine, by simp only [UInt32.size]; omega⟩
  exact congrArg₂ Span.mk (Position.toPosition_inWords hStart) (Position.toPosition_inWords hStop)

/-! ## What is underlined -/

/-- **The underline marks exactly the offending text**, as long as it can be printed. If a program
that counts with words refuses a text, it does so for a failure whose exact place is underlined,
with at least one caret: one character where the lexer fails, one token as a whole where it does
not, or the first column of the first line if there is no token. It reports this place modulo 2^32.
If the number of its line is in the range of words, and there are at most `maxPadding` columns in
front of the carets and as many below them, it reports this place itself, and prints the line with
the carets there. -/
theorem report_underlines_inWords (name : String) (text : List Char) {stop : Stop}
    (h : (Source.ofBytes name (encode text)).readInWords.outcome = .error stop) :
    ∃ (failure : Located CompileError) (line : String),
      (Source.ofBytes name (encode text)).read.outcome = .error (.error failure) ∧
      stop = .error (failure.moved Position.wrapped) ∧
      (Source.ofBytes name (encode text)).Underlined failure line ∧
      0 < (underline failure.span).2 ∧
      (failure.span.start.line < UInt32.size → (underline failure.span).1 ≤ maxPadding →
        (underline failure.span).2 ≤ maxPadding →
        stop = .error failure ∧ ∃ shown : String,
          (Source.ofBytes name (encode text)).printReport failure = .ok shown ∧
          Shows shown failure.span.start.line line (underline failure.span) ∧
          ∀ o : Options, o.respond (Source.ofBytes name (encode text)) =
            ⟨o.preface (Source.ofBytes name (encode text)) ++ shown, none⟩) := by
  -- counting in words moves the places of a failure and nothing else
  obtain ⟨hAlike, -⟩ := (Source.ofBytes name (encode text)).readInWords_alike
  rw [h] at hAlike
  generalize hExact : (Source.ofBytes name (encode text)).read.outcome = outcome at hAlike
  cases hAlike with
  | @error error span place hPlace =>
    subst hPlace
    -- so the failure that is counted without bound is underlined as it is
    obtain ⟨hOnLine, hSome, line, hUnderlined, hShows, hResponds⟩ :=
      report_underlines name text hExact
    refine ⟨⟨error, span⟩, line, rfl, rfl, hUnderlined, hSome, fun hLine hSkipped hMarked => ?_⟩
    refine ⟨?_, _, Source.printReport_of_narrow _ hOnLine hSkipped hMarked, hShows, hResponds⟩
    -- on a narrow line the columns are words, and the margins can be printed
    rw [Span.moved_of_narrow hOnLine hLine hSkipped hMarked]

/-- The name behind a tab stands in the fifth column, and so does the caret that is printed below.
-/
theorem report_underlines_inWords_sample :
    ∃ line shown, (Source.ofBytes "sample" (encode "\x7b\n\tx = 1;\n\x7d".toList)).printReport
        ⟨.semantic (.undeclared "x"), ⟨⟨2, 5⟩, ⟨2, 6⟩⟩⟩ = .ok shown ∧
      Shows shown 2 line (4, 1) ∧
      (Source.ofBytes "sample" (encode "\x7b\n\tx = 1;\n\x7d".toList)).Underlined
        ⟨.semantic (.undeclared "x"), ⟨⟨2, 5⟩, ⟨2, 6⟩⟩⟩ line := by
  have hRead :
      (Source.ofBytes "sample" (encode "\x7b\n\tx = 1;\n\x7d".toList)).readInWords.outcome =
        .error (.error ⟨.semantic (.undeclared "x"), ⟨⟨2, 5⟩, ⟨2, 6⟩⟩⟩) :=
    Reading.outcome_of_failure? (by decide +kernel)
  have hExact : (Source.ofBytes "sample" (encode "\x7b\n\tx = 1;\n\x7d".toList)).read.outcome =
      .error (.error ⟨.semantic (.undeclared "x"), ⟨⟨2, 5⟩, ⟨2, 6⟩⟩⟩) :=
    Reading.outcome_of_failure? (by decide +kernel)
  obtain ⟨failure, line, hFailure, -, hUnderlined, -, hPrinted⟩ :=
    report_underlines_inWords _ _ hRead
  obtain rfl := Stop.error.inj (Except.error.inj (hExact.symm.trans hFailure))
  obtain ⟨-, shown, hPrints, hShows, -⟩ := hPrinted (by decide) (by decide) (by decide)
  exact ⟨line, shown, hPrints, hShows, hUnderlined⟩

/-! ## Beyond the limits -/

/-- A text whose lines are blank up to a character that begins no token: all its failures are at
this character. -/
def stray (gap : List Char) : List Char := gap ++ ['#'] ++ ['\n']

theorem not_isLexeme_hash (lexeme : List Char) (h : IsLexeme lexeme) :
    lexeme.head? ≠ some '#' := by
  intro hHead
  obtain ⟨rest, rfl⟩ := List.head?_eq_some_iff.mp hHead
  obtain ⟨m, hMark⟩ := h.isMark (by decide)
  cases m <;> simp [Mark.text] at hMark

theorem gap_of_blank {gap rest : List Char} (hBlank : ∀ c ∈ gap, isBlank c)
    (hFull : ¬ BeginsGap rest) : Gap gap rest := by
  induction gap with
  | nil => exact .full hFull
  | cons c gap ih =>
    obtain ⟨hFirst, hMore⟩ := List.forall_mem_cons.mp hBlank
    exact .blank hFirst (ih hMore)

section

variable {gap : List Char} (hBlank : ∀ c ∈ gap, isBlank c) (hReturn : '\r' ∉ gap)

include hBlank hReturn

/-- Such a text is refused at this character, in the place where the blanks end
(`Position.through`). -/
theorem Source.read_stray (name : String) :
    (Source.ofBytes name (encode (stray gap))).read.outcome =
      .error (.error ⟨.lexical (.badChar '#'),
        ⟨Position.first.through gap, (Position.first.through gap).advance⟩⟩) := by
  have hText : deliver false (stray gap) = gap ++ ['#', '\n'] := by
    have hNone : '\r' ∉ gap ++ ['#'] := by simp [hReturn]
    rw [stray, deliver_ended hNone, List.append_assoc]
    rfl
  have hFull : ¬ BeginsGap ['#', '\n'] := by
    rintro (hBegins | ⟨hSlash, -⟩)
    · exact absurd hBegins (by decide)
    · exact absurd hSlash (by decide)
  -- the division of the text ends at the character, behind the gap
  have hSplits : Splits (locate .first gap ++ locate (Position.first.through gap) ['#', '\n']) []
      (some ⟨.badChar '#',
        ⟨Position.first.through gap, (Position.first.through gap).advance⟩⟩) := by
    refine .badChar (c := ⟨'#', _⟩) ?_ not_isLexeme_hash
    rw [chars_locate, chars_cons, chars_locate]
    exact gap_of_blank hBlank hFull
  obtain ⟨hTokens, hFailure⟩ := Lexer.scan_of_splits hSplits .first
  rw [← locate_append, ← hText, ← items_ofBytes_encode name] at hTokens hFailure
  rw [Source.read]
  show (readTokens (Source.ofBytes name (encode (stray gap))).scan.tokens
    (Source.ofBytes name (encode (stray gap))).scan.failure).outcome = _
  rw [show (Source.ofBytes name (encode (stray gap))).scan.tokens = [] from hTokens,
    show (Source.ofBytes name (encode (stray gap))).scan.failure = _ from hFailure]
  rfl

/-- In words it is refused at the same character, in a place modulo 2^32. -/
theorem Source.readInWords_stray (name : String) :
    (Source.ofBytes name (encode (stray gap))).readInWords.outcome =
      .error (.error ⟨.lexical (.badChar '#'), Span.moved Position.wrapped
        ⟨Position.first.through gap, (Position.first.through gap).advance⟩⟩) := by
  obtain ⟨hAlike, -⟩ := (Source.ofBytes name (encode (stray gap))).readInWords_alike
  rw [Source.read_stray hBlank hReturn] at hAlike
  generalize (Source.ofBytes name (encode (stray gap))).readInWords.outcome = outcome at hAlike ⊢
  cases hAlike with
  | error error hPlace => rw [hPlace]

end

/-- Whether a report is printed for a failure of the lexer whose carets stand under no character of
the line that is quoted. -/
def Source.Misses (s : Source) : Prop :=
  ∃ (failure : Located CompileError) (cause : LexError) (shown line : String) (marks : Nat × Nat),
    s.readInWords.outcome = .error (.error failure) ∧ failure.value = .lexical cause ∧
      s.printReport failure = .ok shown ∧ s.HasLine failure.span.start.line line ∧
      Shows shown failure.span.start.line line marks ∧ ∀ c, ¬ Under marks line.toList [c]

/-- The first line of a text is the first one of its source. -/
theorem Source.lines_encode (name : String) {line : List Char} (rest : List Char)
    (hNewline : '\n' ∉ line) (hReturn : '\r' ∉ line) :
    ∃ more, (Source.ofBytes name (encode (line ++ '\n' :: rest))).lines =
      some (String.ofList line) :: more := by
  have hBytes : 10 ∉ encode line := fun h => hNewline (newline_of_mem_encode h)
  have hWhole : chomp '\r' line = line :=
    chomp_of_getLast? fun h => hReturn (List.mem_of_getLast? h)
  refine ⟨(splitLines (encode rest)).map decodeLine, ?_⟩
  show (splitLines (encode (line ++ '\n' :: rest))).map decodeLine = _
  rw [encode_append, show encode ('\n' :: rest) = 10 :: encode rest from rfl,
    splitLines_line hBytes, List.map_cons, chomp_encode, decodeLine_encode, hWhole]

/-- Once something has been asked for, the first line can be quoted (`quotedLine`). -/
theorem Source.quotedLine_first {s : Source} {line : String} {more : List (Option String)}
    (h : s.lines = some line :: more) {asked : Nat} (hSome : asked ≠ 0) :
    quotedLine (s.kept asked) 1 = line := by
  obtain ⟨asked, rfl⟩ := Nat.exists_eq_succ_of_ne_zero hSome
  rw [Source.kept, h]
  rfl

/-- Where the words are back on the first line, it is quoted, and one caret stands below it. If no
character of it is `Under` the caret, the report `Misses`. -/
theorem Source.misses_of_wrapped (name : String) {gap : List Char} (line rest : List Char)
    (column : Nat) (hBlank : ∀ c ∈ gap, isBlank c) (hReturn : '\r' ∉ gap)
    (hText : stray gap = line ++ '\n' :: rest) (hNewline : '\n' ∉ line)
    (hPlace : (Position.first.through gap).wrapped = ⟨1, column + 1⟩)
    (hColumn : column ≤ maxPadding) (hNot : ∀ c, ¬ Under (column, 1) line [c]) :
    (Source.ofBytes name (encode (stray gap))).Misses := by
  -- the failure in words, and its two columns
  have hStop : (Position.first.through gap).advance.wrapped = ⟨1, column + 2⟩ := by
    have hFits : (Position.first.through gap).wrapped.column + 1 < UInt32.size := by
      rw [hPlace]
      simp only [maxPadding, UInt32.size] at hColumn ⊢
      omega
    rw [Position.advance_wrapped hFits, hPlace]
    rfl
  have hRead := Source.readInWords_stray hBlank hReturn name
  rw [Span.moved, hPlace, hStop] at hRead
  have hUnderline : underline ⟨⟨1, column + 1⟩, ⟨1, column + 2⟩⟩ = (column, 1) := by
    simp [underline]
  -- the line that is quoted
  have hNoReturn : '\r' ∉ line := by
    have hStray : '\r' ∉ stray gap := by simp [stray, hReturn]
    rw [hText] at hStray
    exact fun h => hStray (List.mem_append_left _ h)
  obtain ⟨more, hLines⟩ := Source.lines_encode name rest hNewline hNoReturn
  rw [← hText] at hLines
  generalize hSource : Source.ofBytes name (encode (stray gap)) = s at hLines hRead ⊢
  have hItems : 0 < s.items.length := by
    rw [Source.items, hLines, itemsFrom, List.length_append, length_lineItems]
    omega
  have hAsked : s.scan.lexer.asked s.items.length ≠ 0 := by
    simp only [Lexer.asked]
    omega
  refine ⟨_, .badChar '#', s.report _, String.ofList line, (column, 1), hRead, rfl,
    s.printReport_of_narrow ⟨rfl, Nat.le_add_left 1 _⟩ ?_ ?_, ⟨0, rfl, ?_⟩, ?_, ?_⟩
  · rw [hUnderline]
    exact hColumn
  · rw [hUnderline]
    simp [maxPadding]
  · rw [hLines]
    rfl
  · have hShows := shows_reportMarking (underline ⟨⟨1, column + 1⟩, ⟨1, column + 2⟩⟩) s.name
      (s.kept (s.scan.lexer.asked s.items.length))
      ⟨.lexical (.badChar '#'), ⟨⟨1, column + 1⟩, ⟨1, column + 2⟩⟩⟩
    rw [Source.quotedLine_first hLines hAsked, hUnderline] at hShows
    rw [Source.report, Source.reportAt, JumpCode.report, hUnderline]
    exact hShows
  · rwa [String.toList_ofList]

/-- Columns behind blanks. -/
theorem Position.through_spaces (line column n : Nat) :
    Position.through ⟨line, column⟩ (List.replicate n ' ') = ⟨line, column + n⟩ := by
  induction n generalizing column with
  | zero => rfl
  | succ n ih =>
    rw [List.replicate_succ, through_cons]
    show Position.through ⟨line, column + 1⟩ _ = _
    rw [ih, Nat.add_assoc, Nat.add_comm 1 n]

theorem blank_of_replicate {c : Char} (h : isBlank c) (n : Nat) :
    ∀ d ∈ List.replicate n c, isBlank d := fun _ hd => List.eq_of_mem_replicate hd ▸ h

theorem not_mem_replicate {c d : Char} (h : c ≠ d) (n : Nat) : d ∉ List.replicate n c :=
  fun hd => h (List.eq_of_mem_replicate hd).symm

/-- Behind more than `maxPadding` blanks a report is not printed. -/
theorem Source.not_printed_of_wide (name : String) {n : Nat} (hWide : maxPadding < n)
    (hFits : n + 2 < UInt32.size) :
    ∃ failure, (Source.ofBytes name (encode (stray (List.replicate n ' ')))).readInWords.outcome =
        .error (.error failure) ∧
      (Source.ofBytes name (encode (stray (List.replicate n ' ')))).printReport failure =
        .error .outOfRange := by
  have hRead := Source.readInWords_stray (blank_of_replicate (c := ' ') rfl n)
    (not_mem_replicate (by decide) n) name
  -- the place can be counted in words
  rw [show Position.first = ⟨1, 1⟩ from rfl, Position.through_spaces] at hRead
  have hLine : 1 < UInt32.size := by decide
  have hStart : Position.wrapped ⟨1, 1 + n⟩ = ⟨1, 1 + n⟩ :=
    Position.toPosition_inWords ⟨hLine, by simp only; omega⟩
  have hStop : Position.wrapped ⟨1, 1 + n + 1⟩ = ⟨1, 1 + n + 1⟩ :=
    Position.toPosition_inWords ⟨hLine, by simp only; omega⟩
  rw [Position.advance, Span.moved, hStart, hStop] at hRead
  -- its column is one more than the blanks in front of it
  have hSkipped : (underlineInWords ⟨⟨1, 1 + n⟩, ⟨1, 1 + n + 1⟩⟩).1.toNat = n := by
    have hNext : 1 + n + 1 < UInt32.size := by omega
    have hWords : (_, _) = underline ⟨⟨1, 1 + n⟩, ⟨1, 1 + n + 1⟩⟩ :=
      underlineInWords_eq (Nat.le_add_right 1 n) hNext hNext
    simpa only [underline, Nat.add_sub_cancel_left] using congrArg Prod.fst hWords
  refine ⟨_, hRead, ?_⟩
  rw [Source.printReport_eq, JumpCode.printReport]
  exact if_pos (.inl (hSkipped.symm ▸ hWide))

/-- No caret that stands in the first column alone is under the first of several tabs, which takes
four columns. -/
theorem not_under_tab (line : List Char) (c : Char) : ¬ Under (0, 1) ('\t' :: line) [c] := by
  rintro ⟨before, after, hLine, hMarks⟩
  obtain ⟨hSkipped, hMarked⟩ := Prod.mk.inj hMarks
  have hNone : before = [] := by
    by_contra hSome
    exact Nat.ne_of_lt (expand_ne_nil 0 hSome) hSkipped
  subst hNone
  obtain ⟨rfl, -⟩ := List.cons.inj hLine
  exact absurd hMarked (by decide)

/-- No caret behind the first column is under the end of an empty line. -/
theorem not_under_end (c : Char) : ¬ Under (1, 1) [] [c] := by
  rintro ⟨before, after, hLine, hMarks⟩
  obtain ⟨hSkipped, -⟩ := Prod.mk.inj hMarks
  cases before with
  | nil => exact absurd hSkipped (by decide)
  | cons d before =>
    obtain ⟨-, hNone⟩ := List.cons.inj hLine
    simp at hNone

/-- Behind so many tabs that the column is the first one again, the carets are misplaced. -/
theorem Source.misses_of_tabs (name : String) {n : Nat}
    (hBack : Position.wrapped ⟨1, 4 * (0 + (n + 1)) + 1⟩ = .first) :
    (Source.ofBytes name (encode (stray (List.replicate (n + 1) '\t')))).Misses := by
  refine Source.misses_of_wrapped name (List.replicate (n + 1) '\t' ++ ['#']) [] 0
    (blank_of_replicate rfl _) (not_mem_replicate (by decide) _) rfl ?_ ?_ (Nat.zero_le _)
    (not_under_tab _)
  · simp
  · rw [show Position.first = ⟨1, 4 * 0 + 1⟩ from rfl, Position.through_tabs, hBack]
    rfl

/-- Behind so many lines that the line is the first one again, the carets are misplaced. -/
theorem Source.misses_of_lines (name : String) {n : Nat}
    (hBack : Position.wrapped ⟨1 + n + 1, 2⟩ = ⟨1, 2⟩) :
    (Source.ofBytes name (encode (stray (List.replicate (n + 1) '\n' ++ [' '])))).Misses := by
  refine Source.misses_of_wrapped name [] (stray (List.replicate n '\n' ++ [' '])) 1 ?_ ?_ rfl
    (by simp) ?_ (by decide) not_under_end
  · rw [List.forall_mem_append, List.forall_mem_singleton]
    exact ⟨blank_of_replicate rfl _, rfl⟩
  · rw [List.mem_append, not_or]
    exact ⟨not_mem_replicate (by decide) _, by decide⟩
  · rw [Position.through_append, Position.through_newlines]
    exact hBack

/-- **The limits of a printed underline.** Behind 65536 blanks the report of a character that begins
no token is not printed. Behind 2^30 tabs, and behind 2^32 empty lines and a blank, it is printed
for the first line, where its caret stands under no character at all. -/
theorem report_underlines_limited :
    (∃ failure, (Source.ofBytes "t.sc"
          (encode (stray (List.replicate 65536 ' ')))).readInWords.outcome =
        .error (.error failure) ∧
      (Source.ofBytes "t.sc" (encode (stray (List.replicate 65536 ' ')))).printReport failure =
        .error .outOfRange) ∧
    (Source.ofBytes "t.sc" (encode (stray (List.replicate 1073741824 '\t')))).Misses ∧
    (Source.ofBytes "t.sc" (encode (stray (List.replicate 4294967296 '\n' ++ [' '])))).Misses :=
  ⟨Source.not_printed_of_wide "t.sc" (by decide) (by decide),
    Source.misses_of_tabs "t.sc" (n := 1073741823) rfl,
    Source.misses_of_lines "t.sc" (n := 4294967295) rfl⟩

end JumpCode
