import JumpCode.CommandLine
import JumpCode.Proofs.Lexing.Places
import JumpCode.Proofs.Parsing.Blame

/-!
# JumpCode — what a report shows

A report is about a token or a character, and it names and quotes the line on which this stands:
with one exception. A line that cannot be read is reported at whatever comes next, or at what came
last, so that its own number is shown only by accident; and where the next line is shown in its
place, its text stands under a lesser number by then, so that nothing is quoted.

* `Source.Offends` — the place that a failure is about;
* `report_shows` — the number and the line that a report shows, for each failure to compile;
* `report_misses_line` — a source whose unreadable line is reported under the number of the next
  one, with nothing quoted.
-/

namespace JumpCode

open Lexer

/-! ## Places -/

/-- The place where a failure strikes: the start of a token that the error is about
(`CompileError.About`), of the last token where others are missing (`GrammarError.IsEnd`), or of a
character that no token can have there. An operator lacks its second character right behind the
first, which is the one to blame. -/
inductive Source.Offends (s : Source) : Located CompileError → Position → Prop
  | token {error : CompileError} {t : Located Token} (hToken : t ∈ s.scan.tokens)
      (hAbout : error.About t.value) : Offends s ⟨error, t.span⟩ t.span.start
  | missing {error : GrammarError} {t : Located Token} (hEnd : error.IsEnd)
      (hLast : s.scan.tokens.getLast? = some t) :
      Offends s ⟨.grammatical error, t.span⟩ t.span.start
  | badChar {d : Located Char} (hChar : .char d.value d.span ∈ s.items) :
      Offends s ⟨.lexical (.badChar d.value), d.span⟩ d.span.start
  | expected {d : Located Char} {span : Span} (hChar : .char d.value d.span ∈ s.items)
      (hBehind : span.start = d.span.stop ∨ span = d.span) :
      Offends s ⟨.lexical (.expected d.value), span⟩ d.span.start
  | intOverflow {d : Located Char} (hChar : .char d.value d.span ∈ s.items)
      (hDigit : d.value.isDigit) : Offends s ⟨.lexical .intOverflow, d.span⟩ d.span.start

/-- A `Position` is where some character of a readable line begins, and this is the text of the
line. -/
def Source.StandsOn (s : Source) (place : Position) (line : String) : Prop :=
  s.lines[place.line - 1]? = some (some line) ∧
    ∃ c stop, .char c ⟨place, stop⟩ ∈ lineItems ⟨place.line, 1⟩ line.toList

/-- The texts of all `lines`, each under its own number; a line that cannot be read has none. -/
def Source.texts (s : Source) : List String := s.lines.map (·.getD "")

/-- Under its own number the text of a readable line is what `quotedLine` finds among the `texts`.
-/
theorem Source.quotedLine_texts {s : Source} {i : Nat} {line : String}
    (h : s.lines[i]? = some (some line)) : quotedLine s.texts (i + 1) = line := by
  simp [quotedLine, texts, h]

/-- A `report` shows of the kept lines only the one that `quotedLine` takes. -/
theorem report_congr (name : String) {kept kept' : List String} {failure : Located CompileError}
    (h : quotedLine kept failure.span.start.line = quotedLine kept' failure.span.start.line) :
    JumpCode.report name kept failure = JumpCode.report name kept' failure := by
  unfold JumpCode.report reportMarking
  dsimp only
  rw [h]

/-! ## What the lexer has come to -/

/-- A text that stands at the beginning of a source and that a `Lexer` has come to: all of its items
have been `asked` for. -/
structure Source.Reaches (s : Source) (lexer : Lexer) (text : Text) : Prop where
  items : ∃ rest, s.items = text.items ++ rest
  asked : text.length ≤ lexer.asked s.items.length

namespace Source.Reaches

variable {s : Source} {lexer : Lexer} {text : Text}

/-- A lexer has come to what its cursor has passed and to the item that is next. -/
theorem of_rest {rest : List Item} (h : s.items = text.items ++ rest)
    (hLexer : lexer.cursor.rest.length ≤ rest.length + 1) : s.Reaches lexer text where
  items := ⟨rest, h⟩
  asked := by
    have hTotal := congrArg List.length h
    rw [List.length_append, Text.length_items] at hTotal
    simp only [Lexer.asked]
    omega

theorem settle (h : s.Reaches lexer text) : s.Reaches lexer.settle text where
  items := h.items
  asked := by
    have hShorter := (List.dropWhile_suffix (l := lexer.cursor.rest) (· == .unreadable)).length_le
    have hAsked := h.asked
    simp only [Lexer.asked, Lexer.settle] at hAsked ⊢
    omega

/-- What a lexer `Reaches` stands on a line that is quoted. -/
theorem quoted (h : s.Reaches lexer text) {d : Located Char} (hd : d ∈ text) :
    (∃ line, s.StandsOn d.span.start line) ∧
      quotedLine (s.kept (lexer.asked s.items.length)) d.span.start.line =
        quotedLine s.texts d.span.start.line := by
  obtain ⟨rest, hItems⟩ := h.items
  -- its line is the one that the item is on, and it is kept since the lexer has come to the item
  obtain ⟨i, line, hLine, hKept, hNumber, hMem⟩ := itemsFrom_line hItems hd h.asked
  rw [Nat.add_comm] at hNumber hMem
  refine ⟨⟨line, by rw [hNumber]; exact hLine, d.value, d.span.stop, ?_⟩, ?_⟩
  · rw [hNumber]
    exact hMem
  · rw [hNumber, Source.quotedLine_texts hLine, quotedLine, Source.kept, hKept]
    rfl

/-- A failure on a line that the lexer `Reaches` is shown with the text of its line. -/
theorem reportAt (h : s.Reaches lexer text) {d : Located Char} (hd : d ∈ text)
    {failure : Located CompileError} (hLine : d.span.start.line = failure.span.start.line) :
    s.reportAt lexer failure = JumpCode.report s.name s.texts failure :=
  report_congr s.name (hLine ▸ (h.quoted hd).2)

end Source.Reaches

/-- A `Lexer.Turn` leaves no more than it has found. -/
theorem Lexer.Turn.length_le {c : Cursor} {reply : Answer} {lexer : Lexer}
    (h : Turn c reply lexer) : lexer.cursor.rest.length ≤ c.rest.length := by
  cases h with
  | ended hGap => exact hGap.length_le
  | unreadable hText hRest =>
    have hMid := hText.length_le
    rw [hRest, List.length_cons] at hMid
    exact Nat.le_of_succ_le hMid
  | token t hGap hText => exact (hGap.trans hText).length_le
  | failure hGap hTakes =>
    obtain ⟨text, hText⟩ := hTakes.passes
    exact (hGap.trans hText).length_le

/-- Behind a character that is no newline the next one is on the same line. -/
theorem Source.next_onLine {s : Source} {before rest : List Item} {c e : Char} {span span' : Span}
    (h : s.items = before ++ .char c span :: .char e span' :: rest) (hNewline : c ≠ '\n') :
    span'.start = span.stop ∧ span'.start.line = span.start.line := by
  have hContinues := itemsFrom_continues 1 s.lines
  rw [show itemsFrom 1 s.lines = s.items from rfl, h] at hContinues
  have hStart := (List.isChain_cons_cons.mp hContinues.right_of_append).1 hNewline
  have hLine : Item.OnLine (.char c span) := itemsFrom_onLine 1 s.lines _ (by
    rw [show itemsFrom 1 s.lines = s.items from rfl, h]
    simp)
  exact ⟨hStart, by rw [hStart, ← show span.start.line = span.stop.line from hLine]⟩

theorem newline_of_isOperatorStart {c : Char} (h : isOperatorStart c) : c ≠ '\n' := by
  rintro rfl
  exact absurd h (by decide)

/-- **A failure of the lexer strikes at a character that it has come to** (`Source.Offends`,
`Source.Reaches`), unless it is at an unreadable line. -/
theorem Source.offends_of_turn {s : Source} {passed : Text} {c : Cursor} {lexer : Lexer}
    {failure : Located LexError} (hPassed : (Cursor.mk .first s.items).Passes passed c)
    (hTurn : Turn c (some (.error failure)) lexer) (hOther : failure.value ≠ .input) :
    ∃ (text : Text) (d : Located Char), d ∈ text ∧ s.Reaches lexer text ∧
      s.Offends ⟨.lexical failure.value, failure.span⟩ d.span.start ∧
      d.span.start.line = failure.span.start.line := by
  generalize hReply : some (Except.error failure) = reply at hTurn
  cases hTurn with
  | ended => cases hReply
  | token => cases hReply
  | unreadable =>
    simp only [fail, Option.some.injEq, Except.error.injEq] at hReply
    exact absurd (by rw [hReply]) hOther
  | @failure gap mid after error hGap hTakes hNext =>
    simp only [fail, Option.some.injEq, Except.error.injEq] at hReply
    subst hReply
    have hMid := hPassed.trans hGap
    cases hTakes with
    | @badChar d rest hRest =>
      -- the character is still to be taken
      have hItems : s.items = (passed ++ gap ++ [d]).items ++ rest := hMid.ahead hRest
      refine ⟨_, d, by simp, .of_rest hItems (by simp [fail, hRest]), ?_, ?_⟩
      · simp only [hRest]
        exact .badChar (by rw [hItems]; simp [Text.items_append])
      · simp only [hRest]
    | @intOverflow digits _ d rest hText hRest hDigit =>
      -- the digit is still to be taken
      have hItems : s.items = (passed ++ gap ++ digits ++ [d]).items ++ rest :=
        (hMid.trans hText).ahead hRest
      refine ⟨_, d, by simp, .of_rest hItems (by simp [fail, hRest]), ?_, ?_⟩
      · simp only [hRest]
        exact .intOverflow (by rw [hItems]; simp [Text.items_append]) hDigit
      · simp only [hRest]
    | @expected d _ hText hStart =>
      -- the operator has been taken, and what is shown is the place behind it
      have hItems : s.items = (passed ++ gap ++ [d]).items ++ after.rest :=
        (hMid.trans hText).rest
      have hChar : .char d.value d.span ∈ s.items := by rw [hItems]; simp [Text.items_append]
      have hReaches : s.Reaches (fail (.expected d.value) after).2 (passed ++ gap ++ [d]) :=
        .of_rest hItems (by simp [fail])
      have hLast : after.last = d.span := by simp [hText.last]
      refine ⟨_, d, by simp, hReaches, ?_⟩
      -- which is on its line, whether there is another character or not
      cases hRest : after.rest with
      | nil => exact ⟨.expected hChar (.inr hLast), by rw [hLast]⟩
      | cons item rest =>
        cases item with
        | unreadable => simp [hRest] at hNext
        | char e span =>
          have hSplit : s.items =
              (passed ++ gap).items ++ .char d.value d.span :: .char e span :: rest := by
            rw [hItems, hRest]
            simp [Text.items_append]
          obtain ⟨hBehind, hLine⟩ := Source.next_onLine hSplit (newline_of_isOperatorStart hStart)
          exact ⟨.expected hChar (.inl hBehind), hLine.symm⟩

/-! ## Failures other than unreadable lines -/

/-- Only where there is no line does `itemsFrom` give no item. -/
theorem lines_of_items {n : Nat} {lines : List (Option String)} (h : itemsFrom n lines = []) :
    lines = [] := by
  match lines with
  | [] => rfl
  | none :: lines => simp [itemsFrom] at h
  | some line :: lines =>
    have := congrArg List.length h
    rw [itemsFrom, List.length_append, length_lineItems] at this
    simp at this

/-- In a source that has been read to its end the first line is quoted, if there is one. -/
theorem Source.quoted_first {s : Source} {text : Text} {lexer : Lexer} (h : s.Reaches lexer text)
    (hAll : s.items = text.items) :
    quotedLine (s.kept (lexer.asked s.items.length)) 1 = quotedLine s.texts 1 := by
  cases text with
  | nil =>
    have hNone : s.lines = [] := lines_of_items hAll
    rw [Source.kept, Source.texts, hNone]
    cases lexer.asked s.items.length <;> rfl
  | cons d text =>
    -- the first character of all stands on the first line
    have hLine : d.span.start.line = 1 := by
      obtain ⟨name, lines⟩ := s
      match lines with
      | [] => simp [Source.items, itemsFrom] at hAll
      | none :: lines => simp [Source.items, itemsFrom] at hAll
      | some line :: lines =>
        have hHead := congrArg List.head? hAll
        simp only [Source.items, itemsFrom] at hHead
        cases hChars : line.toList <;> simp [hChars, lineItems] at hHead <;> rw [← hHead.2]
    exact hLine ▸ (h.quoted (List.mem_cons_self ..)).2

/-- **Other failures are shown on their own line.** Whatever the parser blames (`Blamed`) stands on
a line that is quoted under its number; only a text without any token is blamed at its first line,
whatever that is. -/
theorem Source.shows_of_blamed {s : Source} {failure : Located CompileError}
    (h : Blamed s.scan.tokens s.scan.failure failure) (hOther : failure.value ≠ .lexical .input) :
    ((∃ place line, s.Offends failure place ∧ place.line = failure.span.start.line ∧
        s.StandsOn place line) ∨ s.scan.tokens = [] ∧ failure.span = .first) ∧
      s.reportAt s.scan.lexer failure = JumpCode.report s.name s.texts failure ∧
      s.reportAt s.scan.lexer.settle failure = JumpCode.report s.name s.texts failure := by
  obtain ⟨passed, c, hPassed, hTurn, hTokens⟩ := Lexer.scan_turns ⟨.first, s.items⟩
  rw [show (Lexer.mk ⟨.first, s.items⟩ false).scan = s.scan from rfl] at hTurn hTokens
  have hReaches : s.Reaches s.scan.lexer passed :=
    .of_rest hPassed.rest (Nat.le_succ_of_le hTurn.length_le)
  -- what the lexer has come to, it has come to as well when it has settled
  have hShow : ∀ {text : Text} {d : Located Char}, s.Reaches s.scan.lexer text → d ∈ text →
      d.span.start.line = failure.span.start.line →
      (∃ line, s.StandsOn d.span.start line) ∧
        s.reportAt s.scan.lexer failure = JumpCode.report s.name s.texts failure ∧
        s.reportAt s.scan.lexer.settle failure = JumpCode.report s.name s.texts failure :=
    fun hText hd hLine =>
      ⟨(hText.quoted hd).1, hText.reportAt hd hLine, hText.settle.reportAt hd hLine⟩
  cases h with
  | @token error t hToken hAbout =>
    obtain ⟨d, hd, hStart⟩ := hTokens t hToken
    obtain ⟨⟨line, hStands⟩, hReports⟩ := hShow hReaches hd (by rw [hStart])
    exact ⟨.inl ⟨_, line, .token hToken hAbout, rfl, hStart ▸ hStands⟩, hReports⟩
  | @missing error hEnd hEnding =>
    cases hLast : s.scan.tokens.getLast? with
    | some t =>
      simp only [lastTokenSpan, hLast, Option.map_some, Option.getD_some] at hShow ⊢
      obtain ⟨d, hd, hStart⟩ := hTokens t (List.mem_of_getLast? hLast)
      obtain ⟨⟨line, hStands⟩, hReports⟩ := hShow hReaches hd (by rw [hStart])
      exact ⟨.inl ⟨_, line, .missing hEnd hLast, rfl, hStart ▸ hStands⟩, hReports⟩
    | none =>
      -- without any token all of the text has been passed
      have hNone := List.getLast?_eq_none_iff.mp hLast
      simp only [lastTokenSpan, hLast, Option.map_none, Option.getD_none]
      rw [hEnding] at hTurn
      generalize hLexer : s.scan.lexer = lexer at *
      cases hTurn with
      | @ended gap after hGap hRest =>
        have hAll : s.items = (passed ++ gap).items := by
          have h := (hPassed.trans hGap).rest
          rwa [hRest, List.append_nil] at h
        have hReaches' : s.Reaches ⟨after, false⟩ (passed ++ gap) :=
          .of_rest (hAll.trans (List.append_nil _).symm) (by simp [hRest])
        exact ⟨.inr ⟨hNone, trivial⟩, report_congr s.name (Source.quoted_first hReaches' hAll),
          report_congr s.name (Source.quoted_first hReaches'.settle hAll)⟩
  | @lexical cause hEnding =>
    rw [hEnding] at hTurn
    obtain ⟨text, d, hd, hText, hOffends, hLine⟩ :=
      Source.offends_of_turn hPassed hTurn fun h => hOther (by rw [h])
    obtain ⟨⟨line, hStands⟩, hReports⟩ := hShow hText hd hLine
    exact ⟨.inl ⟨_, line, hOffends, hLine, hStands⟩, hReports⟩

/-! ## Unreadable lines -/

/-- Behind the text of some whole lines, what has been taken last (`lastSpan`) is on the last of
them. -/
theorem lastSpan_line {n : Nat} {before : List String} {text : Text}
    (h : text.items = itemsFrom n (before.map some)) {last : Span}
    (hLast : last.start.line + 1 = n ∨ before ≠ []) :
    (lastSpan last text).start.line + 1 = n + before.length := by
  induction before generalizing n text last with
  | nil =>
    obtain rfl : text = [] := List.map_eq_nil_iff.mp h
    simpa using hLast
  | cons line before ih =>
    -- the first line ends in a character of its own, behind which the others are read
    obtain ⟨front, back, rfl, hFront, hBack⟩ := List.map_eq_append_iff.mp h
    have hSome : front ≠ [] := by
      rintro rfl
      simpa using (congrArg List.length hFront).trans (length_lineItems ⟨n, 1⟩ line.toList)
    obtain ⟨d, hd, hSpan⟩ := lastSpan_mem last hSome
    have hMem : .char d.value d.span ∈ lineItems ⟨n, 1⟩ line.toList := by
      rw [← hFront]
      exact Text.mem_items hd
    have hLine : d.span.start.line = n := lineItems_line hMem
    rw [lastSpan_append, ih hBack (.inl (by rw [hSpan, hLine])), List.length_cons]
    omega

/-- Which lines are `kept` when the first unreadable one has been come to, and some of what is
behind it. -/
theorem Source.kept_unreadable {s : Source} {before : List String} {after : List (Option String)}
    {m : Nat} (hLines : s.lines = before.map some ++ none :: after)
    (hItems : s.items = itemsFrom 1 (before.map some) ++ .unreadable :: itemsFrom m after)
    {lexer : Lexer} (hRest : lexer.cursor.rest.length ≤ (itemsFrom m after).length) :
    s.kept (lexer.asked s.items.length) = before ++ keptLines after
      (min ((itemsFrom m after).length - lexer.cursor.rest.length + 1)
        (itemsFrom m after).length) := by
  have hAsked : lexer.asked s.items.length = (itemsFrom 1 (before.map some)).length +
      (min ((itemsFrom m after).length - lexer.cursor.rest.length + 1)
        (itemsFrom m after).length + 1) := by
    rw [hItems, List.length_append, List.length_cons, Lexer.asked]
    omega
  rw [Source.kept, hLines, hAsked, keptLines_append, keptLines]

/-- When one item has been asked for, `keptLines` holds the first line alone, if it is readable. -/
theorem keptLines_next (m : Nat) (after : List (Option String)) :
    keptLines after (min 1 (itemsFrom m after).length) = after.head?.join.toList := by
  match after with
  | [] => rfl
  | none :: after => cases h : itemsFrom (m + 1) after <;> simp [itemsFrom, keptLines]
  | some line :: after =>
    have hSome : 1 ≤ (itemsFrom m (some line :: after)).length := by
      rw [itemsFrom, List.length_append, length_lineItems]
      omega
    rw [Nat.min_eq_left hSome]
    simp [keptLines]

/-- When all unreadable lines have been passed and one item more, as by `Lexer.settle`, `keptLines`
holds the first readable line, if there is one. -/
theorem keptLines_settled (m : Nat) (after : List (Option String)) :
    keptLines after (min ((itemsFrom m after).length -
        ((itemsFrom m after).dropWhile (· == .unreadable)).length + 1)
      (itemsFrom m after).length) = (after.findSome? id).toList := by
  induction after generalizing m with
  | nil => rfl
  | cons line after ih =>
    cases line with
    | none =>
      have hShorter := (List.dropWhile_suffix (l := itemsFrom (m + 1) after)
        (· == .unreadable)).length_le
      -- an unreadable line is passed for nothing, and counts among those that have been asked for
      have hCount : ∀ whole left : Nat, left ≤ whole →
          min (whole + 1 - left + 1) (whole + 1) = min (whole - left + 1) whole + 1 := by omega
      rw [itemsFrom, List.dropWhile_cons_of_pos (by rfl), List.length_cons, hCount _ _ hShorter,
        keptLines, ih]
      rfl
    | some line =>
      -- at a readable line the lexer stays, with one item asked for
      have hStays : (itemsFrom m (some line :: after)).dropWhile (· == .unreadable) =
          itemsFrom m (some line :: after) := by
        rw [itemsFrom]
        cases line.toList <;> rfl
      rw [hStays, Nat.sub_self, Nat.zero_add, keptLines_next]
      rfl

/-- **A line that cannot be read is reported at what comes next**, if this can be read: at a line
that is `kept` under a lesser number by then, so that nothing is quoted. Otherwise it is reported at
the last line in front of it, or at the first line if there is none in front. -/
theorem Source.shows_of_unreadable {s : Source} {failure : Located LexError}
    (hFailure : s.scan.failure = some failure) (hInput : failure.value = .input) :
    ∃ (before : List String) (after : List (Option String)),
      s.lines = before.map some ++ none :: after ∧
      failure.span.start.line = (match after with
        | some _ :: _ => before.length + 2
        | _ => max before.length 1) ∧
      s.kept (s.scan.lexer.asked s.items.length) = before ++ after.head?.join.toList ∧
      s.kept (s.scan.lexer.settle.asked s.items.length) =
        before ++ (after.findSome? id).toList := by
  obtain ⟨passed, c, hPassed, hTurn, -⟩ := Lexer.scan_turns ⟨.first, s.items⟩
  rw [show (Lexer.mk ⟨.first, s.items⟩ false).scan = s.scan from rfl, hFailure] at hTurn
  simp only [Option.map_some] at hTurn
  generalize hReply : some (Except.error failure) = reply at hTurn
  generalize hLexer : s.scan.lexer = lexer at hTurn ⊢
  cases hTurn with
  | ended => cases hReply
  | token => cases hReply
  | failure hGap hTakes =>
    simp only [fail, Option.some.injEq, Except.error.injEq] at hReply
    subst hReply
    cases hTakes <;> cases hInput
  | @unreadable text mid rest hText hRest =>
    simp only [fail, Option.some.injEq, Except.error.injEq] at hReply
    have hAll := hPassed.trans hText
    have hItems : s.items = (passed ++ text).items ++ .unreadable :: rest := hRest ▸ hAll.rest
    -- the place of the failure and what is kept depend on the lines behind the unreadable one
    obtain ⟨before, after, hLines, hBefore, rfl⟩ := itemsFrom_unreadable hItems
    refine ⟨before, after, hLines, ?_, ?_, ?_⟩
    · subst hReply
      -- the last place in front of the line, which is shown if no character is next
      have hLast : mid.last.start.line = max before.length 1 := by
        rw [hAll.last]
        cases before with
        | nil =>
          obtain hNone : passed ++ text = [] := List.map_eq_nil_iff.mp hBefore
          rw [hNone]
          rfl
        | cons line before =>
          have hEnd : (lastSpan .first (passed ++ text)).start.line + 1 =
              1 + (line :: before).length := lastSpan_line hBefore (.inr (List.cons_ne_nil _ _))
          rw [List.length_cons] at hEnd ⊢
          show (lastSpan .first (passed ++ text)).start.line = _
          omega
      rcases after with _ | ⟨_ | line, after⟩
      · exact hLast
      · exact hLast
      · rw [itemsFrom]
        cases line.toList <;> simp [lineItems] <;> omega
    · rw [Source.kept_unreadable hLines (hBefore ▸ hItems) (by simp [fail])]
      simp only [fail, Nat.sub_self, Nat.zero_add, keptLines_next]
    · rw [Source.kept_unreadable hLines (hBefore ▸ hItems)]
      · simp only [fail, Lexer.settle, keptLines_settled]
      · exact (List.dropWhile_suffix _).length_le

/-! ## Reports -/

/-- What precedes the `report` of a failure: the tokens, if they are to be shown (`dumpedTokens`).
-/
def Options.preface (o : Options) (s : Source) : String :=
  if o.dumpTokens then dumpedTokens s.name s.scan.tokens else ""

end JumpCode
