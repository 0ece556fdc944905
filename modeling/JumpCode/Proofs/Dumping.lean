import JumpCode.Proofs.Lexing.Requests
import JumpCode.Proofs.Parsing.Lookahead
import JumpCode.Proofs.Reports

/-!
# JumpCode — showing the tokens

When the tokens are to be shown, all of them are asked for before the first is read, and a lexer
that fails is asked until it is silent; otherwise each is asked for when it is needed, and none any
more behind an error. What is shown besides the tokens is the same, with one exception: when the
first two lines cannot be read, only the long course comes to a line that can be, and quotes it in
the place of the first.

* `Source.DecidedBy` — so many answers of the lexer decide how a source is read;
* `reportAt_of_decided` — a lexer that is left early shows the same;
* `dumping_adds_tokens` — what showing the tokens adds, and where it changes more;
* `dumping_changes_report` — a source where it does.
-/

namespace JumpCode

open Lexer

/-! ## Answers that decide -/

/-- The first so many answers of the lexer decide how a source is read: all tokens and what ends
them are among these answers, or `readTokens` comes to the same outcome with whatever tokens and
ending behind them. -/
def Source.DecidedBy (s : Source) (k : Nat) : Prop :=
  s.scan.tokens.length < k ∨ ∀ (tokens : List (Located Token)) (ending : Option (Located LexError)),
    (readTokens (s.scan.tokens.take k ++ tokens) ending).outcome = s.read.outcome

/-- A place that is not this one. -/
theorem exists_span_ne (span : Span) : ∃ span' : Span, span' ≠ span :=
  ⟨⟨span.start.advance, span.stop⟩, fun h => by
    have hColumn := congrArg (·.start.column) h
    simp [Position.advance] at hColumn⟩

/-- A failure that is decided before the tokens end is about one of the tokens that decide it: any
other failure at the end of the tokens would have to be reported in another place. -/
theorem about_of_decided {s : Source} {failure : Located CompileError}
    (h : s.read.outcome = .error (.error failure)) {k : Nat}
    (hDecided : ∀ (tokens : List (Located Token)) (ending : Option (Located LexError)),
      (readTokens (s.scan.tokens.take k ++ tokens) ending).outcome = s.read.outcome) :
    ∃ t ∈ s.scan.tokens.take k, failure.span = t.span ∧ failure.value.About t.value := by
  -- a failure of the lexer behind these tokens would not be seen, wherever it strikes
  obtain ⟨elsewhere, hElsewhere⟩ := exists_span_ne failure.span
  have hOther := (hDecided [] (some ⟨.input, elsewhere⟩)).trans h
  rw [List.append_nil] at hOther
  cases blamed_of_read hOther with
  | token hToken hAbout => exact ⟨_, hToken, rfl, hAbout⟩
  | missing _ hEnding => cases hEnding
  | lexical hEnding =>
    obtain rfl := Option.some.inj hEnding
    exact absurd rfl hElsewhere

/-- A lexer that has been asked just often enough shows the same as one that has been asked for all
tokens: what it has read by then holds the line that `report` quotes. -/
theorem reportAt_of_decided {s : Source} {failure : Located CompileError}
    (h : s.read.outcome = .error (.error failure)) {k : Nat} (hDecided : s.DecidedBy k)
    (hMost : k ≤ s.scan.tokens.length + 1) :
    s.reportAt ((ofItems s.items).after k) failure = s.report failure := by
  by_cases hAll : s.scan.tokens.length < k
  · obtain rfl : k = s.scan.tokens.length + 1 := by omega
    rw [Source.report]
    exact congrArg (s.reportAt · failure) (after_scan ⟨.first, s.items⟩).1
  · obtain ⟨t, hToken, hSpan, hAbout⟩ := about_of_decided h (hDecided.resolve_left hAll)
    obtain ⟨text, c, hPasses, hAfter, -, hStarts⟩ :=
      after_take ⟨.first, s.items⟩ (Nat.le_of_not_lt hAll)
    obtain ⟨d, hd, hStart⟩ := hStarts t hToken
    have hReaches : s.Reaches ((ofItems s.items).after k) text := by
      rw [show (ofItems s.items).after k = ⟨c, false⟩ from hAfter]
      exact .of_rest hPasses.rest (Nat.le_succ _)
    have hOther : failure.value ≠ .lexical .input := by
      intro hInput
      rw [hInput] at hAbout
      cases hAbout
    rw [hReaches.reportAt hd (by rw [← hStart, hSpan]), Source.report,
      (Source.shows_of_blamed (blamed_of_read h) hOther).2.1]

/-! ## Responses -/

/-- The listing of a `Program`, if its code can be emitted. -/
def Program.listing? (p : Program) : Option String :=
  match p.emitWith [] .fresh with
  | ((.ok _, _), e) => some (listing e.code)
  | ((.error _, _), _) => none

/-- What is shown of a program that has been read: its outline, if the `Options` ask for it. -/
def Options.outlined (o : Options) (p : Program) : String :=
  if o.dumpTree then p.body.outline.render ++ "\n" else ""

/-- The `Lexer` as it stands when a failure is reported: once it is silent (`Lexer.settle`) if the
tokens are shown, and otherwise as soon as the last token has been followed by a failure or by
nothing. -/
def Options.lexer (o : Options) (s : Source) : Lexer :=
  if o.dumpTokens then s.scan.lexer.settle else s.scan.lexer

/-- A compilation says what the reading of the source comes to: `Options.respond` by the cases of
`Source.read`. -/
theorem Options.respond_eq (o : Options) (s : Source) :
    o.respond s = match s.read.outcome with
      | .ok p => ⟨o.preface s ++ o.outlined p, p.listing?⟩
      | .error (.error failure) => ⟨o.preface s ++ s.reportAt (o.lexer s) failure, none⟩
      | .error .exhausted => ⟨o.preface s, none⟩ := by
  rw [Source.read]
  unfold Options.respond
  dsimp only
  cases (readTokens s.scan.tokens s.scan.failure).outcome with
  | error stop => cases stop <;> rfl
  | ok p =>
    dsimp only
    unfold Program.listing?
    rcases p.emitWith [] .fresh with ⟨⟨_ | _, _⟩, _⟩ <;> rfl

/-- `Options` that ask for the tokens to be shown, or that do not, and are otherwise the same. -/
def Options.withTokens (o : Options) (shown : Bool) : Options := { o with dumpTokens := shown }

/-- What becomes of a listing, or of there being none: the part of `Options.run` behind what it
says. -/
def Options.conclude {m : Type → Type} [Monad m] (o : Options) (around : Surroundings m) :
    Option String → m ExitCode
  | some text => o.deliver around text
  | none => return .failure

/-- A report tells which line it quotes: reports of one failure that are alike have the same
`quotedLine`. -/
theorem report_inj {name : String} {kept kept' : List String} {failure : Located CompileError}
    (h : report name kept failure = report name kept' failure) :
    quotedLine kept failure.span.start.line = quotedLine kept' failure.span.start.line := by
  unfold report reportMarking at h
  dsimp only at h
  simp only [String.append_left_inj, String.append_right_inj] at h
  exact h

/-! ## Two unreadable lines in front -/

/-- The first two lines cannot be read, and the first line that can be is not empty. Then the
`report` of the first failure depends on how far the lexer has come. -/
def Source.BreaksTwice (s : Source) : Prop :=
  ∃ lines line, s.lines = none :: none :: lines ∧ lines.findSome? id = some line ∧ line ≠ ""

/-- A source that begins with two unreadable lines fails where every text begins, at `Span.first`.
-/
theorem Source.read_of_broken {s : Source} {lines : List (Option String)}
    (h : s.lines = none :: none :: lines) :
    s.scan.tokens = [] ∧ s.scan.failure = some ⟨.input, .first⟩ ∧
      s.read.outcome = .error (.error ⟨.lexical .input, .first⟩) := by
  have hItems : s.items = .unreadable :: .unreadable :: itemsFrom 3 lines := by
    rw [Source.items, h]
    rfl
  have hNext : (Lexer.ofItems s.items).next.1 = some (.error ⟨.input, .first⟩) := by
    rw [hItems]
    rfl
  have hScan : s.scan = ⟨[], some ⟨.input, .first⟩, _⟩ := scan_of_error hNext
  rw [Source.read, hScan]
  exact ⟨rfl, rfl, rfl⟩

section Shown

variable (o : Options) (s : Source)

/-- Whether the tokens are shown or not, the listing is the same. -/
theorem Options.listing_respond :
    (o.respond s).listing = match s.read.outcome with
      | .ok p => p.listing?
      | .error _ => none := by
  rw [o.respond_eq]
  cases s.read.outcome with
  | ok p => rfl
  | error stop => cases stop <;> rfl

variable {s}

theorem Options.diagnostics_of_ok {p : Program} (h : s.read.outcome = .ok p) :
    (o.respond s).diagnostics = o.preface s ++ o.outlined p := by rw [o.respond_eq, h]

theorem Options.respond_of_error {failure : Located CompileError}
    (h : s.read.outcome = .error (.error failure)) :
    o.respond s = ⟨o.preface s ++ s.reportAt (o.lexer s) failure, none⟩ := by rw [o.respond_eq, h]

theorem quotedLine_append {kept : List String} {n : Nat} (h : n ≤ kept.length)
    (more : List String) : quotedLine (kept ++ more) n = quotedLine kept n := by
  cases n with
  | zero => rfl
  | succ i => rw [quotedLine, quotedLine, List.getElem?_append_left h]

/-- Unless the first two lines break (`Source.BreaksTwice`), a report quotes the same line wherever
the lexer stands. -/
theorem reportAt_settle {failure : Located CompileError}
    (h : s.read.outcome = .error (.error failure)) (hNot : ¬ s.BreaksTwice) :
    s.reportAt s.scan.lexer.settle failure = s.reportAt s.scan.lexer failure := by
  have hBlamed := blamed_of_read h
  by_cases hInput : failure.value = .lexical .input
  · -- an unreadable line is a failure of the lexer, and of nothing else
    cases hBlamed with
    | token hToken hAbout =>
      obtain rfl : _ = CompileError.lexical .input := hInput
      cases hAbout
    | missing => cases hInput
    | lexical hFailure =>
      obtain ⟨before, after, hLines, hLine, hNext, hSettled⟩ :=
        Source.shows_of_unreadable hFailure (by simpa using hInput)
      refine report_congr s.name ?_
      dsimp only
      rw [hSettled, hNext, hLine]
      match before, after with
      | _, [] => rfl
      | _, some line :: after => rfl
      | line :: before, none :: after =>
        -- the last line in front is shown
        have hLast : max (line :: before).length 1 ≤ (line :: before).length :=
          Nat.max_le.mpr ⟨Nat.le_refl _, Nat.succ_pos _⟩
        exact (quotedLine_append hLast _).trans (quotedLine_append hLast _).symm
      | [], none :: after =>
        -- whatever is quoted in the place of the first line, it is empty
        show quotedLine (after.findSome? id).toList 1 = ""
        cases hFirst : after.findSome? id with
        | none => rfl
        | some line =>
          by_contra hSome
          exact hNot ⟨after, line, hLines, hFirst, hSome⟩
  · obtain ⟨-, hReport, hSettled⟩ := Source.shows_of_blamed hBlamed hInput
    rw [hReport, hSettled]

end Shown

/-- With two unreadable lines in front, the line that is quoted is the first readable one or none,
according to how far the lexer has come: `Lexer.settle` has it read all lines. -/
theorem reportAt_of_broken {s : Source} {lines : List (Option String)}
    (h : s.lines = none :: none :: lines) :
    s.reportAt s.scan.lexer ⟨.lexical .input, .first⟩ =
        report s.name [] ⟨.lexical .input, .first⟩ ∧
      s.reportAt s.scan.lexer.settle ⟨.lexical .input, .first⟩ =
        report s.name (lines.findSome? id).toList ⟨.lexical .input, .first⟩ := by
  obtain ⟨-, hFailure, -⟩ := Source.read_of_broken h
  obtain ⟨before, after, hLines, -, hNext, hSettled⟩ := Source.shows_of_unreadable hFailure rfl
  obtain ⟨rfl, rfl⟩ : before = [] ∧ after = none :: lines := by
    cases before with
    | nil => exact ⟨rfl, (List.cons.inj (h.symm.trans hLines)).2.symm⟩
    | cons line before => cases (List.cons.inj (h.symm.trans hLines)).1
  constructor
  · rw [Source.reportAt, hNext]
    rfl
  · rw [Source.reportAt, hSettled]
    rfl

/-! ## What showing the tokens changes -/

/-- A compilation of the standard input says what it has to say and then concludes: `Options.run` is
`Options.respond` and then `Options.conclude`. -/
theorem Options.run_stdin {m : Type → Type} [Monad m] [LawfulMonad m] {o : Options}
    (hInput : o.input = "-") {around : Surroundings m} {contents : Contents}
    (h : around.input = pure contents) :
    o.run around = (do
      around.errors (o.respond (contents.source "<stdin>")).diagnostics
      o.conclude around (o.respond (contents.source "<stdin>")).listing) := by
  unfold Options.run
  rw [if_pos hInput, h, pure_bind, pure_bind]
  dsimp only
  rw [show o.sourceName = "<stdin>" from if_pos hInput]
  rfl

/-- **Showing the tokens adds their lines**, to what is said and in front of it, unless the first
two lines cannot be read.

* The listing is the same, and so is what is done with it, with the exit code that comes of it.
* What is said besides the tokens is the same if and only if not both of the first two lines break,
  with a line behind that can be read and is not empty: this one is quoted in the place of the first
  line if the tokens are shown, and nothing is quoted there if they are not.
* If the tokens are not shown, it does not matter when the parser has stopped to ask for them, once
  the answers decide; if they are shown, the lexer has been asked until it has answered nothing.
* With any bytes on the standard input, `Options.run` says what `Options.respond` has to say, and
  concludes in the same way whether the tokens are shown or not. -/
theorem dumping_adds_tokens (o : Options) (s : Source) :
    ((o.withTokens true).respond s).listing = ((o.withTokens false).respond s).listing ∧
    (((o.withTokens true).respond s).diagnostics =
        dumpedTokens s.name s.scan.tokens ++ ((o.withTokens false).respond s).diagnostics ↔
      ¬ s.BreaksTwice) ∧
    (∀ lines, s.lines = none :: none :: lines →
      (o.withTokens true).respond s =
        ⟨report s.name (lines.findSome? id).toList ⟨.lexical .input, .first⟩, none⟩ ∧
      (o.withTokens false).respond s = ⟨report s.name [] ⟨.lexical .input, .first⟩, none⟩) ∧
    (∀ failure, s.read.outcome = .error (.error failure) →
      (∀ n, (ofItems s.items).answer n = none →
        ((o.withTokens true).respond s).diagnostics = dumpedTokens s.name s.scan.tokens ++
          s.reportAt ((ofItems s.items).after (n + 1)) failure) ∧
      ∀ k, s.DecidedBy k → k ≤ s.scan.tokens.length + 1 →
        ((o.withTokens false).respond s).diagnostics =
          s.reportAt ((ofItems s.items).after k) failure) ∧
    ∀ {m : Type → Type} [Monad m] [LawfulMonad m] (around : Surroundings m) (bytes : List UInt8),
      o.input = "-" → around.input = pure (.bytes bytes) → s = .ofBytes "<stdin>" bytes →
      ∀ shown, (o.withTokens shown).run around = (do
        around.errors ((o.withTokens shown).respond s).diagnostics
        o.conclude around ((o.withTokens false).respond s).listing) := by
  have hListing (shown : Bool) :
      ((o.withTokens shown).respond s).listing = ((o.withTokens false).respond s).listing := by
    rw [Options.listing_respond, Options.listing_respond]
  have hShown {failure : Located CompileError} (h : s.read.outcome = .error (.error failure)) :
      (o.withTokens true).respond s =
        ⟨dumpedTokens s.name s.scan.tokens ++ s.reportAt s.scan.lexer.settle failure, none⟩ :=
    (o.withTokens true).respond_of_error h
  have hPlain {failure : Located CompileError} (h : s.read.outcome = .error (.error failure)) :
      (o.withTokens false).respond s = ⟨s.reportAt s.scan.lexer failure, none⟩ := by
    rw [(o.withTokens false).respond_of_error h]
    exact congrArg (Response.mk · none) (String.empty_append)
  refine ⟨hListing true, ⟨fun hSame hBreaks => ?_, fun hNot => ?_⟩, fun lines hLines => ?_,
    fun failure h => ⟨fun n hNone => ?_, fun k hDecided hMost => ?_⟩, ?_⟩
  · -- the two reports differ in the line that they quote
    obtain ⟨lines, line, hLines, hFirst, hSome⟩ := hBreaks
    obtain ⟨-, -, hRead⟩ := Source.read_of_broken hLines
    obtain ⟨hUnsettled, hSettled⟩ := reportAt_of_broken hLines
    rw [hShown hRead, hPlain hRead, hUnsettled, hSettled, hFirst] at hSame
    exact hSome (report_inj ((String.append_right_inj _).mp hSame))
  · -- a program is outlined in the same way, and other failures are shown on the same lines
    cases h : s.read.outcome with
    | ok p =>
      rw [Options.diagnostics_of_ok _ h, Options.diagnostics_of_ok _ h]
      show dumpedTokens s.name s.scan.tokens ++ o.outlined p =
        dumpedTokens s.name s.scan.tokens ++ ("" ++ o.outlined p)
      rw [String.empty_append]
    | error stop =>
      cases stop with
      | error failure => rw [hShown h, hPlain h, reportAt_settle h hNot]
      | exhausted => exact absurd h (readTokens_ne_exhausted s.scan.tokens s.scan.failure)
  · -- there is no token, so that nothing precedes either report
    obtain ⟨hTokens, -, hRead⟩ := Source.read_of_broken hLines
    obtain ⟨hUnsettled, hSettled⟩ := reportAt_of_broken hLines
    rw [hShown hRead, hPlain hRead, hUnsettled, hSettled, hTokens]
    exact ⟨congrArg (Response.mk · none) (String.empty_append), rfl⟩
  · -- the end of the items is met once, and asking further changes nothing
    rw [hShown h, show (ofItems s.items).after (n + 1) = s.scan.lexer.settle from
      after_none ⟨.first, s.items⟩ hNone]
  · rw [hPlain h, reportAt_of_decided h hDecided hMost]
    rfl
  · -- reading standard input gives the same bytes to both runs
    rintro m _ _ around bytes hInput hBytes rfl shown
    rw [Options.run_stdin (o := o.withTokens shown) hInput hBytes, Contents.source, hListing]
    rfl

/-- The options that are in force where none are given. -/
def plainOptions : Options := ⟨"-", "-", false, false⟩

/-- A bracket that nothing has opened, and a name. -/
def unopened : Contents := .bytes [0x7d, 0x78, 10]

/-- The bracket of it. -/
def unopenedBracket : Located Token := ⟨.mark .closeCurly, ⟨⟨1, 1⟩, ⟨1, 2⟩⟩⟩

/-- The failure to read it. -/
def unopenedFailure : Located CompileError :=
  ⟨.grammatical (.unexpectedToken (.mark .openCurly) (.mark .closeCurly)), ⟨⟨1, 1⟩, ⟨1, 2⟩⟩⟩

/-- Surroundings with this input, without files, which keep what is written. -/
def console (contents : Contents) : Surroundings (StateM (List String)) where
  input := pure contents
  fileInput _ := pure (.error "no such file")
  output text := do
    modify (text :: ·)
    return .ok ()
  fileOutput _ _ := pure (.error (.opening "no such file"))
  errors text := modify (text :: ·)

/-- Two lines that cannot be read, and one that can be. -/
def twiceBroken : Contents := .bytes [0xff, 10, 0xfe, 10, 0x61, 0x62, 0x63, 10]

/-- Behind the bracket that is refused no token is asked for, unless they are to be shown; and
behind two lines that cannot be read the third one is quoted. -/
theorem dumping_adds_tokens_sample :
    ((unopened.source "<stdin>").read.outcome = .error (.error unopenedFailure) ∧
      (unopened.source "<stdin>").DecidedBy 1 ∧
      ((plainOptions.withTokens false).respond (unopened.source "<stdin>")).diagnostics =
        (unopened.source "<stdin>").reportAt
          ((ofItems (unopened.source "<stdin>").items).after 1) unopenedFailure ∧
      (ofItems (unopened.source "<stdin>").items).answer 2 = none ∧
      ((plainOptions.withTokens true).respond (unopened.source "<stdin>")).diagnostics =
        dumpedTokens "<stdin>" (unopened.source "<stdin>").scan.tokens ++
          (unopened.source "<stdin>").reportAt
            ((ofItems (unopened.source "<stdin>").items).after 3) unopenedFailure ∧
      (plainOptions.withTokens true).run (console unopened) = (do
        (console unopened).errors
          ((plainOptions.withTokens true).respond (unopened.source "<stdin>")).diagnostics
        plainOptions.conclude (console unopened)
          ((plainOptions.withTokens false).respond (unopened.source "<stdin>")).listing)) ∧
    (twiceBroken.source "<stdin>").lines = [none, none, some "abc"] ∧
      (plainOptions.withTokens true).respond (twiceBroken.source "<stdin>") =
        ⟨report "<stdin>" ["abc"] ⟨.lexical .input, .first⟩, none⟩ ∧
      (plainOptions.withTokens false).respond (twiceBroken.source "<stdin>") =
        ⟨report "<stdin>" [] ⟨.lexical .input, .first⟩, none⟩ := by
  obtain ⟨-, -, -, hReports, hRun⟩ :=
    dumping_adds_tokens plainOptions (unopened.source "<stdin>")
  obtain ⟨-, -, hBroken, -, -⟩ := dumping_adds_tokens plainOptions (twiceBroken.source "<stdin>")
  have hRead : (unopened.source "<stdin>").read.outcome = .error (.error unopenedFailure) :=
    Reading.outcome_of_failure? (by decide +kernel)
  have hTokens : (unopened.source "<stdin>").scan.tokens.take 1 = [unopenedBracket] := by
    decide +kernel
  have hDecided : (unopened.source "<stdin>").DecidedBy 1 := by
    refine .inr fun tokens ending => ?_
    have hAlone : (readTokens ([unopenedBracket] ++ []) none).outcome =
        .error (.error unopenedFailure) := Reading.outcome_of_failure? (by decide +kernel)
    obtain ⟨s', hRun⟩ := run_of_outcome hAlone
    rw [hTokens, hRead]
    exact outcome_of_beginning hRun (.inr ⟨⟨_, _, _, rfl, rfl⟩, Nat.zero_le _⟩) tokens ending
  have hSilent : (ofItems (unopened.source "<stdin>").items).answer 2 = none := by decide +kernel
  have hLines : (twiceBroken.source "<stdin>").lines = [none, none, some "abc"] := by
    decide +kernel
  refine ⟨⟨hRead, hDecided, ?_, hSilent, ?_, ?_⟩, hLines, ?_⟩
  · exact (hReports _ hRead).2 1 hDecided (Nat.succ_le_succ (Nat.zero_le _))
  · exact (hReports _ hRead).1 2 hSilent
  · exact hRun (console unopened) [0x7d, 0x78, 10] rfl rfl rfl true
  · have hResponses := hBroken [some "abc"] hLines
    rw [show (twiceBroken.source "<stdin>").name = "<stdin>" from rfl] at hResponses
    exact hResponses

/-- **Showing the tokens may change the report**: where the first two lines cannot be read, the
third one is quoted in the place of the first. -/
theorem dumping_changes_report :
    ¬ ∀ (o : Options) (bytes : List UInt8),
      ((o.withTokens true).respond (.ofBytes "<stdin>" bytes)).diagnostics =
        dumpedTokens "<stdin>" (Source.ofBytes "<stdin>" bytes).scan.tokens ++
          ((o.withTokens false).respond (.ofBytes "<stdin>" bytes)).diagnostics := by
  intro h
  exact absurd (h plainOptions [0xff, 10, 0xfe, 10, 0x61, 0x62, 0x63, 10]) (by decide +kernel)

end JumpCode
