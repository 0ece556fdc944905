import JumpCode.Proofs.Lexing.Bytes
import JumpCode.Proofs.Lexing.Places
import Mathlib.Order.Bounds.Basic

/-!
# JumpCode — the stream of characters

What reading delivers for any bytes, said without the code that splits and decodes them: the lines
one after the other, each as its characters and a newline, or as one failure; and where every
character has its place.

* `Lines` — the lines of bytes; `lines_iff` — the bytes are split into these;
* `Row` — the characters of a line at their places; `row_iff` — a line is delivered as this;
* `Delivered` — what stands for lines in the stream;
* `Source.delivered` — the stream of a source, its order, and what a span from one character to
  another covers.
-/

namespace JumpCode

open Text

/-! ## Lines -/

/-- The lines of bytes: what stands between newlines, without the carriage return that it may end
with, and what stands behind the last one, if anything does. -/
inductive Lines : List UInt8 → List (List UInt8) → Prop
  | none : Lines [] []
  | last {piece} (hInside : 10 ∉ piece) (hSome : piece ≠ []) : Lines piece [piece]
  | line {piece rest lines} (hInside : 10 ∉ piece) (hRest : Lines rest lines) :
      Lines (piece ++ 10 :: rest) (chomp 13 piece :: lines)

theorem lines_splitLines (bytes : List UInt8) : Lines bytes (splitLines bytes) := by
  induction bytes using line_induction (10 : UInt8) with
  | last piece hInside =>
    by_cases hSome : piece = []
    · subst hSome
      exact .none
    · rw [splitLines_last hInside hSome]
      exact .last hInside hSome
  | line piece rest hInside ih =>
    rw [splitLines_line hInside]
    exact .line hInside ih

/-- Bytes are split into their `Lines`, and these are the only ones. -/
theorem lines_iff {bytes : List UInt8} {lines : List (List UInt8)} :
    Lines bytes lines ↔ splitLines bytes = lines := by
  constructor
  · intro h
    induction h with
    | none => rfl
    | last hInside hSome => exact splitLines_last hInside hSome
    | line hInside _ ih => rw [splitLines_line hInside, ih]
  · rintro rfl
    exact lines_splitLines bytes

/-! ## The places of the characters -/

/-- Whether a character ends where it should, for the place where it begins: a tab at the least
greater column that is a stop of the line, any other one column further. -/
structure EndsInPlace (c : Located Char) : Prop where
  line : c.span.stop.line = c.span.start.line
  tab : c.value = '\t' →
    IsLeast {column | c.span.start.column < column ∧ ∃ k, column = 4 * k + 1} c.span.stop.column
  other : c.value ≠ '\t' → c.span.stop.column = c.span.start.column + 1

/-- The characters of a line from a position on, with the newline that ends it: each begins where
the one before it ends. -/
structure Row (p : Position) (line : List Char) (row : Text) : Prop where
  chars : chars row = line ++ ['\n']
  first : ∀ c ∈ row.head?, c.span.start = p
  chain : row.IsChain fun c d => d.span.start = c.span.stop
  ends : ∀ c ∈ row, EndsInPlace c

theorem tab_isLeast {p : Position} (h : 1 ≤ p.column) :
    IsLeast {column | p.column < column ∧ ∃ k, column = 4 * k + 1} p.tab.column := by
  refine ⟨⟨p.column_lt_tab, (p.column - 1) / 4 + 1, ?_⟩, ?_⟩
  · simp only [Position.tab, Position.tabStop]
    omega
  · rintro column ⟨hBeyond, k, rfl⟩
    exact Position.tab_le h hBeyond

/-- A character `EndsInPlace` exactly if it ends where `Position.after` has it end. -/
theorem endsInPlace_iff {c : Located Char} (h : 1 ≤ c.span.start.column) :
    EndsInPlace c ↔ c.span.stop = c.span.start.after c.value := by
  obtain ⟨value, start, stop⟩ := c
  by_cases hTab : value = '\t'
  · subst hTab
    rw [Position.after, if_pos rfl]
    constructor
    · intro hEnds
      -- there is only one least stop
      have hColumn := (hEnds.tab rfl).unique (tab_isLeast h)
      have hLine := hEnds.line
      cases stop
      simp_all [Position.tab]
    · intro hStop
      obtain rfl : stop = start.tab := hStop
      exact ⟨rfl, fun _ => tab_isLeast h, fun hNot => absurd rfl hNot⟩
  · rw [Position.after, if_neg hTab]
    constructor
    · intro hEnds
      have hColumn := hEnds.other hTab
      have hLine := hEnds.line
      cases stop
      simp_all [Position.advance]
    · intro hStop
      obtain rfl : stop = start.advance := hStop
      exact ⟨rfl, fun hIs => absurd hIs hTab, fun _ => rfl⟩

theorem row_cons_iff {p : Position} {d : Char} {line : List Char} {c : Located Char} {row : Text} :
    Row p (d :: line) (c :: row) ↔
      c.value = d ∧ c.span.start = p ∧ EndsInPlace c ∧ Row c.span.stop line row := by
  constructor
  · rintro ⟨hChars, hFirst, hChain, hEnds⟩
    obtain ⟨hValue, hMore⟩ := List.cons.inj hChars
    obtain ⟨hNext, hChain⟩ := List.isChain_cons.mp hChain
    obtain ⟨hEnd, hEnds⟩ := List.forall_mem_cons.mp hEnds
    exact ⟨hValue, hFirst c rfl, hEnd, hMore, hNext, hChain, hEnds⟩
  · rintro ⟨rfl, rfl, hEnd, hMore, hNext, hChain, hEnds⟩
    exact ⟨by rw [chars_cons, hMore]; rfl, fun e he => Option.some.inj he ▸ rfl,
      List.isChain_cons.mpr ⟨hNext, hChain⟩, List.forall_mem_cons.mpr ⟨hEnd, hEnds⟩⟩

/-- A line is delivered as its `Row`: `lineItems` gives the items of this row and of no other one.
-/
theorem row_iff {p : Position} (h : 1 ≤ p.column) {line : List Char} {row : Text} :
    Row p line row ↔ items row = lineItems p line := by
  induction line generalizing p row with
  | nil =>
    rw [lineItems]
    constructor
    · rintro ⟨hChars, hFirst, -, hEnds⟩
      -- the row of an empty line is the newline alone
      obtain ⟨c, more, rfl, hNewline, hNone⟩ := chars_eq_cons_iff.mp hChars
      obtain rfl := chars_eq_nil_iff.mp hNone
      obtain rfl : c.span.start = p := hFirst c rfl
      have hStop := (endsInPlace_iff h).mp (hEnds c (List.mem_singleton_self c))
      rw [items_cons, items_nil, ← hNewline, ← hStop]
    · intro hItems
      obtain ⟨c, more, rfl, hItem, hNone⟩ := List.map_eq_cons_iff.mp hItems
      obtain rfl := List.map_eq_nil_iff.mp hNone
      obtain ⟨hNewline, hSpan⟩ := Item.char.inj hItem
      refine ⟨by rw [chars_cons, hNewline]; rfl, fun e he => ?_, .singleton c, ?_⟩
      · rw [← Option.some.inj he, hSpan]
      · rw [List.forall_mem_singleton, endsInPlace_iff (by rwa [hSpan]), hSpan, hNewline]
  | cons d line ih =>
    -- columns stay positive from one character to the next
    have hNext : 1 ≤ (p.after d).column := Nat.le_trans h (Nat.le_of_lt (p.column_lt_after d))
    rw [lineItems]
    cases row with
    -- a row has the characters of the line and one more
    | nil => exact ⟨fun hRow => absurd hRow.chars (by simp), fun hItems => by cases hItems⟩
    | cons c row =>
      rw [row_cons_iff, items_cons, List.cons.injEq, Item.char.injEq]
      constructor
      · rintro ⟨rfl, rfl, hEnd, hRow⟩
        have hStop := (endsInPlace_iff h).mp hEnd
        rw [hStop] at hRow
        exact ⟨⟨rfl, by rw [← hStop]⟩, (ih hNext).mp hRow⟩
      · rintro ⟨⟨rfl, hSpan⟩, hItems⟩
        have hStart : c.span.start = p := congrArg Span.start hSpan
        have hStop : c.span.stop = p.after c.value := congrArg Span.stop hSpan
        refine ⟨rfl, hStart, (endsInPlace_iff (hStart ▸ h)).mpr (hStart ▸ hStop), ?_⟩
        rw [hStop]
        exact (ih hNext).mpr hItems

/-- Every line has a `Row`. -/
theorem exists_row (p : Position) (line : List Char) : ∃ row, items row = lineItems p line := by
  induction line generalizing p with
  | nil => exact ⟨[⟨'\n', ⟨p, p.after '\n'⟩⟩], rfl⟩
  | cons c line ih =>
    obtain ⟨row, hRow⟩ := ih (p.after c)
    exact ⟨⟨c, ⟨p, p.after c⟩⟩ :: row, by rw [items_cons, hRow]; rfl⟩

/-! ## The stream -/

/-- What stands in the stream for lines that are numbered from `n` on: for one that is the bytes of
a text (`encode`) its `Row`, for any other one failure, and nothing behind the last. -/
inductive Delivered : Nat → List (List UInt8) → List Item → Prop
  | done {n} : Delivered n [] []
  | readable {n line text row lines items} (hLine : line = encode text) (hRow : Row ⟨n, 1⟩ text row)
      (hRest : Delivered (n + 1) lines items) :
      Delivered n (line :: lines) (Text.items row ++ items)
  | unreadable {n line lines items} (hLine : ∀ text, line ≠ encode text)
      (hRest : Delivered (n + 1) lines items) :
      Delivered n (line :: lines) (.unreadable :: items)

theorem decodeLine_eq_none {line : List UInt8} (h : ∀ text, line ≠ encode text) :
    decodeLine line = none := by
  by_contra hSome
  obtain ⟨text, hText⟩ :=
    exists_encode_of_decodeLine (Option.isSome_iff_ne_none.mpr hSome)
  exact h text hText

/-- The stream has what it should have for its lines, and nothing else: `Delivered` holds of what
`itemsFrom` gives and of no other stream. -/
theorem delivered_iff {n : Nat} {lines : List (List UInt8)} {items : List Item} :
    Delivered n lines items ↔ items = itemsFrom n (lines.map decodeLine) := by
  constructor
  · intro h
    induction h with
    | done => rfl
    | readable hLine hRow _ ih =>
      subst hLine
      rw [List.map_cons, decodeLine_encode, itemsFrom, String.toList_ofList, ← ih,
        (row_iff (Nat.le_refl 1)).mp hRow]
    | unreadable hLine _ ih => rw [List.map_cons, decodeLine_eq_none hLine, itemsFrom, ← ih]
  · rintro rfl
    induction lines generalizing n with
    | nil => exact .done
    | cons line lines ih =>
      -- a line is the bytes of a text or of none
      by_cases hText : ∃ text, line = encode text
      · obtain ⟨text, rfl⟩ := hText
        obtain ⟨row, hRow⟩ := exists_row ⟨n, 1⟩ text
        rw [List.map_cons, decodeLine_encode, itemsFrom, String.toList_ofList, ← hRow]
        exact .readable rfl ((row_iff (Nat.le_refl 1)).mpr hRow) ih
      · rw [not_exists] at hText
        rw [List.map_cons, decodeLine_eq_none hText, itemsFrom]
        exact .unreadable hText ih

/-! ## The order of the stream -/

/-- The character that an `Item` is, if it is one. -/
def Item.located? : Item → Option (Located Char)
  | .char c span => some ⟨c, span⟩
  | .unreadable => none

/-- The characters of a stream, without the unreadable lines. -/
def Text.ofItems (stream : List Item) : Text := stream.filterMap Item.located?

@[simp] theorem Text.ofItems_items (text : Text) : ofItems (items text) = text := by
  induction text with
  | nil => rfl
  | cons c text ih => exact congrArg (c :: ·) ih

theorem Text.ofItems_append (a b : List Item) : ofItems (a ++ b) = ofItems a ++ ofItems b :=
  List.filterMap_append

theorem Text.mem_ofItems (a : List Item) (c : Located Char) (b : List Item) :
    c ∈ ofItems (a ++ .char c.value c.span :: b) := by
  rw [Text.ofItems_append]
  exact List.mem_append_right _ (List.mem_cons_self ..)

theorem Row.grows {p : Position} {line : List Char} {row : Text} (h : Row p line row) :
    ∀ c ∈ row, c.span.stop.line = c.span.start.line ∧ c.span.start.column < c.span.stop.column := by
  intro c hc
  have hEnds := h.ends c hc
  refine ⟨hEnds.line, ?_⟩
  by_cases hTab : c.value = '\t'
  · exact (hEnds.tab hTab).1.1
  · rw [hEnds.other hTab]
    exact Nat.lt_succ_self _

/-- The characters of a `Row` stand on its line, one after the other. -/
theorem Row.ordered {p : Position} {line : List Char} {row : Text} (h : Row p line row) :
    (∀ c ∈ row, c.span.start.line = p.line ∧ p.column ≤ c.span.start.column) ∧
      row.Pairwise fun c d => c.span.start.Before d.span.start := by
  induction line generalizing p row with
  | nil =>
    obtain ⟨c, more, rfl, -, hNone⟩ := chars_eq_cons_iff.mp h.chars
    obtain rfl := chars_eq_nil_iff.mp hNone
    obtain rfl : c.span.start = p := h.first c rfl
    exact ⟨List.forall_mem_singleton.mpr ⟨rfl, Nat.le_refl _⟩, List.pairwise_singleton ..⟩
  | cons d line ih =>
    obtain ⟨c, more, rfl, -⟩ := chars_eq_cons_iff.mp h.chars
    -- the first character ends behind where it begins, and the others stand behind it
    obtain ⟨hLine, hColumn⟩ := h.grows c (List.mem_cons_self ..)
    obtain ⟨-, rfl, -, hRow⟩ := row_cons_iff.mp h
    obtain ⟨hPlaces, hPairs⟩ := ih hRow
    refine ⟨List.forall_mem_cons.mpr ⟨⟨rfl, Nat.le_refl _⟩, fun e he => ?_⟩,
      List.pairwise_cons.mpr ⟨fun e he => ?_, hPairs⟩⟩
    · obtain ⟨hSame, hBehind⟩ := hPlaces e he
      exact ⟨hSame.trans hLine, by omega⟩
    · obtain ⟨hSame, hBehind⟩ := hPlaces e he
      exact .inr ⟨(hSame.trans hLine).symm, by omega⟩

/-- The characters of a stream stand on lines from its first one on, one after the other
(`Position.Before`). -/
theorem Delivered.ordered {n : Nat} {lines : List (List UInt8)} {items : List Item}
    (h : Delivered n lines items) :
    (∀ c ∈ ofItems items, n ≤ c.span.start.line) ∧
      (ofItems items).Pairwise fun c d => c.span.start.Before d.span.start := by
  induction h with
  | done => exact ⟨List.forall_mem_nil _, List.Pairwise.nil⟩
  | @readable n line text row lines items hLine hRow _ ih =>
    obtain ⟨hLines, hPairs⟩ := ih
    obtain ⟨hPlaces, hRowPairs⟩ := hRow.ordered
    rw [Text.ofItems_append, Text.ofItems_items]
    -- within the row by columns, between rows by their lines
    refine ⟨fun c hc => ?_, List.pairwise_append.mpr ⟨hRowPairs, hPairs, fun c hc d hd => ?_⟩⟩
    · rcases List.mem_append.mp hc with hc | hc
      · exact Nat.le_of_eq (hPlaces c hc).1.symm
      · exact Nat.le_of_succ_le (hLines c hc)
    · refine .inl ?_
      rw [(hPlaces c hc).1]
      exact hLines d hd
  | unreadable _ _ ih => exact ⟨fun c hc => Nat.le_of_succ_le (ih.1 c hc), ih.2⟩

/-! ## Spans over several characters -/

/-- Whether a `Span` that stands on one line covers a place: from its start on, and before its stop.
-/
def Span.Covers (s : Span) (p : Position) : Prop :=
  s.start.line = p.line ∧ s.stop.line = p.line ∧ s.start.column ≤ p.column ∧
    p.column < s.stop.column

section

variable {mid : Text} {d : Located Char}

/-- Characters that follow each other end behind the place where they begin. The induction is on
those between the first and the last. -/
theorem grows_of_chain {c : Located Char}
    (hChain : (c :: (mid ++ [d])).IsChain fun a b => b.span.start = a.span.stop)
    (hGrows : ∀ a ∈ c :: (mid ++ [d]),
      a.span.stop.line = a.span.start.line ∧ a.span.start.column < a.span.stop.column) :
    d.span.stop.line = c.span.start.line ∧ c.span.start.column < d.span.stop.column := by
  induction mid generalizing c with
  | nil =>
    obtain ⟨hFirst, hLast⟩ := List.forall_mem_cons.mp hGrows
    have hNext : d.span.start = c.span.stop := (List.isChain_cons_cons.mp hChain).1
    have hd := hLast d (List.mem_singleton_self d)
    rw [hNext] at hd
    exact ⟨hd.1.trans hFirst.1, by omega⟩
  | cons e mid ih =>
    obtain ⟨hFirst, hMore⟩ := List.forall_mem_cons.mp hGrows
    obtain ⟨hNext, hChain⟩ := List.isChain_cons_cons.mp hChain
    have hRest := ih hChain hMore
    rw [hNext] at hRest
    exact ⟨hRest.1.trans hFirst.1, by omega⟩

/-- From one character to another a span (`Span.join`) covers what they and those between them
cover. -/
theorem covers_join_iff {c : Located Char}
    (hChain : (c :: (mid ++ [d])).IsChain fun a b => b.span.start = a.span.stop)
    (hGrows : ∀ a ∈ c :: (mid ++ [d]),
      a.span.stop.line = a.span.start.line ∧ a.span.start.column < a.span.stop.column)
    (p : Position) :
    (c.span.join d.span).Covers p ↔ ∃ a ∈ c :: (mid ++ [d]), a.span.Covers p := by
  induction mid generalizing c with
  | nil =>
    obtain ⟨hFirst, hLast⟩ := List.forall_mem_cons.mp hGrows
    have hNext : d.span.start = c.span.stop := (List.isChain_cons_cons.mp hChain).1
    have hd := hLast d (List.mem_singleton_self d)
    simp only [Span.Covers, Span.join, List.nil_append, List.mem_cons, List.not_mem_nil, or_false,
      exists_eq_or_imp, exists_eq_left, hNext]
    rw [hNext] at hd
    omega
  | cons e mid ih =>
    obtain ⟨hFirst, hMore⟩ := List.forall_mem_cons.mp hGrows
    obtain ⟨hNext, hChain⟩ := List.isChain_cons_cons.mp hChain
    -- the columns of the first character, and from its end on those of the rest
    have hRest := grows_of_chain hChain hMore
    rw [List.exists_mem_cons_iff, List.cons_append, ← ih hChain hMore]
    simp only [Span.Covers, Span.join, hNext] at hRest ⊢
    omega

end

theorem items_eq_append_cons {text : Text} {a b : List Item} {c : Char} {span : Span}
    (h : items text = a ++ .char c span :: b) :
    ∃ x y : Text, text = x ++ ⟨c, span⟩ :: y ∧ items x = a ∧ items y = b := by
  obtain ⟨x, rest, rfl, rfl, hRest⟩ := List.map_eq_append_iff.mp h
  obtain ⟨d, y, rfl, hItem, rfl⟩ := List.map_eq_cons_iff.mp hRest
  obtain ⟨rfl, rfl⟩ := Item.char.inj hItem
  exact ⟨x, y, rfl, rfl, rfl⟩

/-- Where a character stands in the stream of lines that are numbered from `n` on: in the `Row` of
one of them. What comes after the character is the rest of this row and then the stream of lines
with greater numbers. -/
inductive InRow (n : Nat) (lines : List (List UInt8)) (c : Located Char) (after : List Item) : Prop
  | intro {i text front back later rest} (hLine : lines[i]? = some (encode text))
      (hRow : Row ⟨n + i, 1⟩ text (front ++ c :: back)) (hAfter : after = items back ++ rest)
      (hLater : Delivered (n + i + 1) later rest) : InRow n lines c after

/-- The same with one line more in front, which has the number `n`. -/
theorem InRow.behind_line {n : Nat} {lines : List (List UInt8)} {c : Located Char}
    {after : List Item} (h : InRow (n + 1) lines c after) (line : List UInt8) :
    InRow n (line :: lines) c after := by
  obtain @⟨i, text, front, back, later, rest, hLine, hRow, hAfter, hLater⟩ := h
  rw [show n + 1 + i = n + (i + 1) by omega] at hRow hLater
  exact .intro (by simpa using hLine) hRow hAfter hLater

/-- Every character of the stream stands in a row. -/
theorem Delivered.inRow {n : Nat} {lines : List (List UInt8)} {stream : List Item}
    (h : Delivered n lines stream) {before after : List Item} {c : Located Char}
    (hStream : stream = before ++ .char c.value c.span :: after) : InRow n lines c after := by
  induction h generalizing before with
  | done => exact absurd hStream (by simp)
  | @readable n line text row lines stream hLine hRow hRest ih =>
    -- either the character stands on a later line, or on this one
    rcases List.append_eq_append_iff.mp hStream with
      ⟨behind, -, hStream⟩ | ⟨behind, hItems, hBehind⟩
    · exact (ih hStream).behind_line line
    cases behind with
    | nil => exact (@ih [] hBehind.symm).behind_line line
    | cons item behind =>
      obtain ⟨rfl, hAfter⟩ := List.cons.inj hBehind
      obtain ⟨front, back, rfl, -, rfl⟩ := items_eq_append_cons hItems
      exact .intro (i := 0) (by rw [hLine]; rfl) hRow hAfter hRest
  | @unreadable n line lines stream hLine hRest ih =>
    cases before with
    | nil => cases hStream
    | cons item before => exact (ih (List.cons.inj hStream).2).behind_line line

/-- Between two characters on one line there is nothing but characters of a `Row`. -/
theorem Delivered.same_line {n : Nat} {lines : List (List UInt8)} {stream : List Item}
    (h : Delivered n lines stream) {before mid after : List Item} {c d : Located Char}
    (hStream : stream =
      before ++ .char c.value c.span :: (mid ++ .char d.value d.span :: after))
    (hLine : c.span.start.line = d.span.start.line) :
    ∃ (text : Text) (p : Position) (line : List Char) (front back : Text),
      mid = items text ∧ Row p line (front ++ (c :: (text ++ [d]) ++ back)) := by
  obtain @⟨i, line, front, back, later, rest, -, hRow, hAfter, hRest⟩ := h.inRow hStream
  -- on the lines behind the row all numbers are greater, so the other character is in it
  have hNumber := (hRow.ordered.1 c (by simp)).1
  have hLater (hd : d ∈ ofItems rest) : False := by
    have hLe := hRest.ordered.1 d hd
    rw [← hLine, hNumber] at hLe
    exact absurd hLe (by simp)
  rcases List.append_eq_append_iff.mp hAfter with ⟨more, hItems, hMore⟩ | ⟨more, -, hMore⟩
  · cases more with
    | nil =>
      obtain rfl : .char d.value d.span :: after = rest := hMore
      exact (hLater (Text.mem_ofItems [] d after)).elim
    | cons item more =>
      obtain ⟨rfl, -⟩ := List.cons.inj hMore
      obtain ⟨text, back, rfl, rfl, -⟩ := items_eq_append_cons hItems
      exact ⟨text, _, line, front, back, rfl, by simpa using hRow⟩
  · exact (hLater (hMore ▸ Text.mem_ofItems more d after)).elim

/-! ## The stream of a source -/

/-- **The stream of characters is the input with exact positions.** For any bytes, what is read is
what their lines deliver, and nothing behind it: of each line that is the bytes of a text the
characters and a newline, of any other one failure. Lines are numbered from one on, those that
cannot be read included; the characters of a line begin in column one and where the one before ends,
and end where a tab stop or the next column is. So the positions grow through the whole stream, and
the span from one character to a later one on its line covers what these and the characters between
them cover. -/
theorem Source.delivered (name : String) (bytes : List UInt8) :
    (∀ stream, (∃ lines, Lines bytes lines ∧ Delivered 1 lines stream) ↔
      stream = (Source.ofBytes name bytes).items) ∧
    ((ofItems (Source.ofBytes name bytes).items).Pairwise fun c d =>
      c.span.start.Before d.span.start) ∧
    ∀ (before mid after : List Item) (c d : Located Char),
      (Source.ofBytes name bytes).items =
        before ++ .char c.value c.span :: (mid ++ .char d.value d.span :: after) →
      c.span.start.line = d.span.start.line →
      ∀ p, (c.span.join d.span).Covers p ↔
        ∃ e ∈ c :: (ofItems mid ++ [d]), e.span.Covers p := by
  have hDelivered : Delivered 1 (splitLines bytes) (Source.ofBytes name bytes).items :=
    delivered_iff.mpr rfl
  refine ⟨fun stream => ?_, hDelivered.ordered.2, fun before mid after c d hStream hLine p => ?_⟩
  · constructor
    · rintro ⟨lines, hLines, hStream⟩
      rw [delivered_iff.mp hStream, ← lines_iff.mp hLines]
      rfl
    · rintro rfl
      exact ⟨_, lines_splitLines bytes, hDelivered⟩
  · obtain ⟨text, q, line, front, back, rfl, hRow⟩ := hDelivered.same_line hStream hLine
    rw [Text.ofItems_items]
    exact covers_join_iff hRow.chain.right_of_append.left_of_append
      (fun e he => hRow.grows e (by simp only [List.mem_append]; exact .inr (.inl he))) p

end JumpCode
