import JumpCode.Proofs.Lexing.Motion
import JumpCode.Proofs.Lexing.Stream

/-!
# JumpCode — places in words of 32 bits

`Source.itemsInWords` delivers what `Source.items` delivers, with the line and the column of every
place in a word. The words move along with the exact counts (`Position.after_inWords`), so that
every place is what it should be modulo 2^32, and exactly what it should be as long as the counts
fit.

They do not fit for ever: behind 2^30 tabs, or behind 2^32 lines, the words begin at one again, and
the places do not grow any more.

* `Position.wrapped` — a place without what goes beyond 32 bits;
* `Source.itemsInWords_eq` — the places in words, for every source;
* `Source.itemsInWords_of_fits` — the same stream, as long as all places fit;
* `Source.scanInWords_eq` — the tokens of a source, in such places;
* `Source.delivered_inWords` — what is delivered for any bytes, with places in words;
* `Source.places_start_again` — where the places do not grow.
-/

namespace JumpCode

open Text

/-! ## Places that wrap around -/

/-- A `Position` without what goes beyond 32 bits, in its line and in its column. -/
def Position.wrapped (p : Position) : Position := p.inWords.toPosition

/-- One column further in words, as long as there is one: `Position.wrapped` goes along with
`Position.advance`. -/
theorem Position.advance_wrapped {p : Position} (h : p.wrapped.column + 1 < UInt32.size) :
    p.advance.wrapped = p.wrapped.advance := by
  rw [wrapped, advance_inWords]
  simp only [wrapped, WordPosition.toPosition] at h
  simp only [wrapped, advance, WordPosition.advance, WordPosition.toPosition, UInt32.toNat_add,
    UInt32.reduceToNat, mk.injEq, true_and]
  exact Nat.mod_eq_of_lt h

/-- The characters of a stream are moved with it. -/
theorem Text.ofItems_moved (g : Position → Position) (stream : List Item) :
    ofItems (stream.map (Item.moved g)) = (ofItems stream).map (Located.moved g) := by
  induction stream with
  | nil => rfl
  | cons item stream ih =>
    cases item with
    | char c span => exact congrArg (_ :: ·) ih
    | unreadable => exact ih

/-! ## The stream in words -/

theorem Position.one_le_after {p : Position} (h : 1 ≤ p.column) (c : Char) :
    1 ≤ (p.after c).column :=
  Nat.le_of_lt (Nat.lt_of_le_of_lt h (p.column_lt_after c))

theorem lineItemsInWords_eq {p : Position} (h : 1 ≤ p.column) (line : List Char) :
    lineItemsInWords p.inWords line = (lineItems p line).map (Item.moved Position.wrapped) := by
  induction line generalizing p with
  | nil =>
    rw [lineItemsInWords, ← Position.after_inWords h]
    rfl
  | cons c line ih =>
    rw [lineItemsInWords, ← Position.after_inWords h, ih (Position.one_le_after h c)]
    rfl

theorem itemsFromInWords_eq (i : Nat) (lines : List (Option String)) :
    itemsFromInWords i lines = (itemsFrom (i + 1) lines).map (Item.moved Position.wrapped) := by
  induction lines generalizing i with
  | nil => rfl
  | cons line lines ih =>
    cases line with
    | none =>
      rw [itemsFromInWords, ih]
      rfl
    | some text =>
      -- the number of the line, in words
      have hNumber : (⟨UInt32.ofNat i + 1, 1⟩ : WordPosition) = Position.inWords ⟨i + 1, 1⟩ := by
        rw [Position.inWords, UInt32.ofNat_add]
        rfl
      rw [itemsFromInWords, itemsFrom, List.map_append, hNumber, ih,
        lineItemsInWords_eq (Nat.le_refl 1)]

/-- **The places in words are the exact ones modulo 2^32**, for every source. -/
theorem Source.itemsInWords_eq (s : Source) :
    s.itemsInWords = s.items.map (Item.moved Position.wrapped) :=
  itemsFromInWords_eq 0 s.lines

theorem Source.length_itemsInWords (s : Source) : s.itemsInWords.length = s.items.length := by
  rw [Source.itemsInWords_eq, List.length_map]

/-- **The tokens, in places that wrap around**, and the failure behind them: what `Source.scan`
finds, moved by `Position.wrapped`. The lexer never looks at a place (`Lexer.scan_moved`). -/
theorem Source.scanInWords_eq (s : Source) :
    s.scanInWords = ⟨s.scan.tokens.map (Located.moved Position.wrapped),
      s.scan.failure.map (Located.moved Position.wrapped),
      s.scan.lexer.moved Position.wrapped⟩ := by
  rw [Source.scanInWords, Source.itemsInWords_eq]
  exact Lexer.scan_moved Position.wrapped (.ofItems s.items)

/-- No character of a `Source` ends further than words can count (`Position.Fits`). -/
def Source.Fits (s : Source) : Prop := ∀ c ∈ ofItems s.items, c.span.stop.Fits

theorem Item.moved_eq_self {item : Item}
    (h : ∀ c, item.located? = some c → c.span.start.Fits ∧ c.span.stop.Fits) :
    item.moved Position.wrapped = item := by
  cases item with
  | char c span =>
    obtain ⟨hStart, hStop⟩ := h ⟨c, span⟩ rfl
    exact congrArg (Item.char c)
      (congrArg₂ Span.mk (Position.toPosition_inWords hStart) (Position.toPosition_inWords hStop))
  | unreadable => rfl

/-- A character of a source begins in front of its end, on the same line. -/
theorem Source.grows {name : String} {bytes : List UInt8} {c : Located Char}
    (h : c ∈ ofItems (Source.ofBytes name bytes).items) :
    c.span.stop.line = c.span.start.line ∧ c.span.start.column < c.span.stop.column := by
  have hDelivered : Delivered 1 (splitLines bytes) (Source.ofBytes name bytes).items :=
    delivered_iff.mpr rfl
  obtain ⟨item, hItem, hChar⟩ := List.mem_filterMap.mp h
  obtain ⟨before, after, hStream⟩ := List.append_of_mem hItem
  cases item with
  | char value span =>
    obtain rfl := Option.some.inj hChar
    obtain @⟨i, line, front, back, later, rest, -, hRow, -, -⟩ :=
      hDelivered.inRow (c := ⟨value, span⟩) hStream
    exact hRow.grows _ (by simp)
  | unreadable => cases hChar

/-- **Nothing is lost in words, as long as everything fits**: the stream in words is `Source.items`.
-/
theorem Source.itemsInWords_of_fits {name : String} {bytes : List UInt8}
    (h : (Source.ofBytes name bytes).Fits) :
    (Source.ofBytes name bytes).itemsInWords = (Source.ofBytes name bytes).items := by
  rw [Source.itemsInWords_eq]
  refine (List.map_congr_left fun item hItem => Item.moved_eq_self fun c hChar => ?_).trans
    (List.map_id' _)
  have hMem : c ∈ ofItems (Source.ofBytes name bytes).items :=
    List.mem_filterMap.mpr ⟨item, hItem, hChar⟩
  -- a character that ends in range begins in range
  obtain ⟨hLine, hColumn⟩ := Source.grows hMem
  have hStop := h c hMem
  exact ⟨⟨hLine ▸ hStop.line, Nat.lt_trans hColumn hStop.column⟩, hStop⟩

/-- **The stream of characters is the input, with positions that are exact as long as words can
count them.** For any bytes, what is read is what their lines deliver, with the places of
`Delivered` modulo 2^32. If no character ends behind the last line or column that words can count,
the places are these themselves: they grow through the whole stream, and the span from one character
to a later one on its line covers what these and the characters between them cover. -/
theorem Source.delivered_inWords (name : String) (bytes : List UInt8) :
    (∀ stream, (∃ lines counted, Lines bytes lines ∧ Delivered 1 lines counted ∧
        stream = counted.map (Item.moved Position.wrapped)) ↔
      stream = (Source.ofBytes name bytes).itemsInWords) ∧
    ((Source.ofBytes name bytes).Fits →
      (∀ stream, (∃ lines, Lines bytes lines ∧ Delivered 1 lines stream) ↔
        stream = (Source.ofBytes name bytes).itemsInWords) ∧
      ((ofItems (Source.ofBytes name bytes).itemsInWords).Pairwise fun c d =>
        c.span.start.Before d.span.start) ∧
      ∀ (before mid after : List Item) (c d : Located Char),
        (Source.ofBytes name bytes).itemsInWords =
          before ++ .char c.value c.span :: (mid ++ .char d.value d.span :: after) →
        c.span.start.line = d.span.start.line →
        ∀ p, (c.span.join d.span).Covers p ↔
          ∃ e ∈ c :: (ofItems mid ++ [d]), e.span.Covers p) := by
  -- the stream in words is the exact one with each place wrapped, line by line
  have hExact := Source.delivered name bytes
  constructor
  · intro stream
    rw [Source.itemsInWords_eq]
    constructor
    · rintro ⟨lines, counted, hLines, hDelivered, rfl⟩
      rw [(hExact.1 counted).mp ⟨lines, hLines, hDelivered⟩]
    · rintro rfl
      obtain ⟨lines, hLines, hDelivered⟩ := (hExact.1 _).mpr rfl
      exact ⟨lines, _, hLines, hDelivered, rfl⟩
  · -- where all places fit the two streams are one, and what is said of the exact one holds
    intro hFits
    rw [Source.itemsInWords_of_fits hFits]
    exact hExact

/-- Behind a line that cannot be read stand two letters with a tab between them, which reaches from
the second column to the fifth. -/
theorem Source.delivered_inWords_sample :
    (Source.ofBytes "sample" [0xff, 10, 97, 9, 98, 13, 10]).itemsInWords =
      [.unreadable, .char 'a' ⟨⟨2, 1⟩, ⟨2, 2⟩⟩, .char '\t' ⟨⟨2, 2⟩, ⟨2, 5⟩⟩,
        .char 'b' ⟨⟨2, 5⟩, ⟨2, 6⟩⟩, .char '\n' ⟨⟨2, 6⟩, ⟨2, 7⟩⟩] ∧
    ∀ p, (Span.mk ⟨2, 1⟩ ⟨2, 6⟩).Covers p ↔
      ∃ e ∈ ([⟨'a', ⟨⟨2, 1⟩, ⟨2, 2⟩⟩⟩, ⟨'\t', ⟨⟨2, 2⟩, ⟨2, 5⟩⟩⟩, ⟨'b', ⟨⟨2, 5⟩, ⟨2, 6⟩⟩⟩] : Text),
        e.span.Covers p := by
  have hItems : (Source.ofBytes "sample" [0xff, 10, 97, 9, 98, 13, 10]).items =
      [.unreadable, .char 'a' ⟨⟨2, 1⟩, ⟨2, 2⟩⟩, .char '\t' ⟨⟨2, 2⟩, ⟨2, 5⟩⟩,
        .char 'b' ⟨⟨2, 5⟩, ⟨2, 6⟩⟩, .char '\n' ⟨⟨2, 6⟩, ⟨2, 7⟩⟩] := by decide +kernel
  have hStream : (Source.ofBytes "sample" [0xff, 10, 97, 9, 98, 13, 10]).itemsInWords =
      [.unreadable, .char 'a' ⟨⟨2, 1⟩, ⟨2, 2⟩⟩, .char '\t' ⟨⟨2, 2⟩, ⟨2, 5⟩⟩,
        .char 'b' ⟨⟨2, 5⟩, ⟨2, 6⟩⟩, .char '\n' ⟨⟨2, 6⟩, ⟨2, 7⟩⟩] := by decide +kernel
  have hFits : (Source.ofBytes "sample" [0xff, 10, 97, 9, 98, 13, 10]).Fits := by
    intro c hc
    rw [hItems] at hc
    simp only [ofItems, List.filterMap_cons, Item.located?, List.filterMap_nil, List.mem_cons,
      List.not_mem_nil, or_false] at hc
    rcases hc with rfl | rfl | rfl | rfl <;> exact ⟨by decide, by decide⟩
  exact ⟨hStream, ((Source.delivered_inWords "sample" [0xff, 10, 97, 9, 98, 13, 10]).2 hFits).2.2
    [.unreadable] [.char '\t' ⟨⟨2, 2⟩, ⟨2, 5⟩⟩] _ ⟨'a', ⟨⟨2, 1⟩, ⟨2, 2⟩⟩⟩
    ⟨'b', ⟨⟨2, 5⟩, ⟨2, 6⟩⟩⟩ hStream rfl⟩

/-! ## Where words wrap around -/

/-- Behind `n` lines that are empty begins the next one. -/
theorem Position.through_newlines (p : Position) (n : Nat) :
    p.through (List.replicate (n + 1) '\n') = ⟨p.line + n + 1, 1⟩ := by
  induction n generalizing p with
  | zero => rfl
  | succ n ih =>
    rw [List.replicate_succ, through_cons, ih, past_newline]
    simp only [mk.injEq, and_true]
    omega

/-- Each tab on a line takes the columns up to the next stop. -/
theorem Position.through_tabs (line k n : Nat) :
    Position.through ⟨line, 4 * k + 1⟩ (List.replicate n '\t') = ⟨line, 4 * (k + n) + 1⟩ := by
  induction n generalizing k with
  | zero => rfl
  | succ n ih =>
    have hPast : Position.past ⟨line, 4 * k + 1⟩ '\t' = ⟨line, 4 * (k + 1) + 1⟩ := by
      simp only [past, after, tab, tabStop, Char.reduceEq, if_false, if_true, mk.injEq, true_and]
      omega
    rw [List.replicate_succ, through_cons, hPast, ih, Nat.add_assoc, Nat.add_comm 1 n]

/-- With no carriage return in it, a text that ends its last line is delivered as it is. -/
theorem deliver_ended {text : List Char} (h : '\r' ∉ text) (inLine : Bool) :
    deliver inLine (text ++ ['\n']) = text ++ ['\n'] := by
  induction text generalizing inLine with
  | nil => rw [List.nil_append, deliver_newline]; rfl
  | cons c text ih =>
    obtain ⟨hHead, hTail⟩ := not_or.mp (mt List.mem_cons.mpr h)
    by_cases hEnds : EndsLine (c :: (text ++ ['\n']))
    · rcases hEnds with hNewline | ⟨rest, hReturn⟩
      · obtain rfl := Option.some.inj hNewline
        rw [List.cons_append, deliver_newline, ih hTail]
      · exact absurd (List.cons.inj hReturn).1.symm hHead
    · rw [List.cons_append, deliver_cons inLine hEnds, ih hTail]

/-- If the words are back at the beginning behind some characters, the places do not grow: the next
one stands at `Position.first` again. -/
theorem Source.not_grows_of_wrapped (name : String) {front : List Char} (hSome : front ≠ [])
    (hReturn : '\r' ∉ front) (hBack : (Position.first.through front).wrapped = .first) :
    ¬ (ofItems (Source.ofBytes name (encode (front ++ ['\n']))).itemsInWords).Pairwise fun c d =>
      c.span.start.Before d.span.start := by
  intro hGrows
  rw [Source.itemsInWords_eq, items_ofBytes_encode, ofItems_moved, ofItems_items,
    deliver_ended hReturn, locate_append, List.map_append] at hGrows
  obtain ⟨d, more, rfl⟩ := List.exists_cons_of_ne_nil hSome
  -- the first character and the newline begin in the same place
  have hBefore : Position.first.wrapped.Before (Position.first.through (d :: more)).wrapped :=
    (List.pairwise_append.mp hGrows).2.2 _ (List.mem_cons_self ..) _ (List.mem_singleton_self _)
  rw [hBack] at hBefore
  exact Position.Before.irrefl Position.first hBefore

theorem Source.not_grows_of_replicate (name : String) {n : Nat} {c : Char} (hSome : n ≠ 0)
    (hReturn : c ≠ '\r')
    (hBack : (Position.first.through (List.replicate n c)).wrapped = .first) :
    ¬ (ofItems (Source.ofBytes name
        (encode (List.replicate n c ++ ['\n']))).itemsInWords).Pairwise fun c d =>
      c.span.start.Before d.span.start :=
  Source.not_grows_of_wrapped name (mt (List.replicate_eq_nil_iff c).mp hSome)
    (fun hMem => hReturn (List.eq_of_mem_replicate hMem).symm) hBack

/-- **Words begin at one again**: behind 2^30 tabs on a line, and behind 2^32 lines, so that the
places do not grow through these streams. -/
theorem Source.places_start_again :
    (¬ (ofItems (Source.ofBytes "t.sc"
        (encode (List.replicate 1073741824 '\t' ++ ['\n']))).itemsInWords).Pairwise fun c d =>
      c.span.start.Before d.span.start) ∧
    ¬ (ofItems (Source.ofBytes "t.sc"
        (encode (List.replicate 4294967296 '\n' ++ ['\n']))).itemsInWords).Pairwise fun c d =>
      c.span.start.Before d.span.start := by
  constructor
  · refine Source.not_grows_of_replicate "t.sc" (by decide) (by decide) ?_
    rw [show Position.first = ⟨1, 4 * 0 + 1⟩ from rfl, Position.through_tabs]
    rfl
  · refine Source.not_grows_of_replicate "t.sc" (by decide) (by decide) ?_
    rw [show (4294967296 : Nat) = 4294967295 + 1 from rfl, Position.through_newlines]
    rfl

end JumpCode
