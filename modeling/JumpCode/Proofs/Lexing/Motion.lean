import JumpCode.Proofs.Lexing.Scan

/-!
# JumpCode — places that are moved

The lexer takes the places of characters along, to say where a token or a failure stands, and never
looks at them. So when all places of a stream are moved in some way, the same tokens and the same
failure come out, in places that are moved in this way.

* `Span.moved`, `Located.moved`, `Item.moved`, `Cursor.moved`, `Lexer.moved` — what is moved;
* `skipGap_moved`, `takeLexeme_moved` — gaps and lexemes;
* `Lexer.next_moved` — one request;
* `Lexer.scan_moved` — all tokens, the failure behind them, and where the lexer stands then.
-/

namespace JumpCode

section

variable (g : Position → Position)

/-! ## What is moved -/

/-- A `Span` with both its ends moved. -/
def Span.moved (s : Span) : Span := ⟨g s.start, g s.stop⟩

/-- A value with its `Span` moved. -/
def Located.moved {α : Type} (x : Located α) : Located α := ⟨x.value, x.span.moved g⟩

/-- An `Item` with its place moved, if it has one; an unreadable line has none. -/
def Item.moved : Item → Item
  | .char c span => .char c (span.moved g)
  | .unreadable => .unreadable

/-- A `Cursor` with all places moved, those of the items that remain as well. -/
def Cursor.moved (c : Cursor) : Cursor := ⟨c.last.moved g, c.rest.map (Item.moved g)⟩

namespace Lexer

/-- A `Lexer` with all places moved. -/
def moved (lexer : Lexer) : Lexer := ⟨lexer.cursor.moved g, lexer.failed⟩

/-- An answer with the place of the token or of the failure moved. -/
def Answer.moved : Answer → Answer
  | some (.ok t) => some (.ok (t.moved g))
  | some (.error e) => some (.error (e.moved g))
  | none => none

end Lexer

/-! ## Gaps and lexemes -/

theorem skipGap_moved (inComment : Bool) (last : Span) (items : List Item) :
    skipGap inComment (last.moved g) (items.map (Item.moved g)) =
      (skipGap inComment last items).moved g := by
  fun_induction skipGap inComment last items with
  | case1 => rfl
  | case2 => rfl
  | case3 last c span rest ih =>
    rw [List.map_cons, Item.moved, skipGap.eq_def]
    exact ih
  | case4 inComment last c span rest hComment hBlank ih =>
    rw [List.map_cons, Item.moved, skipGap.eq_def]
    simpa [hComment, hBlank] using ih
  | case5 inComment last span hComment span' rest hBlank ih =>
    rw [List.map_cons, List.map_cons, Item.moved, Item.moved, skipGap.eq_def]
    simpa [hComment, hBlank] using ih
  -- the gap ends here, unless this character and the next one are slashes
  | case6 inComment last c span rest hComment hBlank hNot =>
    rw [List.map_cons, Item.moved, skipGap.eq_def]
    match rest with
    | [] => simp [hComment, hBlank, Cursor.moved, Item.moved]
    | .unreadable :: rest => simp [hComment, hBlank, Cursor.moved, Item.moved]
    | .char d span' :: rest =>
      have hOther : ¬ (c = '/' ∧ d = '/') := by
        rintro ⟨rfl, rfl⟩
        exact hNot _ _ rfl rfl
      simp only [hComment, hBlank, Bool.false_eq_true, if_false, List.map_cons, Item.moved,
        Cursor.moved]
      split
      · next hSlash =>
        obtain ⟨hSlash, -⟩ := List.cons.inj hSlash
        exact absurd ⟨rfl, (Item.char.inj hSlash).1⟩ hOther
      · rfl

theorem takeRun_moved (class? : Char → Bool) (last : Span) (items : List Item) :
    takeRun class? (last.moved g) (items.map (Item.moved g)) =
      ((takeRun class? last items).1, (takeRun class? last items).2.moved g) := by
  induction items generalizing last with
  | nil => rfl
  | cons item items ih =>
    cases item with
    | unreadable => rfl
    | char c span =>
      simp only [List.map_cons, Item.moved, takeRun, ih]
      split <;> rfl

theorem takeNumeral_moved (value : Nat) (last : Span) (items : List Item) :
    takeNumeral value (last.moved g) (items.map (Item.moved g)) =
      ((takeNumeral value last items).1, (takeNumeral value last items).2.moved g) := by
  induction items generalizing value last with
  | nil => rfl
  | cons item items ih =>
    cases item with
    | unreadable => rfl
    | char c span =>
      simp only [List.map_cons, Item.moved, takeNumeral, ih]
      split <;> rfl

theorem takeNumber_moved (c : Cursor) :
    takeNumber (c.moved g) = ((takeNumber c).1, (takeNumber c).2.moved g) := by
  obtain ⟨last, rest⟩ := c
  simp only [takeNumber, Cursor.moved, takeNumeral_moved]
  generalize takeNumeral 0 last rest = taken
  obtain ⟨value, last, rest⟩ := taken
  rcases rest with - | ⟨⟨c, span⟩ | -, rest⟩
  · rfl
  · simp only [Item.moved, List.map_cons, takeRun_moved]
    split
    · rfl
    · split <;> rfl
  · rfl

theorem takeOperator_moved (c : Char) (cursor : Cursor) :
    takeOperator c (cursor.moved g) =
      ((takeOperator c cursor).1, (takeOperator c cursor).2.moved g) := by
  obtain ⟨last, rest⟩ := cursor
  simp only [takeOperator, Cursor.moved]
  rcases rest with - | ⟨⟨d, span⟩ | -, rest⟩
  · cases Mark.ofLone? c <;> rfl
  · simp only [Item.moved, List.map_cons]
    cases Mark.ofPair? c d with
    | some m => rfl
    | none => cases Mark.ofLone? c <;> rfl
  · cases Mark.ofLone? c <;> rfl

theorem takeLexeme_moved (last : Span) (c : Char) (span : Span) (rest : List Item) :
    takeLexeme (last.moved g) c (span.moved g) (rest.map (Item.moved g)) =
      ((takeLexeme last c span rest).1, (takeLexeme last c span rest).2.moved g) := by
  simp only [takeLexeme]
  cases Mark.ofChar? c with
  | some m => rfl
  | none =>
    dsimp only
    split
    · exact takeOperator_moved g c ⟨span, rest⟩
    · split
      · rw [takeRun_moved]
      · split
        · exact takeNumber_moved g ⟨last, .char c span :: rest⟩
        · rfl

/-! ## Requests -/

namespace Lexer

theorem fail_moved (error : LexError) (c : Cursor) :
    fail error (c.moved g) = ((fail error c).1.moved g, (fail error c).2.moved g) := by
  obtain ⟨last, rest⟩ := c
  match rest with
  | [] => rfl
  | .unreadable :: rest => rfl
  | .char d span :: rest => rfl

theorem deliver_moved (start : Span) (result : Except LexError Token) (c : Cursor) :
    deliver (start.moved g) result (c.moved g) =
      ((deliver start result c).1.moved g, (deliver start result c).2.moved g) := by
  obtain ⟨last, rest⟩ := c
  cases result with
  | error e =>
    match rest with
    | [] => rfl
    | .unreadable :: rest => exact fail_moved g .input ⟨last, rest⟩
    | .char d span :: rest => rfl
  | ok t =>
    match rest with
    | [] => rfl
    | .unreadable :: rest => exact fail_moved g .input ⟨last, rest⟩
    | .char d span :: rest => rfl

/-- **A request does not depend on places**: `Lexer.next` answers the same, moved. -/
theorem next_moved (lexer : Lexer) :
    (lexer.moved g).next = (lexer.next.1.moved g, lexer.next.2.moved g) := by
  obtain ⟨⟨last, rest⟩, failed⟩ := lexer
  cases failed with
  -- a lexer that has failed looks for an unreadable line only
  | true =>
    match rest with
    | [] => rfl
    | .unreadable :: rest => exact fail_moved g .input ⟨last, rest⟩
    | .char c span :: rest => rfl
  | false =>
    simp only [next, moved, Cursor.moved, Bool.false_eq_true, if_false, skipGap_moved]
    obtain ⟨last, rest⟩ := skipGap false last rest
    match rest with
    | [] => rfl
    | .unreadable :: rest => exact fail_moved g .input ⟨last, rest⟩
    | .char c span :: rest =>
      simp only [List.map_cons, Item.moved, takeLexeme_moved]
      exact deliver_moved g span _ _

/-- **All tokens are moved with their characters**, the failure behind them, and the lexer:
`Lexer.scan` goes from request to request by `next_moved`. -/
theorem scan_moved (lexer : Lexer) :
    (lexer.moved g).scan = ⟨lexer.scan.tokens.map (Located.moved g),
      lexer.scan.failure.map (Located.moved g), lexer.scan.lexer.moved g⟩ := by
  -- on the length of the stream, of which each token takes something
  generalize hLength : lexer.cursor.rest.length = n
  induction n using Nat.strongRecOn generalizing lexer with
  | _ n ih =>
    have hNext := lexer.next_moved g
    match hAnswer : lexer.next with
    | (none, after) =>
      rw [hAnswer] at hNext
      rw [scan_of_none (congrArg Prod.fst hNext), scan_of_none (congrArg Prod.fst hAnswer), hNext,
        hAnswer]
      rfl
    | (some (.error e), after) =>
      rw [hAnswer] at hNext
      rw [scan_of_error (congrArg Prod.fst hNext), scan_of_error (congrArg Prod.fst hAnswer), hNext,
        hAnswer]
      rfl
    | (some (.ok t), after) =>
      rw [hAnswer] at hNext
      rw [scan_of_token hNext, scan_of_token hAnswer,
        ih _ (hLength ▸ length_next_lt hAnswer) after rfl]
      rfl

end Lexer

end

end JumpCode
