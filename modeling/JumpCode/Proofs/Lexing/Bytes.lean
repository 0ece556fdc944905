import JumpCode.Proofs.Lexing.LineEnds
import JumpCode.Proofs.Lexing.Passage

/-!
# JumpCode — texts as bytes

A source is read from bytes. No byte of a character but the newline and the carriage return looks
like one of these, so the lines of the bytes of a text are the bytes of its lines; and a source that
is read up to its end holds the bytes of some text.

* `items_ofBytes_encode` — what reading the bytes of a text delivers;
* `Source.scan_encode` — the tokens of a text are found in its bytes;
* `Source.exists_encode` — a source without a failure is a text.
-/

namespace JumpCode

open Text

/-! ## Characters as bytes -/

/-- The bytes of a text: those of its characters in UTF-8. -/
def encode (text : List Char) : List UInt8 := text.flatMap String.utf8EncodeChar

@[simp] theorem encode_nil : encode [] = [] := rfl

@[simp] theorem encode_cons (c : Char) (text : List Char) :
    encode (c :: text) = String.utf8EncodeChar c ++ encode text := rfl

theorem encode_append (a b : List Char) : encode (a ++ b) = encode a ++ encode b :=
  List.flatMap_append

/-- The bytes of the longer forms lie beyond ASCII, whatever bits of the character are in them. -/
theorem le_toNat_ofNat {n span base : Nat} (hSpan : 0 < span) (hBase : 128 ≤ base)
    (hByte : span + base ≤ 256) : 128 ≤ (UInt8.ofNat (n % span + base)).toNat := by
  have hLt := Nat.mod_lt n hSpan
  rw [UInt8.toNat_ofNat', Nat.mod_eq_of_lt (by omega)]
  omega

/-- A byte in the range of ASCII is all of its character: the longer forms of
`String.utf8EncodeChar` have none in this range. -/
theorem encode_of_mem {c : Char} {b : UInt8} (h : b ∈ String.utf8EncodeChar c)
    (hAscii : b.toNat < 128) : c.toNat = b.toNat ∧ String.utf8EncodeChar c = [b] := by
  have hNot {n span base : Nat} (hSpan : 0 < span) (hBase : 128 ≤ base) (hByte : span + base ≤ 256)
      (hSame : b = UInt8.ofNat (n % span + base)) : False := by
    have hLarge := le_toNat_ofNat (n := n) hSpan hBase hByte
    rw [← hSame] at hLarge
    omega
  -- four forms by the size of the character: all but the first have bytes beyond ASCII alone
  unfold String.utf8EncodeChar at h ⊢
  dsimp only at h ⊢
  split at h
  · next hSmall =>
    obtain rfl := List.mem_singleton.mp h
    rw [if_pos hSmall, UInt8.toNat_ofNat', Nat.mod_eq_of_lt (by omega)]
    exact ⟨rfl, rfl⟩
  · exfalso
    split at h
    · simp only [List.mem_cons, List.not_mem_nil, or_false] at h
      rcases h with h | h <;> exact hNot (by decide) (by decide) (by decide) h
    · split at h
      · simp only [List.mem_cons, List.not_mem_nil, or_false] at h
        rcases h with h | h | h <;> exact hNot (by decide) (by decide) (by decide) h
      · simp only [List.mem_cons, List.not_mem_nil, or_false] at h
        rcases h with h | h | h | h <;> exact hNot (by decide) (by decide) (by decide) h

theorem newline_of_mem_encode {text : List Char} (h : 10 ∈ encode text) : '\n' ∈ text := by
  obtain ⟨c, hMem, hByte⟩ := List.mem_flatMap.mp h
  obtain rfl : c = '\n' := Char.toNat_inj.mp (encode_of_mem hByte (by decide)).1
  exact hMem

/-- The bytes of a text are read as this text: `decodeLine` undoes `encode`. -/
theorem decodeLine_encode (text : List Char) :
    decodeLine (encode text) = some (String.ofList text) := by
  have hBytes : ByteArray.mk (encode text).toArray = (String.ofList text).toByteArray := by
    rw [String.toByteArray_ofList, List.utf8Encode]
    exact ByteArray.ext (List.data_toByteArray).symm
  unfold decodeLine
  rw [hBytes, String.fromUTF8?, dif_pos (String.ofList text).isValidUTF8]
  exact congrArg some (String.toByteArray_inj.mp rfl)

/-- What `decodeLine` can read is the bytes of a text. -/
theorem exists_encode_of_decodeLine {line : List UInt8} (h : (decodeLine line).isSome) :
    ∃ text, line = encode text := by
  unfold decodeLine String.fromUTF8? at h
  split at h
  · next hValid =>
    obtain ⟨text, hText⟩ := hValid
    refine ⟨text, ?_⟩
    have hData := congrArg (·.data.toList) hText
    simpa [List.utf8Encode, encode] using hData
  · cases h

/-! ## Lines -/

theorem splitLines_cons {b : UInt8} {rest : List UInt8} (hNewline : b ≠ 10)
    (hReturn : ¬ (b = 13 ∧ rest.head? = some 10)) :
    splitLines (b :: rest) = match splitLines rest with
      | [] => [[b]]
      | line :: lines => (b :: line) :: lines := by
  refine splitLines.eq_4 b rest hNewline ?_
  rintro more rfl rfl
  exact hReturn ⟨rfl, rfl⟩

/-- The bytes up to a newline are a line, without the carriage return at its end (`chomp`). -/
theorem splitLines_line {line : List UInt8} (h : 10 ∉ line) (rest : List UInt8) :
    splitLines (line ++ 10 :: rest) = chomp 13 line :: splitLines rest := by
  induction line with
  | nil => rw [List.nil_append, splitLines]; rfl
  | cons b line ih =>
    simp only [List.mem_cons, not_or] at h
    by_cases hLast : b = 13 ∧ line = []
    · obtain ⟨rfl, rfl⟩ := hLast
      rw [List.cons_append, List.nil_append, splitLines, chomp_singleton]
    · have hReturn : ¬ (b = 13 ∧ (line ++ 10 :: rest).head? = some 10) := by
        rintro ⟨rfl, hHead⟩
        cases line with
        | nil => exact hLast ⟨rfl, rfl⟩
        | cons d line =>
          obtain rfl := Option.some.inj hHead
          exact h.2 (List.mem_cons_self ..)
      rw [List.cons_append, splitLines_cons (Ne.symm h.1) hReturn, ih h.2, chomp_cons hLast]

/-- What no newline ends is a line too. -/
theorem splitLines_last {line : List UInt8} (h : 10 ∉ line) (hSome : line ≠ []) :
    splitLines line = [line] := by
  induction line with
  | nil => exact absurd rfl hSome
  | cons b line ih =>
    simp only [List.mem_cons, not_or] at h
    have hReturn : ¬ (b = 13 ∧ line.head? = some 10) :=
      fun hBoth => h.2 (List.mem_of_mem_head? hBoth.2)
    rw [splitLines_cons (Ne.symm h.1) hReturn]
    cases line with
    | nil => rfl
    | cons d line => rw [ih h.2 (List.cons_ne_nil d line)]

/-- A carriage return is a byte of its own. -/
theorem chomp_encode (body : List Char) : chomp 13 (encode body) = encode (chomp '\r' body) := by
  rcases List.eq_nil_or_concat body with rfl | ⟨front, c, rfl⟩
  · rfl
  rw [List.concat_eq_append]
  by_cases hReturn : c = '\r'
  · subst hReturn
    rw [chomp_concat, encode_append]
    exact chomp_concat 13 (encode front)
  · have hLast : (front ++ [c]).getLast? ≠ some '\r' := by
      rw [List.getLast?_concat]
      exact fun h => hReturn (Option.some.inj h)
    rw [chomp_of_getLast? hLast, chomp_of_getLast?]
    -- the last byte of another character is no carriage return
    intro hByte
    have hMem : 13 ∈ String.utf8EncodeChar c := by
      rw [encode_append, encode_cons, encode_nil, List.append_nil] at hByte
      rw [List.getLast?_append_of_ne_nil _ String.utf8EncodeChar_ne_nil] at hByte
      exact List.mem_of_getLast? hByte
    exact hReturn (Char.toNat_inj.mp (encode_of_mem hMem (by decide)).1)

/-! ## Reading -/

/-- A line delivers its characters and a newline, each in its place (`locate`). -/
theorem lineItems_eq {body : List Char} (h : '\n' ∉ body) (p : Position) :
    lineItems p body = items (locate p (body ++ ['\n'])) := by
  induction body generalizing p with
  | nil => rfl
  | cons c body ih =>
    simp only [List.mem_cons, not_or] at h
    rw [lineItems, ih h.2, List.cons_append, locate_cons, items_cons,
      Position.past_of_ne (Ne.symm h.1)]

/-- The lines of the bytes of a text deliver this text, as `deliver` has it. The induction is line
by line (`line_induction`). -/
theorem itemsFrom_encode (text : List Char) (n : Nat) :
    itemsFrom n ((splitLines (encode text)).map decodeLine) =
      items (locate ⟨n, 1⟩ (deliver false text)) := by
  have hBytes {body : List Char} (hBody : '\n' ∉ body) : 10 ∉ encode body :=
    fun h => hBody (newline_of_mem_encode h)
  -- a line is decoded to the characters that it was encoded from
  have hLine (n : Nat) {line : List Char} (hLine : '\n' ∉ line) (lines : List (Option String)) :
      itemsFrom n (some (String.ofList line) :: lines) =
        items (locate ⟨n, 1⟩ (line ++ ['\n'])) ++ itemsFrom (n + 1) lines := by
    rw [itemsFrom, String.toList_ofList, lineItems_eq hLine]
  induction text using line_induction '\n' generalizing n with
  | last body hBody =>
    cases body with
    | nil => rfl
    | cons c body =>
      have hSome : encode (c :: body) ≠ [] := by
        rw [encode_cons]
        exact List.append_ne_nil_of_left_ne_nil String.utf8EncodeChar_ne_nil _
      rw [splitLines_last (hBytes hBody) hSome, List.map_cons, decodeLine_encode, hLine n hBody,
        deliver_last hBody (.inr (List.cons_ne_nil c body))]
      exact List.append_nil _
  | line body rest hBody ih =>
    have hChomp : '\n' ∉ chomp '\r' body := fun h => hBody (chomp_subset '\r' body h)
    -- behind the newline the next line begins in its first column
    have hNext : (⟨n, 1⟩ : Position).through (chomp '\r' body ++ ['\n']) = ⟨n + 1, 1⟩ := by
      rw [Position.through_append, Position.through_cons, Position.past_newline,
        Position.line_through hChomp, Position.through_nil]
    rw [encode_append, show encode ('\n' :: rest) = 10 :: encode rest from rfl,
      splitLines_line (hBytes hBody), List.map_cons, chomp_encode, decodeLine_encode,
      hLine n hChomp, ih (n + 1), deliver_line hBody, List.append_cons _ _ (deliver false rest),
      locate_append _ _ (deliver false rest), items_append, hNext]

/-- **What reading the bytes of a text delivers**: its characters with their places, with the ends
of lines as `deliver` has them. -/
theorem items_ofBytes_encode (name : String) (text : List Char) :
    (Source.ofBytes name (encode text)).items = items (locate .first (deliver false text)) :=
  itemsFrom_encode text 1

/-- **The tokens of a text** are what the lexer finds in its bytes, if it does not fail: those of
`Lexes`. -/
theorem Source.scan_encode (name : String) {text : List Char} {tokens : List (Located Token)} :
    (Source.ofBytes name (encode text)).scan.tokens = tokens ∧
      (Source.ofBytes name (encode text)).scan.failure = none ↔ Lexes .first text tokens := by
  have hDeliver : Lexes .first (deliver false text) tokens ↔ Lexes .first text tokens :=
    lexes_deliver
  rw [Source.scan, items_ofBytes_encode, ← hDeliver, lexes_iff_splits]
  constructor
  · rintro ⟨hTokens, hFailure⟩
    -- the text has a division, and the lexer comes to this one
    obtain ⟨tokens', failure, hSplits⟩ := (locate .first (deliver false text)).exists_splits
    obtain ⟨hTokens', hFailure'⟩ := Lexer.scan_of_splits hSplits .first
    obtain rfl := hTokens'.symm.trans hTokens
    obtain rfl := hFailure'.symm.trans hFailure
    exact hSplits
  · intro h
    exact Lexer.scan_of_splits h .first

/-- What the lexer reads up to the end without a failure is a text: none of the items is
`unreadable`. -/
theorem exists_text_of_scan {c : Cursor} (h : (Lexer.mk c false).scan.failure = none) :
    ∃ text : Text, c.rest = items text := by
  generalize hLength : c.rest.length = length
  induction length using Nat.strongRecOn generalizing c with
  | _ length ih =>
    subst hLength
    have hTurn := Lexer.turn_next c
    generalize hNext : (Lexer.mk c false).next = turn at hTurn
    obtain ⟨answer, lexer⟩ := turn
    dsimp only at hTurn
    -- a request that fails would end the scan with its failure
    have hFailed {error : Located LexError} (hError : answer = some (.error error)) : False := by
      rw [Lexer.scan_of_error ((congrArg Prod.fst hNext).trans hError)] at h
      cases h
    cases hTurn with
    | @ended gap after hGap hEnd => exact ⟨gap, by rw [hGap.rest, hEnd, List.append_nil]⟩
    | unreadable => exact (hFailed rfl).elim
    | failure => exact (hFailed rfl).elim
    | @token gap more mid after first t hGap hText hNot =>
      -- a token: what has been passed is text, and what is left is shorter
      rw [Lexer.scan_of_token hNext] at h
      have hPassed := (hGap.trans hText).rest
      have hShorter : after.rest.length < c.rest.length := by
        rw [hPassed, List.length_append, items, List.length_map, List.length_append,
          List.length_cons]
        omega
      obtain ⟨text, hRest⟩ := ih after.rest.length hShorter h rfl
      exact ⟨gap ++ first :: more ++ text, by rw [hPassed, hRest, items_append _ text]⟩

theorem unreadable_mem_itemsFrom {lines : List (Option String)} (h : none ∈ lines) (n : Nat) :
    .unreadable ∈ itemsFrom n lines := by
  induction lines generalizing n with
  | nil => cases h
  | cons line lines ih =>
    cases line with
    | none => exact List.mem_cons_self ..
    | some text =>
      have hMore : none ∈ lines := by simpa using h
      exact List.mem_append_right _ (ih hMore (n + 1))

/-- Bytes all lines of which `decodeLine` can read are those of a text. -/
theorem exists_encode_of_lines {bytes : List UInt8}
    (h : ∀ line ∈ splitLines bytes, (decodeLine line).isSome) : ∃ text, bytes = encode text := by
  induction bytes using line_induction (10 : UInt8) with
  | last line hLine =>
    by_cases hSome : line = []
    · exact ⟨[], hSome⟩
    · rw [splitLines_last hLine hSome] at h
      exact exists_encode_of_decodeLine (h line (List.mem_singleton_self line))
  | line line rest hLine ih =>
    rw [splitLines_line hLine] at h
    obtain ⟨body, hBody⟩ := exists_encode_of_decodeLine (h _ (List.mem_cons_self ..))
    obtain ⟨text, rfl⟩ := ih fun line hLine => h line (List.mem_cons_of_mem _ hLine)
    -- a carriage return that the line has lost belongs to the text
    rcases chomp_cases 13 line with hSame | hReturn
    · refine ⟨body ++ '\n' :: text, ?_⟩
      rw [hSame, hBody, encode_append]
      rfl
    · refine ⟨body ++ '\r' :: '\n' :: text, ?_⟩
      rw [hReturn, hBody, encode_append, List.append_assoc]
      rfl

/-- **A source without a failure is a text**: its bytes are the `encode` of some characters. -/
theorem Source.exists_encode {name : String} {bytes : List UInt8}
    (h : (Source.ofBytes name bytes).scan.failure = none) : ∃ text, bytes = encode text := by
  obtain ⟨text, hItems⟩ := exists_text_of_scan h
  refine exists_encode_of_lines fun line hLine => ?_
  by_contra hNone
  have hMem : none ∈ (Source.ofBytes name bytes).lines :=
    List.mem_map.mpr ⟨line, hLine, by simpa using hNone⟩
  have hUnreadable : .unreadable ∈ Text.items text := hItems ▸ unreadable_mem_itemsFrom hMem 1
  simp [Text.items] at hUnreadable

end JumpCode
