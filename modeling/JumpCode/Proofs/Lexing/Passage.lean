import JumpCode.Proofs.Lexing.Request

/-!
# JumpCode — how far a request takes the lexer

A stream may hold lines that cannot be read, so what the lexer has passed is a text only up to the
first of them. This module follows the lexer through any stream: what it passes is a text, what a
failure is about is next to the place where it strikes, and behind a token no unreadable line is
next.

* `Cursor.Passes` — one place in a stream after another, with the text between them;
* `Cursor.Takes` — what taking a lexeme comes to, and where;
* `Lexer.Turn` — what a request comes to, and where;
* `Lexer.turn_next` — every request to a lexer that has not failed comes to one of these.
-/

namespace JumpCode

open Text

/-! ## Passing a text -/

/-- Whether one place in a stream comes after another, with this `Text` between them. -/
structure Cursor.Passes (c : Cursor) (text : Text) (c' : Cursor) : Prop where
  rest : c.rest = items text ++ c'.rest
  last : c'.last = lastSpan c.last text

theorem lastSpan_append (before : Span) (a b : Text) :
    lastSpan before (a ++ b) = lastSpan (lastSpan before a) b := by
  induction a generalizing before with
  | nil => rfl
  | cons c a ih => simp [ih]

namespace Cursor.Passes

variable {c c' c'' : Cursor} {text more : Text}

theorem refl (c : Cursor) : c.Passes [] c := ⟨rfl, rfl⟩

theorem trans (h : c.Passes text c') (h' : c'.Passes more c'') : c.Passes (text ++ more) c'' :=
  ⟨by rw [h.rest, h'.rest, items_append, List.append_assoc],
    by rw [h'.last, h.last, lastSpan_append]⟩

theorem length_le (h : c.Passes text c') : c'.rest.length ≤ c.rest.length := by
  rw [h.rest, List.length_append]
  omega

/-- With the character that is next. -/
theorem ahead {d : Located Char} {rest : List Item} (h : c.Passes text c')
    (hRest : c'.rest = .char d.value d.span :: rest) : c.rest = items (text ++ [d]) ++ rest := by
  rw [h.rest, hRest, items_append, List.append_assoc]
  rfl

/-- One character more in front. -/
theorem cons {rest : List Item} (last : Span) (d : Located Char)
    (h : (Cursor.mk d.span rest).Passes text c') :
    (Cursor.mk last (.char d.value d.span :: rest)).Passes (d :: text) c' :=
  ⟨by simpa using h.rest, by simpa using h.last⟩

end Cursor.Passes

open Cursor.Passes

/-! ## The runs -/

theorem skipGap_passes (inComment : Bool) (last : Span) (stream : List Item) :
    ∃ gap, (Cursor.mk last stream).Passes gap (skipGap inComment last stream) := by
  fun_induction skipGap inComment last stream with
  | case1 | case2 | case6 => exact ⟨[], refl _⟩
  | case3 _ c span _ ih | case4 _ _ c span _ _ _ ih =>
    obtain ⟨gap, h⟩ := ih
    exact ⟨_, h.cons _ ⟨c, span⟩⟩
  | case5 _ _ span _ span' _ _ ih =>
    obtain ⟨gap, h⟩ := ih
    exact ⟨_, (h.cons span ⟨'/', span'⟩).cons _ ⟨'/', span⟩⟩

theorem takeRun_passes (class? : Char → Bool) (last : Span) (stream : List Item) :
    ∃ run, (Cursor.mk last stream).Passes run (takeRun class? last stream).2 := by
  fun_induction takeRun class? last stream with
  | case1 _ c span _ _ _ _ hRun ih =>
    obtain ⟨run, h⟩ := ih
    rw [hRun] at h
    exact ⟨_, h.cons _ ⟨c, span⟩⟩
  | case2 | case3 => exact ⟨[], refl _⟩

theorem takeNumeral_passes (value : Nat) (last : Span) (stream : List Item) :
    ∃ digits, (Cursor.mk last stream).Passes digits (takeNumeral value last stream).2 := by
  fun_induction takeNumeral value last stream with
  | case1 _ _ c span _ _ ih =>
    obtain ⟨digits, h⟩ := ih
    exact ⟨_, h.cons _ ⟨c, span⟩⟩
  | case2 | case3 => exact ⟨[], refl _⟩

/-! ## One lexeme -/

/-- What taking a lexeme comes to, and where. A token passes at least one character. A character
that begins no lexeme is next; an operator that lacks its second character has just been taken; the
digit with which a numeral gets too large is next. It is a rule for each result of `takeLexeme`. -/
inductive Cursor.Takes (c : Cursor) : Except LexError Token → Cursor → Prop
  | token {first : Located Char} {more : Text} {after : Cursor} (t : Token)
      (hText : c.Passes (first :: more) after) : c.Takes (.ok t) after
  | badChar {d : Located Char} {rest : List Item} (hRest : c.rest = .char d.value d.span :: rest) :
      c.Takes (.error (.badChar d.value)) c
  | expected {d : Located Char} {after : Cursor} (hText : c.Passes [d] after)
      (hStart : isOperatorStart d.value) : c.Takes (.error (.expected d.value)) after
  | intOverflow {digits : Text} {after : Cursor} {d : Located Char} {rest : List Item}
      (hText : c.Passes digits after) (hRest : after.rest = .char d.value d.span :: rest)
      (hDigit : d.value.isDigit) : c.Takes (.error .intOverflow) after

/-- Whatever a lexeme comes to, a text has been passed. -/
theorem Cursor.Takes.passes {c after : Cursor} {result : Except LexError Token}
    (h : c.Takes result after) : ∃ text, c.Passes text after := by
  cases h with
  | badChar => exact ⟨[], refl c⟩
  | token _ hText | expected hText | intOverflow hText => exact ⟨_, hText⟩

/-- A numeral passes its first digit at least: one digit is never more than `maxInt`. -/
theorem takeNumeral_takes {d : Located Char} (h : d.value.isDigit) (last : Span)
    (rest : List Item) :
    ∃ digits, (Cursor.mk last (.char d.value d.span :: rest)).Passes (d :: digits)
      (takeNumeral 0 last (.char d.value d.span :: rest)).2 := by
  have hFits : 10 * 0 + Real64.digitValue d.value ≤ maxInt :=
    Nat.le_trans (by simpa using digitValue_le h) (by decide : 9 ≤ maxInt)
  obtain ⟨digits, hDigits⟩ := takeNumeral_passes (10 * 0 + Real64.digitValue d.value) d.span rest
  refine ⟨digits, ?_⟩
  simp only [takeNumeral, h, hFits, decide_true, Bool.and_self, if_true]
  exact hDigits.cons last d

theorem takeNumber_takes {d : Located Char} (h : d.value.isDigit) (last : Span)
    (rest : List Item) :
    (Cursor.mk last (.char d.value d.span :: rest)).Takes
      (takeNumber ⟨last, .char d.value d.span :: rest⟩).1
      (takeNumber ⟨last, .char d.value d.span :: rest⟩).2 := by
  obtain ⟨digits, hDigits⟩ := takeNumeral_takes h last rest
  simp only [takeNumber]
  generalize takeNumeral 0 last (.char d.value d.span :: rest) = taken at hDigits
  obtain ⟨value, ⟨last', stream⟩⟩ := taken
  dsimp only at hDigits ⊢
  split
  · rename_i e span stream
    split
    · -- behind a point all digits belong to the number
      obtain ⟨fraction, hFraction⟩ := takeRun_passes Char.isDigit span stream
      exact .token _ (hDigits.trans (hFraction.cons last' ⟨e, span⟩))
    · split
      · rename_i hDigit
        exact .intOverflow (d := ⟨e, span⟩) hDigits rfl hDigit
      · exact .token _ hDigits
  · exact .token _ hDigits

theorem takeOperator_takes {d : Located Char} (h : isOperatorStart d.value) (last : Span)
    (rest : List Item) :
    (Cursor.mk last (.char d.value d.span :: rest)).Takes (takeOperator d.value ⟨d.span, rest⟩).1
      (takeOperator d.value ⟨d.span, rest⟩).2 := by
  have hOne : (Cursor.mk last (.char d.value d.span :: rest)).Passes [d] ⟨d.span, rest⟩ :=
    (refl _).cons last d
  simp only [takeOperator]
  split
  · rename_i e span rest
    split
    · exact .token _ (((refl _).cons d.span ⟨e, span⟩).cons last d)
    · split
      · exact .token _ hOne
      · exact .expected hOne h
  · split
    · exact .token _ hOne
    · exact .expected hOne h

theorem takeLexeme_takes (last : Span) (d : Located Char) (rest : List Item) :
    (Cursor.mk last (.char d.value d.span :: rest)).Takes
      (takeLexeme last d.value d.span rest).1 (takeLexeme last d.value d.span rest).2 := by
  simp only [takeLexeme]
  split
  · exact .token _ ((refl _).cons last d)
  · split
    · rename_i hStart
      exact takeOperator_takes hStart last rest
    · split
      · obtain ⟨run, hRun⟩ := takeRun_passes isWordPart d.span rest
        exact .token _ (hRun.cons last d)
      · split
        · rename_i hDigit
          exact takeNumber_takes hDigit last rest
        · exact .badChar rfl

/-! ## One request -/

namespace Lexer

/-- What a request to a lexer at a `Cursor` comes to, and the lexer then. Up to an unreadable line,
or up to where a failure strikes, a text has been passed; and where an unreadable line is next, the
request is answered with it, whatever has been taken. -/
inductive Turn (c : Cursor) : Answer → Lexer → Prop
  | ended {gap : Text} {after : Cursor} (hGap : c.Passes gap after) (hEnd : after.rest = []) :
      Turn c none ⟨after, false⟩
  | unreadable {text : Text} {mid : Cursor} {rest : List Item} (hText : c.Passes text mid)
      (hRest : mid.rest = .unreadable :: rest) :
      Turn c (fail .input ⟨mid.last, rest⟩).1 (fail .input ⟨mid.last, rest⟩).2
  | token {gap more : Text} {mid after : Cursor} {first : Located Char} (t : Token)
      (hGap : c.Passes gap mid) (hText : mid.Passes (first :: more) after)
      (hNext : after.rest.head? ≠ some .unreadable) :
      Turn c (some (.ok ⟨t, first.span.join after.last⟩)) ⟨after, false⟩
  | failure {gap : Text} {mid after : Cursor} {error : LexError} (hGap : c.Passes gap mid)
      (hTakes : mid.Takes (.error error) after) (hNext : after.rest.head? ≠ some .unreadable) :
      Turn c (fail error after).1 (fail error after).2

/-- What has been taken is delivered as a `Turn`, unless an unreadable line is next. -/
theorem turn_deliver {c mid : Cursor} {gap : Text} {d : Located Char} {rest : List Item}
    (hGap : c.Passes gap mid) (hRest : mid.rest = .char d.value d.span :: rest) :
    Turn c (deliver d.span (takeLexeme mid.last d.value d.span rest).1
        (takeLexeme mid.last d.value d.span rest).2).1
      (deliver d.span (takeLexeme mid.last d.value d.span rest).1
        (takeLexeme mid.last d.value d.span rest).2).2 := by
  have hTakes := takeLexeme_takes mid.last d rest
  rw [← hRest, show Cursor.mk mid.last mid.rest = mid from rfl] at hTakes
  generalize takeLexeme mid.last d.value d.span rest = taken at hTakes
  obtain ⟨result, after⟩ := taken
  dsimp only at hTakes ⊢
  obtain ⟨text, hText⟩ := hTakes.passes
  -- an unreadable line that is next is answered, whatever has been taken
  unfold deliver
  split
  · rename_i hNext
    exact .unreadable (hGap.trans hText) hNext
  · rename_i hNext
    refine .failure hGap hTakes fun hHead => ?_
    obtain ⟨rest, h⟩ := List.head?_eq_some_iff.mp hHead
    exact hNext rest h
  · rename_i hNext
    cases hTakes with
    | @token first _ _ _ hText =>
      -- a token begins with the character that the gap has led to
      obtain rfl : first = d := by
        have h := hText.rest
        rw [hRest, items_cons, List.cons_append] at h
        cases d
        cases first
        simp_all
      refine .token _ hGap hText fun hHead => ?_
      obtain ⟨rest, h⟩ := List.head?_eq_some_iff.mp hHead
      exact hNext rest h

/-- **Every request to a lexer that has not failed comes to a `Turn`.** -/
theorem turn_next (c : Cursor) :
    Turn c (Lexer.mk c false).next.1 (Lexer.mk c false).next.2 := by
  obtain ⟨gap, hGap⟩ := skipGap_passes false c.last c.rest
  simp only [next, Bool.false_eq_true, if_false]
  generalize skipGap false c.last c.rest = mid at hGap
  split
  · rename_i hRest
    exact .ended hGap hRest
  · rename_i hRest
    exact .unreadable hGap hRest
  · rename_i d span rest hRest
    exact turn_deliver (d := ⟨d, span⟩) hGap hRest

end Lexer

end JumpCode
