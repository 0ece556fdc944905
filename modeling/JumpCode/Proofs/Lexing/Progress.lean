import JumpCode.Proofs.Lexing.Machine
import JumpCode.Proofs.Lexing.Requests

/-!
# JumpCode — the lexer always makes progress

Asked again and again, the lexer comes to an end with every stream, wherever that has lines which
cannot be read. Each request is served, and before the lexer has nothing more to say it has said at
most as much as there are items: a token takes a character of its own, and so does each failure but
one, which leaves the character where it is that it is about.

* `Consumes` — the items that a request takes;
* `Consumes.unique` — no item is taken twice;
* `exists_speaks` — how much a lexer has to say;
* `always_progresses` — all streams.
-/

namespace JumpCode.Lexer

/-! ## What a request takes -/

/-- How many items of a stream that many requests have taken. -/
def consumed (stream : List Item) (k : Nat) : Nat :=
  stream.length - ((ofItems stream).after k).cursor.rest.length

/-- A request takes the item at this place in a stream. -/
def Consumes (stream : List Item) (k i : Nat) : Prop :=
  consumed stream k ≤ i ∧ i < consumed stream (k + 1)

variable {stream : List Item} {lexer : Lexer} {i j k : Nat}

theorem rest_after (stream : List Item) (k : Nat) :
    ((ofItems stream).after k).cursor.rest = stream.drop (consumed stream k) := by
  obtain ⟨taken, hTaken⟩ := (ofItems stream).after_takes k
  have hSplit : stream = taken ++ ((ofItems stream).after k).cursor.rest := hTaken
  have hLength := congrArg List.length hSplit
  rw [List.length_append] at hLength
  rw [consumed, show stream.length - ((ofItems stream).after k).cursor.rest.length = taken.length by
    omega]
  conv_rhs => rw [hSplit]
  exact List.drop_left.symm

theorem consumed_mono (stream : List Item) (h : j ≤ k) : consumed stream j ≤ consumed stream k := by
  induction h with
  | refl => exact Nat.le_refl _
  | @step k _ ih =>
    obtain ⟨taken, hTaken, -⟩ := ((ofItems stream).after k).next_takes
    have hLength := congrArg List.length hTaken
    rw [List.length_append] at hLength
    refine Nat.le_trans ih ?_
    show stream.length - _ ≤ stream.length - ((ofItems stream).after k).next.2.cursor.rest.length
    omega

/-- **No item is taken twice.** -/
theorem Consumes.unique (h : Consumes stream j i) (h' : Consumes stream k i) : j = k := by
  obtain ⟨hFrom, hTo⟩ := h
  obtain ⟨hFrom', hTo'⟩ := h'
  rcases Nat.lt_trichotomy j k with hLt | hSame | hLt
  · have hMono := consumed_mono stream (show j + 1 ≤ k from hLt)
    omega
  · exact hSame
  · have hMono := consumed_mono stream (show k + 1 ≤ j from hLt)
    omega

/-- Only a lexer that has not failed answers with a token. -/
theorem not_failed_of_token {token : Located Token} (h : lexer.next.1 = some (.ok token)) :
    lexer.failed = false := by
  by_contra hFailed
  rw [Bool.not_eq_false] at hFailed
  obtain ⟨hError, hNone⟩ := answer_of_failed hFailed 0
  rcases Nat.eq_zero_or_pos (unreadableNext lexer.cursor.rest) with hZero | hPos
  · exact absurd (h.symm.trans (hNone (Nat.le_of_eq hZero))) nofun
  · obtain ⟨span, hSpan⟩ := hError hPos
    exact absurd (h.symm.trans hSpan) nofun

/-- A token begins with a character that is taken with it, and other items only before and behind
that. -/
theorem token_takes {token : Located Token} (h : lexer.next.1 = some (.ok token)) :
    ∃ gap c span more, lexer.cursor.rest = gap ++ .char c span :: more ++ lexer.next.2.cursor.rest ∧
      span.start = token.span.start := by
  obtain ⟨cursor, failed⟩ := lexer
  obtain rfl : failed = false := not_failed_of_token h
  have hTurn := turn_next cursor
  generalize (Lexer.mk cursor false).next = turn at hTurn h
  obtain ⟨reply, lexer'⟩ := turn
  cases hTurn with
  | ended | unreadable | failure => cases h
  | @token gap more mid after first t hGap hText =>
    cases h
    refine ⟨Text.items gap, first.value, first.span, Text.items more, ?_, rfl⟩
    show cursor.rest = _
    rw [hGap.rest, hText.rest, List.append_assoc]
    rfl

/-- **A token takes a character**, the one that it begins with. -/
theorem consumes_of_token {token : Located Token}
    (h : (ofItems stream).answer k = some (.ok token)) :
    ∃ i c span, Consumes stream k i ∧ stream[i]? = some (.char c span) ∧
      span.start = token.span.start := by
  obtain ⟨gap, c, span, more, hTaken, hStart⟩ := token_takes h
  have hRest := rest_after stream k
  refine ⟨consumed stream k + gap.length, c, span, ⟨by omega, ?_⟩, ?_, hStart⟩
  · have hBefore := congrArg List.length hRest
    have hLength := congrArg List.length hTaken
    simp only [List.length_append, List.length_cons, List.length_drop] at hBefore hLength
    show _ < stream.length - ((ofItems stream).after k).next.2.cursor.rest.length
    omega
  · rw [← List.getElem?_drop, ← hRest, hTaken, List.append_assoc, List.getElem?_append_right
      (Nat.le_refl _), Nat.sub_self]
    rfl

/-! ## How much a lexer has to say -/

/-- A lexer answers so many requests, and no later one. -/
def Speaks (lexer : Lexer) (total : Nat) : Prop :=
  (∀ k < total, lexer.answer k ≠ none) ∧ ∀ k, total ≤ k → lexer.answer k = none

/-- An answer, and what the lexer has to say after it. -/
theorem Speaks.next {total : Nat} (hSome : lexer.next.1 ≠ none)
    (h : lexer.next.2.Speaks total) : lexer.Speaks (total + 1) := by
  constructor
  · rintro (_ | k) hLt
    · exact hSome
    · rw [← answer_next]
      exact h.1 k (Nat.lt_of_succ_lt_succ hLt)
  · rintro (_ | k) hLe
    · exact absurd hLe (Nat.not_succ_le_zero total)
    · rw [← answer_next]
      exact h.2 k (Nat.le_of_succ_le_succ hLe)

/-- A lexer that has failed speaks of the unreadable lines that come next. -/
theorem speaks_of_failed (h : lexer.failed) :
    lexer.Speaks (unreadableNext lexer.cursor.rest) := by
  refine ⟨fun k hLt hNone => ?_, fun k => (answer_of_failed h k).2⟩
  obtain ⟨span, hSpan⟩ := (answer_of_failed h k).1 hLt
  cases hNone.symm.trans hSpan

theorem answer_of_ended (hRest : lexer.cursor.rest = []) (k : Nat) : lexer.answer k = none := by
  rw [answer, after_of_ended hRest]
  obtain ⟨⟨last, rest⟩, failed⟩ := lexer
  obtain rfl : rest = [] := hRest
  cases failed <;> rfl

theorem unreadableNext_le (stream : List Item) : unreadableNext stream ≤ stream.length :=
  (List.takeWhile_sublist _).length_le

/-- Where a failure strikes there is a character that has been taken, or is next. -/
theorem pos_of_failure {c mid after : Cursor} {gap : Text} {error : LexError}
    (hGap : c.Passes gap mid) (hTakes : mid.Takes (.error error) after) : 0 < c.rest.length := by
  have hMid : 0 < mid.rest.length := by
    cases hTakes with
    | badChar hRest => simp [hRest]
    | expected hText => simp [hText.rest]
    | intOverflow hText hRest =>
      have hLe := hText.length_le
      rw [hRest, List.length_cons] at hLe
      omega
  exact Nat.lt_of_lt_of_le hMid hGap.length_le

/-- **One request** ends with the stream, or is answered and takes something, or fails at a
character and is the last that is answered. -/
theorem next_cases (cursor : Cursor) :
    ((Lexer.mk cursor false).next.1 = none ∧ (Lexer.mk cursor false).next.2.cursor.rest = []) ∨
    ((Lexer.mk cursor false).next.1 ≠ none ∧
      (Lexer.mk cursor false).next.2.cursor.rest.length < cursor.rest.length) ∨
    ((Lexer.mk cursor false).next.1 ≠ none ∧ 0 < cursor.rest.length ∧
      (Lexer.mk cursor false).next.2.failed ∧
      unreadableNext (Lexer.mk cursor false).next.2.cursor.rest = 0) := by
  have hTurn := turn_next cursor
  generalize (Lexer.mk cursor false).next = turn at hTurn ⊢
  obtain ⟨reply, lexer⟩ := turn
  cases hTurn with
  | ended hGap hEnd => exact .inl ⟨rfl, hEnd⟩
  | unreadable hText hRest =>
    -- the unreadable line has been taken
    have hLe := hText.length_le
    rw [hRest, List.length_cons] at hLe
    exact .inr (.inl ⟨nofun, hLe⟩)
  | token t hGap hText =>
    have hLe := hGap.length_le
    rw [hText.rest, List.length_append, Text.items_cons, List.length_cons] at hLe
    refine .inr (.inl ⟨nofun, ?_⟩)
    dsimp only
    omega
  | failure hGap hTakes hNext =>
    exact .inr (.inr ⟨nofun, pos_of_failure hGap hTakes, rfl,
      unreadableNext_eq_zero_iff.mpr hNext⟩)

/-- **How much a lexer has to say**: not more than there are items in its stream. -/
theorem exists_speaks (lexer : Lexer) : ∃ total ≤ lexer.cursor.rest.length, lexer.Speaks total := by
  induction hLength : lexer.cursor.rest.length using Nat.strongRecOn generalizing lexer with
  | ind length ih =>
    obtain ⟨cursor, failed⟩ := lexer
    have hLength : cursor.rest.length = length := hLength
    cases failed with
    | true => exact ⟨_, hLength ▸ unreadableNext_le cursor.rest, speaks_of_failed rfl⟩
    | false =>
      -- the request ends it all, or takes something, or is the last that is answered
      obtain ⟨hNone, hEnd⟩ | ⟨hSome, hLess⟩ | ⟨hSome, hPos, hFailed, hZero⟩ := next_cases cursor
      · refine ⟨0, Nat.zero_le _, nofun, fun k _ => ?_⟩
        cases k with
        | zero => exact hNone
        | succ k => rw [← answer_next, answer_of_ended hEnd]
      · obtain ⟨total, hBound, hSpeaks⟩ := ih _ (hLength ▸ hLess) _ rfl
        exact ⟨total + 1, by omega, hSpeaks.next hSome⟩
      · have hSpeaks := speaks_of_failed hFailed
        rw [hZero] at hSpeaks
        exact ⟨1, by omega, hSpeaks.next hSome⟩

/-! ## All streams -/

/-- **The lexer always makes progress.** Whatever the stream and wherever there are lines in it that
cannot be read: each request is served by a loop of so many turns at most; there are at most as many
answers as items, and then no more, for ever; and each token takes the character that it begins
with, which no other request takes. -/
theorem always_progresses (stream : List Item) :
    (∀ k, ∃ n ≤ 2 * ((ofItems stream).after k).cursor.rest.length + 2,
      Machine.Loop (.ofLexer ((ofItems stream).after k)) n ((ofItems stream).after k).next) ∧
    (∃ total ≤ stream.length,
      (∀ k < total, (ofItems stream).answer k ≠ none) ∧
      ∀ k, total ≤ k → (ofItems stream).answer k = none) ∧
    ∀ k token, (ofItems stream).answer k = some (.ok token) →
      ∃ i c span, Consumes stream k i ∧ stream[i]? = some (.char c span) ∧
        span.start = token.span.start ∧ ∀ j, Consumes stream j i → j = k := by
  refine ⟨fun k => Machine.loop_next _, exists_speaks (ofItems stream), fun k token h => ?_⟩
  obtain ⟨i, c, span, hConsumes, hItem, hStart⟩ := consumes_of_token h
  exact ⟨i, c, span, hConsumes, hItem, hStart, fun j hOther => hOther.unique hConsumes⟩

/-- A line and two that cannot be read: a token, two failures, and no more. -/
def brokenStream : List Item := (Source.mk "sample" [some "x", none, none]).items

/-- The token takes the only character that is not a newline. -/
theorem always_progresses_sample :
    (∃ n ≤ 2 * brokenStream.length + 2,
      Machine.Loop (.ofLexer (ofItems brokenStream)) n (ofItems brokenStream).next) ∧
    (∃ total ≤ 4, (∀ k < total, (ofItems brokenStream).answer k ≠ none) ∧
      ∀ k, total ≤ k → (ofItems brokenStream).answer k = none) ∧
    (ofItems brokenStream).answer 0 = some (.ok ⟨.name "x", ⟨⟨1, 1⟩, ⟨1, 2⟩⟩⟩) ∧
    ∃ i c span, Consumes brokenStream 0 i ∧ brokenStream[i]? = some (.char c span) ∧
      span.start = ⟨1, 1⟩ ∧ ∀ j, Consumes brokenStream j i → j = 0 := by
  have hToken : (ofItems brokenStream).answer 0 = some (.ok ⟨.name "x", ⟨⟨1, 1⟩, ⟨1, 2⟩⟩⟩) := by
    decide +kernel
  obtain ⟨hServed, hTotal, hTakes⟩ := always_progresses brokenStream
  exact ⟨hServed 0, hTotal, hToken, hTakes 0 _ hToken⟩

end JumpCode.Lexer
