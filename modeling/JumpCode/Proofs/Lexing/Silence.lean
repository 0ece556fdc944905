import JumpCode.Proofs.Lexing.Passage

/-!
# JumpCode — the lexer after a failure

A lexer that has failed answers no request with a token, and it has nothing to say, except for one
thing: it still looks at the item that is next before it remembers that it has failed. So each line
that cannot be read and that comes next at that point is reported too, one by one, and only then
the lexer is silent.

A failure at a character leaves no such line next. A failure at an unreadable line leaves one next
exactly if the line behind it is unreadable as well; this is the one way in which a lexer fails
twice.

* `Lexer.answer_of_failed` — all answers of a lexer that has failed;
* `Lexer.silent_after_failure` — all answers behind a failure, for every stream;
* `Lexer.fails_twice` — two unreadable lines in a row.
-/

namespace JumpCode

namespace Lexer

/-! ## Requests in a row -/

/-- The `Lexer` after that many requests. -/
def after (lexer : Lexer) : Nat → Lexer
  | 0 => lexer
  | n + 1 => (lexer.after n).next.2

/-- The answer of a `Lexer` to a request, counted from zero. -/
def answer (lexer : Lexer) (n : Nat) : Answer := (lexer.after n).next.1

theorem after_next (lexer : Lexer) (n : Nat) : lexer.next.2.after n = lexer.after (n + 1) := by
  induction n with
  | zero => rfl
  | succ n ih => rw [after, ih]; rfl

theorem answer_next (lexer : Lexer) (n : Nat) : lexer.next.2.answer n = lexer.answer (n + 1) := by
  rw [answer, answer, after_next]

theorem answer_after (lexer : Lexer) (k n : Nat) :
    (lexer.after k).answer n = lexer.answer (k + n) := by
  induction k generalizing lexer with
  | zero => rw [after, Nat.zero_add]
  | succ k ih => rw [← after_next, ih, answer_next]; congr 1; omega

/-! ## What is left of the stream -/

/-- A request takes items from the front of the stream. If it fails at an unreadable line, that one
is the last taken; if it fails otherwise, no unreadable line is next. The cases are those of `Turn`.
-/
theorem next_takes (lexer : Lexer) :
    ∃ taken, lexer.cursor.rest = taken ++ lexer.next.2.cursor.rest ∧
      ∀ error, lexer.next.1 = some (.error error) →
        lexer.next.2.failed ∧ (error.value = .input → taken.getLast? = some .unreadable) ∧
        (error.value ≠ .input → lexer.next.2.cursor.rest.head? ≠ some .unreadable) := by
  obtain ⟨cursor, failed⟩ := lexer
  cases failed with
  | true =>
    -- a lexer that has failed looks for an unreadable line, and takes nothing else
    obtain ⟨last, rest⟩ := cursor
    match rest with
    | [] => exact ⟨[], rfl, fun error h => by simp [next] at h⟩
    | .char c span :: rest => exact ⟨[], rfl, fun error h => by simp [next] at h⟩
    | .unreadable :: rest =>
      refine ⟨[.unreadable], rfl, fun error h => ⟨rfl, fun _ => rfl, fun hOther => ?_⟩⟩
      simp only [next, fail, if_true, Option.some.injEq, Except.error.injEq] at h
      exact absurd (h ▸ rfl) hOther
  | false =>
    -- otherwise the request has been a turn, which says what has been passed
    have hTurn := turn_next cursor
    generalize (Lexer.mk cursor false).next = turn at hTurn
    obtain ⟨reply, lexer'⟩ := turn
    cases hTurn with
    | ended hGap => exact ⟨_, hGap.rest, fun error h => by simp at h⟩
    | token t hGap hText => exact ⟨_, (hGap.trans hText).rest, fun error h => by simp at h⟩
    | @unreadable text mid rest hText hRest =>
      refine ⟨Text.items text ++ [.unreadable], ?_, fun error h => ⟨rfl, by simp, fun hOther => ?_⟩⟩
      · rw [hText.rest, hRest]
        simp
      · simp only [Option.some.injEq, Except.error.injEq] at h
        exact absurd (h ▸ rfl) hOther
    | failure hGap hTakes hNext =>
      obtain ⟨text, hText⟩ := hTakes.passes
      refine ⟨_, (hGap.trans hText).rest, fun error h =>
        ⟨rfl, fun hInput => ?_, fun _ => hNext⟩⟩
      simp only [Option.some.injEq, Except.error.injEq] at h
      subst h
      -- no lexeme fails with the failure of unreadable lines
      subst hInput
      cases hTakes

theorem after_takes (lexer : Lexer) (k : Nat) :
    ∃ taken, lexer.cursor.rest = taken ++ (lexer.after k).cursor.rest := by
  induction k with
  | zero => exact ⟨[], rfl⟩
  | succ k ih =>
    obtain ⟨taken, hTaken⟩ := ih
    obtain ⟨more, hMore, -⟩ := (lexer.after k).next_takes
    exact ⟨taken ++ more, by rw [hTaken, hMore, after, List.append_assoc]⟩

/-! ## After a failure -/

/-- How many unreadable lines come next in a stream, one directly behind the other. -/
def unreadableNext (stream : List Item) : Nat := (stream.takeWhile (· == .unreadable)).length

theorem unreadableNext_eq_zero_iff {stream : List Item} :
    unreadableNext stream = 0 ↔ stream.head? ≠ some .unreadable := by
  match stream with
  | [] => simp [unreadableNext]
  | .unreadable :: stream => simp [unreadableNext]
  | .char c span :: stream => simp [unreadableNext]

theorem unreadableNext_cons (stream : List Item) :
    unreadableNext (.unreadable :: stream) = unreadableNext stream + 1 := by
  simp [unreadableNext]

/-- With no unreadable line next, a failed `Lexer` stays as it is and answers nothing. -/
theorem next_of_failed {lexer : Lexer} (h : lexer.failed)
    (hNext : lexer.cursor.rest.head? ≠ some .unreadable) : lexer.next = (none, lexer) := by
  obtain ⟨⟨last, rest⟩, failed⟩ := lexer
  obtain rfl : failed = true := h
  match rest with
  | [] => rfl
  | .char c span :: rest => rfl
  | .unreadable :: rest => exact absurd rfl hNext

theorem answer_eq_none {lexer : Lexer} (h : lexer.failed)
    (hNext : lexer.cursor.rest.head? ≠ some .unreadable) (i : Nat) : lexer.answer i = none := by
  induction i with
  | zero => rw [answer, after, next_of_failed h hNext]
  | succ i ih => rw [← answer_next, next_of_failed h hNext, ih]

/-- **All answers of a lexer that has failed.** It fails once more for each unreadable line that
comes next (`unreadableNext`), and then it has nothing more to say. -/
theorem answer_of_failed {lexer : Lexer} (h : lexer.failed) (i : Nat) :
    (i < unreadableNext lexer.cursor.rest →
      ∃ span, lexer.answer i = some (.error ⟨.input, span⟩)) ∧
    (unreadableNext lexer.cursor.rest ≤ i → lexer.answer i = none) := by
  induction i generalizing lexer with
  | zero =>
    refine ⟨fun hSome => ?_, fun hNone => ?_⟩
    · have hNext : lexer.cursor.rest.head? = some .unreadable := by
        by_contra hNext
        have hZero := unreadableNext_eq_zero_iff.mpr hNext
        omega
      obtain ⟨rest, hRest⟩ := List.head?_eq_some_iff.mp hNext
      simp [answer, after, next, fail, h, hRest]
    · exact answer_eq_none h (unreadableNext_eq_zero_iff.mp (by omega)) 0
  | succ i ih =>
    -- one of these lines is taken by the next request, or the lexer stays as it is for ever
    by_cases hNext : lexer.cursor.rest.head? = some .unreadable
    · obtain ⟨rest, hRest⟩ := List.head?_eq_some_iff.mp hNext
      have hAfter : lexer.next.2.failed ∧ lexer.next.2.cursor.rest = rest := by
        simp [next, fail, h, hRest]
      have hLater := ih hAfter.1
      rw [hAfter.2] at hLater
      rw [← answer_next, hRest, unreadableNext_cons, Nat.add_lt_add_iff_right,
        Nat.add_le_add_iff_right]
      exact hLater
    · have hZero := unreadableNext_eq_zero_iff.mpr hNext
      exact ⟨fun h => by omega, fun _ => answer_eq_none h hNext _⟩

/-- **Behind a failure there is no token, and no failure but at unreadable lines that follow each
other.** Whatever a request has failed for, the later ones fail for the unreadable lines that are
next then, and after these all of them are answered with nothing. No such line is next unless the
request itself has failed at an unreadable line, the one before; so a lexer is silent from its
first failure on unless that is at an unreadable line with another one directly behind.

Here `left` is what is left of the stream at the cursor of the failing request, and `taken` is what
this request and those before it have taken. -/
theorem silent_after_failure (stream : List Item) (k : Nat) (error : Located LexError)
    (h : (ofItems stream).answer k = some (.error error)) :
    ∃ taken left : List Item, stream = taken ++ left ∧
      left = ((ofItems stream).after (k + 1)).cursor.rest ∧
      (error.value = .input → taken.getLast? = some .unreadable) ∧
      (error.value ≠ .input → left.head? ≠ some .unreadable) ∧
      (∀ i, i < unreadableNext left →
        ∃ span, (ofItems stream).answer (k + 1 + i) = some (.error ⟨.input, span⟩)) ∧
      (∀ i, unreadableNext left ≤ i → (ofItems stream).answer (k + 1 + i) = none) ∧
      ((∀ i, (ofItems stream).answer (k + 1 + i) = none) ↔ left.head? ≠ some .unreadable) := by
  obtain ⟨before, hBefore⟩ := (ofItems stream).after_takes k
  obtain ⟨taken, hTaken, hFailure⟩ := ((ofItems stream).after k).next_takes
  obtain ⟨hFailed, hInput, hOther⟩ := hFailure error h
  rw [show ((ofItems stream).after k).next.2 = (ofItems stream).after (k + 1) from rfl]
    at hTaken hFailed hOther
  have hLater := fun i => answer_of_failed hFailed i
  simp only [answer_after] at hLater
  -- what is left behind the failing request decides all the later answers
  refine ⟨before ++ taken, _, ?_, rfl, fun hValue => ?_, hOther, fun i => (hLater i).1,
    fun i => (hLater i).2, ?_⟩
  · rw [List.append_assoc, ← hTaken]
    exact hBefore
  · simp [hInput hValue]
  · rw [← unreadableNext_eq_zero_iff]
    constructor
    · intro hSilent
      by_contra hNext
      obtain ⟨span, hSpan⟩ := (hLater 0).1 (by omega)
      simp [hSilent 0] at hSpan
    · exact fun hNone i => (hLater i).2 (by omega)

/-- Behind a number that is too large comes one that is not read any more. -/
theorem silent_after_failure_sample :
    (ofItems (Source.mk "sample" [some "1 99999999999 2", none]).items).answer 1 =
      some (.error ⟨.intOverflow, ⟨⟨1, 12⟩, ⟨1, 13⟩⟩⟩) ∧
    ((ofItems (Source.mk "sample" [some "1 99999999999 2", none]).items).after
      (1 + 1)).cursor.rest.head? ≠ some .unreadable ∧
    ∀ i, (ofItems (Source.mk "sample" [some "1 99999999999 2", none]).items).answer (1 + 1 + i) =
      none := by
  have h : (ofItems (Source.mk "sample" [some "1 99999999999 2", none]).items).answer 1 =
      some (.error ⟨.intOverflow, ⟨⟨1, 12⟩, ⟨1, 13⟩⟩⟩) := by decide +kernel
  obtain ⟨taken, left, -, hAt, -, hOther, -, -, hSilent⟩ := silent_after_failure _ _ _ h
  have hLeft := hOther (by decide)
  rw [← hAt]
  exact ⟨h, hLeft, hSilent.mpr hLeft⟩

/-- **Two unreadable lines in a row are two failures**: the lexer is not silent after the first. -/
theorem fails_twice :
    ¬ ∀ (bytes : List UInt8) (k : Nat) (error : Located LexError),
      (ofItems (Source.ofBytes "t.sc" bytes).items).answer k = some (.error error) →
      ∀ i, (ofItems (Source.ofBytes "t.sc" bytes).items).answer (k + 1 + i) = none := by
  intro h
  have hFirst : (ofItems (Source.ofBytes "t.sc" [0xff, 10, 0xfe, 10]).items).answer 0 =
      some (.error ⟨.input, .first⟩) := by decide +kernel
  have hSecond : (ofItems (Source.ofBytes "t.sc" [0xff, 10, 0xfe, 10]).items).answer 1 =
      some (.error ⟨.input, .first⟩) := by decide +kernel
  simpa [hSecond] using h _ _ _ hFirst 0

end Lexer

end JumpCode
