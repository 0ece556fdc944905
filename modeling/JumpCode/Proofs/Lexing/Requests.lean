import JumpCode.Proofs.Lexing.Places
import JumpCode.Proofs.Lexing.Silence

/-!
# JumpCode — how far a lexer comes by requests

A scan says what all requests to a lexer come to. A lexer may be left before it is done, or it may
be asked on when it has failed: so it is followed request by request.

* `Lexer.after_take` — where a lexer stands when it has given some of the tokens;
* `Lexer.after_scan` — where it stands after the first request that gives none;
* `Lexer.after_none` — where it stands when it has nothing more to say.
-/

namespace JumpCode

namespace Lexer

theorem scan_lexer_of_nil {lexer : Lexer} (h : lexer.scan.tokens = []) :
    lexer.scan.lexer = lexer.next.2 ∧ lexer.next.1 = lexer.scan.failure.map .error := by
  match hNext : lexer.next with
  | (none, after) =>
    rw [scan_of_none (congrArg Prod.fst hNext), hNext]
    exact ⟨rfl, rfl⟩
  | (some (.error error), after) =>
    rw [scan_of_error (congrArg Prod.fst hNext), hNext]
    exact ⟨rfl, rfl⟩
  | (some (.ok t), after) =>
    rw [scan_of_token hNext] at h
    cases h

/-- When a lexer has given some of the tokens of its scan, all of them have their start in the text
that it has passed (`Cursor.Passes`), and its scan goes on with the other tokens. -/
theorem after_take (c : Cursor) {k : Nat} (hTokens : k ≤ (Lexer.mk c false).scan.tokens.length) :
    ∃ (text : Text) (c' : Cursor), c.Passes text c' ∧ (Lexer.mk c false).after k = ⟨c', false⟩ ∧
      (Lexer.mk c' false).scan = { (Lexer.mk c false).scan with
        tokens := (Lexer.mk c false).scan.tokens.drop k } ∧
      ∀ t ∈ (Lexer.mk c false).scan.tokens.take k, ∃ d ∈ text, t.span.start = d.span.start := by
  induction k generalizing c with
  | zero => exact ⟨[], c, .refl c, rfl, rfl, by simp⟩
  | succ k ih =>
    have hTurn := turn_next c
    generalize hNext : (Lexer.mk c false).next = turn at hTurn
    obtain ⟨reply, lexer⟩ := turn
    dsimp only at hTurn
    -- a scan that has tokens left begins with one
    have hSome (hNone : (Lexer.mk c false).scan.tokens = []) : False := by
      rw [hNone] at hTokens
      cases hTokens
    cases hTurn with
    | ended => exact (hSome (by rw [scan_of_none (congrArg Prod.fst hNext)])).elim
    | unreadable => exact (hSome (by rw [scan_of_error (congrArg Prod.fst hNext)])).elim
    | failure => exact (hSome (by rw [scan_of_error (congrArg Prod.fst hNext)])).elim
    | @token gap more mid after first token hGap hText hNot =>
      rw [scan_of_token hNext] at hTokens ⊢
      obtain ⟨text, c', hPasses, hAfter, hRest, hStarts⟩ :=
        ih after (Nat.le_of_succ_le_succ hTokens)
      refine ⟨gap ++ (first :: more) ++ text, c', (hGap.trans hText).trans hPasses, ?_, hRest, ?_⟩
      · rw [← after_next, hNext]
        exact hAfter
      · intro t ht
        rcases List.mem_cons.mp ht with rfl | ht
        · exact ⟨first, by simp, rfl⟩
        · obtain ⟨d, hd, hStart⟩ := hStarts t ht
          exact ⟨d, by simp [hd], hStart⟩

/-- The first request that gives no token brings a lexer to the end of its scan, `Scan.lexer`, and
is answered with the failure there, if there is one. -/
theorem after_scan (c : Cursor) :
    (Lexer.mk c false).after ((Lexer.mk c false).scan.tokens.length + 1) =
        (Lexer.mk c false).scan.lexer ∧
      (Lexer.mk c false).answer (Lexer.mk c false).scan.tokens.length =
        (Lexer.mk c false).scan.failure.map .error := by
  obtain ⟨text, c', -, hAfter, hScan, -⟩ := after_take c (Nat.le_refl _)
  have hNone : (Lexer.mk c' false).scan.tokens = [] := by
    rw [hScan]
    exact List.drop_length
  obtain ⟨hLexer, hAnswer⟩ := scan_lexer_of_nil hNone
  rw [hScan] at hLexer hAnswer
  rw [answer, after, hAfter]
  exact ⟨hLexer.symm, hAnswer⟩

/-- A request that is answered with a token is one for a token of the scan. -/
theorem answer_of_lt (c : Cursor) {k : Nat} (hTokens : k < (Lexer.mk c false).scan.tokens.length) :
    (Lexer.mk c false).answer k ≠ none := by
  obtain ⟨text, c', -, hAfter, hScan, -⟩ := after_take c (Nat.le_of_lt hTokens)
  intro hNone
  rw [answer, hAfter] at hNone
  rw [scan_of_none hNone] at hScan
  have hLength := congrArg (·.tokens.length) hScan.symm
  dsimp only at hLength
  rw [List.length_drop, List.length_nil] at hLength
  omega

theorem after_after (lexer : Lexer) (k n : Nat) :
    (lexer.after k).after n = lexer.after (k + n) := by
  induction n with
  | zero => rfl
  | succ n ih => rw [after, ih, Nat.add_succ, after]

/-- A lexer that has failed goes on to fail. -/
theorem failed_after {lexer : Lexer} (h : lexer.failed) (k : Nat) : (lexer.after k).failed := by
  induction k with
  | zero => exact h
  | succ k ih =>
    rw [after]
    generalize lexer.after k = mid at ih
    -- a failed lexer only passes an unreadable line, or stays as it is
    by_cases hNext : mid.cursor.rest.head? = some .unreadable
    · obtain ⟨rest, hRest⟩ := List.head?_eq_some_iff.mp hNext
      simp [next, fail, ih, hRest]
    · rw [next_of_failed ih hNext]
      exact ih

/-- A lexer that has failed stands where it settles (`Lexer.settle`) once it answers nothing. -/
theorem after_none_of_failed {lexer : Lexer} (h : lexer.failed) {k : Nat}
    (hNone : lexer.answer k = none) : lexer.after (k + 1) = lexer.settle := by
  -- requests do not change where it settles
  have hSettle (i : Nat) : (lexer.after i).settle = lexer.settle := by
    induction i with
    | zero => rfl
    | succ i ih => rw [after, settle_next (failed_after h i), ih]
  have hFailed := failed_after h k
  -- an unreadable line that were next would be answered
  have hNext : (lexer.after k).cursor.rest.head? ≠ some .unreadable := by
    intro hHead
    obtain ⟨rest, hRest⟩ := List.head?_eq_some_iff.mp hHead
    simp [answer, next, fail, hFailed, hRest] at hNone
  -- and where none is next, it has settled
  have hStays : (lexer.after k).settle = lexer.after k := by
    have hDrop : (lexer.after k).cursor.rest.dropWhile (· == .unreadable) =
        (lexer.after k).cursor.rest := by
      generalize (lexer.after k).cursor.rest = rest at hNext
      cases rest with
      | nil => rfl
      | cons item rest =>
        cases item with
        | char => rfl
        | unreadable => exact absurd rfl hNext
    rw [settle, hDrop]
  rw [after, next_of_failed hFailed hNext, ← hStays, hSettle]

/-- At the end of its text a lexer stays as it is. -/
theorem after_of_ended {lexer : Lexer} (hRest : lexer.cursor.rest = []) (k : Nat) :
    lexer.after k = lexer := by
  have hNext : lexer.next.2 = lexer := by
    obtain ⟨⟨last, rest⟩, failed⟩ := lexer
    obtain rfl : rest = [] := hRest
    cases failed <;> rfl
  induction k with
  | zero => rfl
  | succ k ih => rw [after, ih, hNext]

/-- **A lexer that answers nothing has settled** (`Lexer.settle`), whether it has failed before or
not. -/
theorem after_none (c : Cursor) {n : Nat} (hNone : (Lexer.mk c false).answer n = none) :
    (Lexer.mk c false).after (n + 1) = (Lexer.mk c false).scan.lexer.settle := by
  obtain ⟨hAfter, hAnswer⟩ := after_scan c
  obtain ⟨passed, c', -, hTurn, -⟩ := scan_turns c
  have hTokens : (Lexer.mk c false).scan.tokens.length ≤ n :=
    Nat.le_of_not_lt fun hLt => answer_of_lt c hLt hNone
  obtain ⟨j, rfl⟩ := Nat.exists_eq_add_of_le hTokens
  cases hFailure : (Lexer.mk c false).scan.failure with
  | none =>
    rw [hFailure] at hTurn
    -- without a failure the scan has come to the end of the text
    have hEnd : (Lexer.mk c false).scan.lexer.cursor.rest = [] := by
      generalize (Lexer.mk c false).scan.lexer = lexer at hTurn
      cases hTurn with
      | ended _ hEnd => exact hEnd
    rw [Nat.add_right_comm, ← after_after, hAfter, after_of_ended hEnd, settle, hEnd,
      List.dropWhile_nil, ← hEnd]
  | some error =>
    rw [hFailure] at hAnswer
    -- the failure has been answered before, so the requests go on behind it
    cases j with
    | zero => cases hAnswer.symm.trans hNone
    | succ i =>
      obtain ⟨taken, -, hFails⟩ :=
        ((Lexer.mk c false).after (Lexer.mk c false).scan.tokens.length).next_takes
      have hFailed : (Lexer.mk c false).scan.lexer.failed := by
        rw [← hAfter]
        exact (hFails error hAnswer).1
      rw [show (Lexer.mk c false).scan.tokens.length + (i + 1) =
        (Lexer.mk c false).scan.tokens.length + 1 + i by omega] at hNone ⊢
      rw [← answer_after, hAfter] at hNone
      rw [Nat.add_assoc, ← after_after, hAfter]
      exact after_none_of_failed hFailed hNone

end Lexer

end JumpCode
