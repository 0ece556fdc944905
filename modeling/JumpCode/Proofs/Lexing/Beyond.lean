import JumpCode.Proofs.Lexing.Passage

/-!
# JumpCode — what lies beyond a request

A request to the lexer looks one item beyond what it takes, and no further. So where it leaves an
item in the stream, whatever is put behind the stream makes no difference to its answer.

* `Cursor.behind` — a place in a stream with more items at the end;
* `takeLexeme_behind` — the lexeme that is taken does not depend on them;
* `Lexer.next_behind` — nor does the answer to a request.
-/

namespace JumpCode

/-- The same place in a stream with more items at its end: the `last` span stays. -/
def Cursor.behind (c : Cursor) (more : List Item) : Cursor := ⟨c.last, c.rest ++ more⟩

/-- The same of a result with the `Cursor` behind it. -/
def Cursor.mapBehind {α : Type} (taken : α × Cursor) (more : List Item) : α × Cursor :=
  (taken.1, taken.2.behind more)

open Cursor

variable (more : List Item)

/-! ## The runs -/

/-- A gap is over at an item that is neither the last one nor a slash: a second slash could make it
go on. This is the one place where `skipGap` looks two items ahead. -/
theorem skipGap_behind {inComment : Bool} {last : Span} {stream : List Item}
    (h : (skipGap inComment last stream).rest ≠ [])
    (hSlash : ∀ span, (skipGap inComment last stream).rest ≠ [.char '/' span]) :
    skipGap inComment last (stream ++ more) = (skipGap inComment last stream).behind more := by
  fun_induction skipGap inComment last stream with
  | case1 => exact absurd rfl h
  | case2 => rfl
  | case3 last c span rest ih =>
    rw [List.cons_append, skipGap.eq_def]
    simpa using ih h hSlash
  | case4 inComment last c span rest hComment hBlank ih =>
    rw [List.cons_append, skipGap.eq_def]
    simpa [hComment, hBlank] using ih h hSlash
  | case5 inComment last span hComment span' rest hBlank ih =>
    rw [List.cons_append, List.cons_append, skipGap.eq_def]
    simpa [hComment, hBlank] using ih h hSlash
  -- the gap ends at a character, unless this and the next one are slashes
  | case6 inComment last c span rest hComment hBlank hMarks =>
    rw [List.cons_append, skipGap.eq_4]
    · simp [hComment, hBlank, behind]
    · intro span' rest' hFirst hRest
      subst hFirst
      cases rest with
      | nil => exact hSlash span rfl
      | cons item rest =>
        obtain ⟨rfl, -⟩ := List.cons.inj hRest
        exact hMarks span' rest rfl rfl

theorem takeRun_behind {class? : Char → Bool} {last : Span} {stream : List Item}
    (h : (takeRun class? last stream).2.rest ≠ []) :
    takeRun class? last (stream ++ more) = mapBehind (takeRun class? last stream) more := by
  fun_induction takeRun class? last stream with
  | case1 _ _ _ _ hClass run cursor hRun ih =>
    rw [hRun] at ih
    simp [takeRun, hClass, ih h, mapBehind]
  | case2 _ _ _ _ hClass => simp [takeRun, hClass, mapBehind, behind]
  | case3 last rest hNone =>
    rcases rest with _ | ⟨c | _, rest⟩
    · exact absurd rfl h
    · exact absurd rfl (hNone _ _ rest)
    · rfl

theorem takeNumeral_behind {value : Nat} {last : Span} {stream : List Item}
    (h : (takeNumeral value last stream).2.rest ≠ []) :
    takeNumeral value last (stream ++ more) = mapBehind (takeNumeral value last stream) more := by
  fun_induction takeNumeral value last stream with
  | case1 _ _ _ _ _ hFits ih => simpa [takeNumeral, hFits] using ih h
  | case2 _ _ _ _ _ hFits => simp [takeNumeral, hFits, mapBehind, behind]
  | case3 value last rest hNone =>
    rcases rest with _ | ⟨c | _, rest⟩
    · exact absurd rfl h
    · exact absurd rfl (hNone _ _ rest)
    · rfl

/-! ## One lexeme -/

theorem takeNumber_behind {c : Cursor} (h : (takeNumber c).2.rest ≠ []) :
    takeNumber (c.behind more) = mapBehind (takeNumber c) more := by
  -- where the numeral leaves an item its first run has left one too
  have hSome : (takeNumeral 0 c.last c.rest).2.rest ≠ [] := by
    intro hNone
    simp [takeNumber, hNone] at h
  have hNumeral := takeNumeral_behind more hSome
  simp only [takeNumber, behind, hNumeral, mapBehind] at h ⊢
  split at h
  · rename_i d span rest hRest
    simp only [hRest, List.cons_append] at h ⊢
    split
    · rename_i hPoint
      rw [if_pos hPoint] at h
      simp [takeRun_behind more h, mapBehind, behind]
    · split <;> simp [hRest]
  · rename_i hNone
    -- behind the run stands a line that cannot be read
    generalize (takeNumeral 0 c.last c.rest).2.rest = rest at h hNone hSome ⊢
    rcases rest with _ | ⟨d | _, rest⟩
    · exact absurd rfl hSome
    · exact absurd rfl (hNone _ _ rest)
    · rfl

theorem takeOperator_behind {d : Char} {c : Cursor} (h : (takeOperator d c).2.rest ≠ []) :
    takeOperator d (c.behind more) = mapBehind (takeOperator d c) more := by
  obtain ⟨last, rest⟩ := c
  rcases rest with _ | ⟨⟨e, span⟩ | _, rest⟩
  · simp only [takeOperator] at h
    split at h <;> exact absurd rfl h
  · simp only [takeOperator, behind, List.cons_append]
    split
    · rfl
    · split <;> rfl
  · simp only [takeOperator, behind, List.cons_append]
    split <;> rfl

/-- Whatever lexeme is taken, if an item is left behind it, it is taken from a longer stream too. -/
theorem takeLexeme_behind {last : Span} {c : Char} {span : Span} {rest : List Item}
    (h : (takeLexeme last c span rest).2.rest ≠ []) :
    takeLexeme last c span (rest ++ more) = mapBehind (takeLexeme last c span rest) more := by
  revert h
  simp only [takeLexeme]
  split
  · exact fun _ => rfl
  · split
    · exact takeOperator_behind more (c := ⟨span, rest⟩)
    · split
      · intro h
        simp [takeRun_behind more h, mapBehind]
      · split
        · exact takeNumber_behind more (c := ⟨last, .char c span :: rest⟩)
        · exact fun _ => rfl

/-! ## One request -/

namespace Lexer

/-- The same `Lexer` in a stream with more items at its end. -/
def behind (lexer : Lexer) (more : List Item) : Lexer := ⟨lexer.cursor.behind more, lexer.failed⟩

theorem fail_behind {error : LexError} {c : Cursor} (h : c.rest ≠ []) :
    fail error (c.behind more) = ((fail error c).1, (fail error c).2.behind more) := by
  obtain ⟨last, rest⟩ := c
  rcases rest with _ | ⟨item, rest⟩
  · exact absurd rfl h
  · cases item <;> rfl

theorem deliver_behind {start : Span} {result : Except LexError Token} {c : Cursor}
    (h : (deliver start result c).2.cursor.rest ≠ []) :
    deliver start result (c.behind more) =
      ((deliver start result c).1, (deliver start result c).2.behind more) := by
  obtain ⟨last, rest⟩ := c
  rcases rest with _ | ⟨⟨d, span⟩ | _, rest⟩
  · cases result <;> exact absurd rfl h
  · cases result <;> rfl
  · exact fail_behind more (c := ⟨last, rest⟩) h

/-- **A request looks one item beyond what it takes.** Where `Lexer.next` leaves an item, its answer
does not depend on what comes after. -/
theorem next_behind {c : Cursor} (h : (Lexer.mk c false).next.2.cursor.rest ≠ []) :
    (Lexer.mk (c.behind more) false).next =
      ((Lexer.mk c false).next.1, (Lexer.mk c false).next.2.behind more) := by
  obtain ⟨last, stream⟩ := c
  -- three stages, and each leaves an item for the next one
  have hGap := @skipGap_behind more false last stream
  simp only [next, Cursor.behind, Bool.false_eq_true, if_false] at h hGap ⊢
  generalize skipGap false last stream = mid at h hGap ⊢
  obtain ⟨last, rest⟩ := mid
  rcases rest with _ | ⟨⟨d, span⟩ | _, rest⟩
  · exact absurd rfl h
  · -- a slash in the last place would have been taken, and no item left
    have hSlash : ∀ span', Item.char d span :: rest ≠ [.char '/' span'] := by
      rintro span' hLone
      obtain ⟨hItem, rfl⟩ := List.cons.inj hLone
      obtain ⟨rfl, -⟩ := Item.char.inj hItem
      exact h rfl
    rw [hGap (by simp) hSlash]
    -- if the lexeme left no item, there would be none left at the end
    have hSome : (takeLexeme last d span rest).2.rest ≠ [] := by
      intro hNone
      simp only [deliver, hNone] at h
      split at h <;> simp_all [fail]
    simp only [List.cons_append, takeLexeme_behind more hSome]
    exact deliver_behind more h
  · rw [hGap (by simp) (by simp)]
    exact fail_behind more (c := ⟨last, rest⟩) h

end Lexer

end JumpCode
