import JumpCode.Proofs.Lexing.Passage
import JumpCode.Proofs.Lexing.Scan

/-!
# JumpCode — places in a source

A place carries the number of its line, and the lines that are kept for quotation carry none: they
are found by counting. Up to the first unreadable line both counts agree, for readable lines are
kept from their first item on; behind it a line is kept under a number less than its own.

* `Lexer.scan_turns` — all tokens lie in the text that has been passed, up to the last turn;
* `itemsFrom_line` — a character that has been passed is on a line that is kept under its number;
* `itemsFrom_unreadable`, `keptLines_append` — what is in front of the first unreadable line.
-/

namespace JumpCode

open Text

/-! ## All tokens -/

namespace Lexer

/-- A scan passes a text on which every token has its start, and then comes to a `Turn` that gives
no token. -/
theorem scan_turns (c : Cursor) :
    ∃ (text : Text) (c' : Cursor), c.Passes text c' ∧
      Turn c' ((Lexer.mk c false).scan.failure.map .error) (Lexer.mk c false).scan.lexer ∧
      ∀ t ∈ (Lexer.mk c false).scan.tokens, ∃ d ∈ text, t.span.start = d.span.start := by
  -- on the length of the stream, of which each token takes something
  generalize hLength : c.rest.length = n
  induction n using Nat.strongRecOn generalizing c with
  | _ n ih =>
    have hTurn := turn_next c
    generalize hNext : (Lexer.mk c false).next = turn at hTurn
    obtain ⟨reply, lexer'⟩ := turn
    match reply with
    | none =>
      rw [scan_of_none (congrArg Prod.fst hNext), hNext]
      exact ⟨[], c, .refl c, hTurn, by simp⟩
    | some (.error error) =>
      rw [scan_of_error (congrArg Prod.fst hNext), hNext]
      exact ⟨[], c, .refl c, hTurn, by simp⟩
    | some (.ok t) =>
      have hShorter := length_next_lt hNext
      rw [scan_of_token hNext]
      cases hTurn with
      | @token gap more mid after first token hGap hText hUnread =>
        obtain ⟨text, c', hPasses, hLast, hTokens⟩ := ih _ (hLength ▸ hShorter) after rfl
        refine ⟨gap ++ (first :: more) ++ text, c', (hGap.trans hText).trans hPasses, hLast, ?_⟩
        intro u hu
        rcases List.mem_cons.mp hu with rfl | hu
        · exact ⟨first, by simp, rfl⟩
        · obtain ⟨d, hd, hStart⟩ := hTokens u hu
          exact ⟨d, by simp [hd], hStart⟩

end Lexer

/-! ## Lines -/

theorem length_lineItems (p : Position) (cs : List Char) :
    (lineItems p cs).length = cs.length + 1 := by
  induction cs generalizing p with
  | nil => rfl
  | cons c cs ih => simp [lineItems, ih]

theorem lineItems_line {p : Position} {cs : List Char} {c : Char} {span : Span}
    (h : .char c span ∈ lineItems p cs) : span.start.line = p.line := by
  induction cs generalizing p with
  | nil =>
    simp only [lineItems, List.mem_singleton, Item.char.injEq] at h
    rw [h.2]
  | cons d cs ih =>
    rcases List.mem_cons.mp h with hHead | hTail
    · rw [(Item.char.inj hHead).2]
    · exact (ih hTail).trans (p.line_after d)

theorem Text.length_items (text : Text) : text.items.length = text.length := List.length_map _

theorem Text.mem_items {text : Text} {d : Located Char} (h : d ∈ text) :
    .char d.value d.span ∈ text.items := List.mem_map_of_mem h

/-- What has been taken last is one of the characters that have been passed: `lastSpan` is its span.
-/
theorem lastSpan_mem (last : Span) {text : Text} (h : text ≠ []) :
    ∃ d ∈ text, lastSpan last text = d.span := by
  induction text generalizing last with
  | nil => exact absurd rfl h
  | cons d text ih =>
    cases text with
    | nil => exact ⟨d, List.mem_cons_self .., rfl⟩
    | cons e text =>
      obtain ⟨d', hMem, hSpan⟩ := ih d.span (List.cons_ne_nil e text)
      exact ⟨d', List.mem_cons_of_mem d hMem, hSpan⟩

/-- **A character that has been passed is on a line that is kept under its number.** In front of it
there is no unreadable line, so that the numbers of lines and those in `keptLines` agree. -/
theorem itemsFrom_line {n : Nat} {lines : List (Option String)} {text : Text} {rest : List Item}
    (h : itemsFrom n lines = items text ++ rest) {d : Located Char} (hd : d ∈ text) {asked : Nat}
    (hAsked : text.length ≤ asked) :
    ∃ i line, lines[i]? = some (some line) ∧ (keptLines lines asked)[i]? = some line ∧
      d.span.start.line = n + i ∧ .char d.value d.span ∈ lineItems ⟨n + i, 1⟩ line.toList := by
  induction lines generalizing n text asked with
  | nil =>
    have hNone : items text = [] := (List.append_eq_nil_iff.mp h.symm).1
    rw [Text.items, List.map_eq_nil_iff] at hNone
    simp [hNone] at hd
  | cons line lines ih =>
    obtain ⟨first, more, rfl⟩ := List.exists_cons_of_ne_nil (List.ne_nil_of_mem hd)
    cases line with
    | none => simp [itemsFrom] at h
    | some line =>
      obtain ⟨asked, rfl⟩ : ∃ k, asked = k + 1 := ⟨asked - 1, by simp at hAsked; omega⟩
      have hLine : .char d.value d.span ∈ lineItems ⟨n, 1⟩ line.toList →
          ∃ i text, (some line :: lines)[i]? = some (some text) ∧
            (keptLines (some line :: lines) (asked + 1))[i]? = some text ∧
            d.span.start.line = n + i ∧
            .char d.value d.span ∈ lineItems ⟨n + i, 1⟩ text.toList :=
        fun hMem => ⟨0, line, rfl, rfl, lineItems_line hMem, hMem⟩
      rw [itemsFrom] at h
      -- either the text ends on this line, or it goes on behind it
      rcases List.append_eq_append_iff.mp h with ⟨behind, hItems, hRest⟩ | ⟨behind, hItems, hRest⟩
      · obtain ⟨front, back, hText, hFront, hBack⟩ := List.map_eq_append_iff.mp hItems
        rw [hText] at hd
        rcases List.mem_append.mp hd with hd | hd
        · -- the character is on the line that ends here
          exact hLine (hFront ▸ Text.mem_items hd)
        · -- it stands behind that line, for which one line and its newline have been asked
          have hLength : front.length = line.toList.length + 1 := by
            rw [← length_lineItems ⟨n, 1⟩, ← hFront, List.length_map]
          have hCount : back.length ≤ asked - line.length := by
            have hTotal := congrArg List.length hText
            rw [List.length_append, hLength, String.length_toList] at hTotal
            omega
          obtain ⟨i, text, hAt, hKept, hNumber, hMem⟩ :=
            ih (hRest.trans (by rw [← hBack]; rfl)) hd hCount
          refine ⟨i + 1, text, by simpa using hAt, by simpa [keptLines] using hKept, ?_, ?_⟩
          · rw [hNumber]
            omega
          · rw [show n + (i + 1) = n + 1 + i by omega]
            exact hMem
      · refine hLine ?_
        rw [hItems]
        exact List.mem_append_left _ (Text.mem_items hd)

/-! ## The first unreadable line -/

theorem unreadable_not_mem_lineItems (p : Position) (cs : List Char) :
    .unreadable ∉ lineItems p cs := by
  induction cs generalizing p with
  | nil => simp [lineItems]
  | cons c cs ih => simp [lineItems, ih]

/-- What is passed in front of an unreadable line are whole lines, and behind it `itemsFrom` goes on
with the line after it. -/
theorem itemsFrom_unreadable {n : Nat} {lines : List (Option String)} {text : Text}
    {rest : List Item} (h : itemsFrom n lines = items text ++ .unreadable :: rest) :
    ∃ (before : List String) (after : List (Option String)),
      lines = before.map some ++ none :: after ∧
      items text = itemsFrom n (before.map some) ∧
      rest = itemsFrom (n + before.length + 1) after := by
  induction lines generalizing n text with
  | nil => simp [itemsFrom] at h
  | cons line lines ih =>
    cases line with
    | none =>
      cases text with
      | nil =>
        simp only [itemsFrom, items_nil, List.nil_append, List.cons.injEq, true_and] at h
        exact ⟨[], lines, rfl, rfl, h.symm⟩
      | cons c text => simp [itemsFrom] at h
    | some line =>
      rw [itemsFrom] at h
      -- this line is passed as a whole, since the unreadable one is not a part of it
      have hWhole : ∃ behind, items text = lineItems ⟨n, 1⟩ line.toList ++ behind ∧
          itemsFrom (n + 1) lines = behind ++ .unreadable :: rest := by
        rcases List.append_eq_append_iff.mp h with h | ⟨behind, hItems, hRest⟩
        · exact h
        · cases behind with
          | nil => exact ⟨[], by simpa using hItems.symm, by simpa using hRest.symm⟩
          | cons item behind =>
            obtain ⟨rfl, -⟩ := List.cons.inj hRest
            exact absurd (hItems ▸ by simp) (unreadable_not_mem_lineItems ⟨n, 1⟩ line.toList)
      obtain ⟨behind, hItems, hRest⟩ := hWhole
      obtain ⟨front, back, rfl, hFront, rfl⟩ := List.map_eq_append_iff.mp hItems
      obtain ⟨before, after, rfl, hBefore, rfl⟩ := ih hRest
      -- the number of the next line is what the hypothesis counts from
      refine ⟨line :: before, after, rfl, ?_, ?_⟩
      · rw [items_append, hBefore, List.map_cons, itemsFrom, ← hFront]
        rfl
      · rw [List.length_cons, show n + (before.length + 1) + 1 = n + 1 + before.length + 1 by omega]

/-- In front of the first unreadable line all lines are kept, and those behind it after them:
`keptLines` leaves out the unreadable one alone. -/
theorem keptLines_append (n : Nat) (before : List String) (rest : List (Option String))
    (asked : Nat) :
    keptLines (before.map some ++ rest) ((itemsFrom n (before.map some)).length + asked) =
      before ++ keptLines rest asked := by
  induction before generalizing n with
  | nil => simp [itemsFrom]
  | cons line before ih =>
    have hLength : (itemsFrom n ((line :: before).map some)).length + asked =
        (line.length + ((itemsFrom (n + 1) (before.map some)).length + asked)) + 1 := by
      rw [List.map_cons, itemsFrom, List.length_append, length_lineItems, String.length_toList]
      omega
    rw [hLength, List.map_cons, List.cons_append, keptLines, Nat.add_sub_cancel_left, ih,
      List.cons_append]

end JumpCode
