import JumpCode.Proofs.Lexing.Layout

/-!
# JumpCode — the ends of lines

A line ends with a newline or with a carriage return in front of one, and the last line need not end
at all. Reading delivers one form of all this; since the blanks at the end of a line add no tokens,
the tokens are those of the text as it was written.

* `deliver` — a text as reading delivers it, and `deliver_line`, `deliver_last` for its lines;
* `line_induction` — a text line by line;
* `lexes_deliver` — what is delivered has the tokens of the text.
-/

namespace JumpCode

/-! ## Delivery -/

/-- A text as reading delivers it: a carriage return in front of a newline is dropped, and the last
line is ended if it has begun. -/
def deliver (inLine : Bool) : List Char → List Char
  | [] => if inLine then ['\n'] else []
  | '\n' :: rest => '\n' :: deliver false rest
  | '\r' :: '\n' :: rest => '\n' :: deliver false rest
  | c :: rest => c :: deliver true rest

theorem deliver_newline (inLine : Bool) (rest : List Char) :
    deliver inLine ('\n' :: rest) = '\n' :: deliver false rest := by
  rw [deliver]

theorem deliver_return (inLine : Bool) (rest : List Char) :
    deliver inLine ('\r' :: '\n' :: rest) = '\n' :: deliver false rest := by
  rw [deliver]

/-- Whether a text begins with the end of a line: a newline, or a carriage return in front of one.
-/
def EndsLine (text : List Char) : Prop :=
  text.head? = some '\n' ∨ ∃ rest, text = '\r' :: '\n' :: rest

theorem deliver_cons (inLine : Bool) {c : Char} {rest : List Char} (h : ¬ EndsLine (c :: rest)) :
    deliver inLine (c :: rest) = c :: deliver true rest := by
  rw [deliver]
  · rintro rfl
    exact h (.inl rfl)
  · rintro more rfl rfl
    exact h (.inr ⟨more, rfl⟩)

/-- In front of the end of a line a newline is delivered. -/
theorem EndsLine.head_deliver {text : List Char} (h : EndsLine text) (inLine : Bool) :
    (deliver inLine text).head? = some '\n' := by
  rcases h with hHead | ⟨rest, rfl⟩
  · obtain ⟨rest, rfl⟩ := List.head?_eq_some_iff.mp hHead
    rw [deliver_newline]
    rfl
  · rw [deliver_return]
    rfl

/-- What comes next is delivered, unless it is a blank: `EndsLike` holds both ways. -/
theorem endsLike_deliver (text : List Char) :
    EndsLike text (deliver true text) ∧ EndsLike (deliver true text) text := by
  cases text with
  | nil => exact ⟨fun c hc => .inl (Option.some.inj hc ▸ rfl), fun c hc => by cases hc⟩
  | cons c rest =>
    by_cases hEnd : EndsLine (c :: rest)
    · constructor
      · intro d hd
        rw [hEnd.head_deliver] at hd
        exact .inl (Option.some.inj hd ▸ rfl)
      · intro d hd
        obtain rfl := Option.some.inj hd
        rcases hEnd with hHead | ⟨more, hText⟩
        · obtain rfl := Option.some.inj hHead
          exact .inl rfl
        · obtain ⟨rfl, -⟩ := List.cons.inj hText
          exact .inl rfl
    · rw [deliver_cons true hEnd]
      exact ⟨fun d hd => .inr hd, fun d hd => .inr hd⟩

theorem not_endsLine_of_not_blank {c : Char} (h : isBlank c = false) (rest : List Char) :
    ¬ EndsLine (c :: rest) := by
  rintro (hHead | ⟨more, hText⟩)
  · obtain rfl := Option.some.inj hHead
    cases h
  · obtain ⟨rfl, -⟩ := List.cons.inj hText
    cases h

/-- Lexemes are delivered as they are. -/
theorem deliver_lexeme {lexeme : List Char} (hSome : lexeme ≠ [])
    (h : ∀ c ∈ lexeme, isBlank c = false) (inLine : Bool) (rest : List Char) :
    deliver inLine (lexeme ++ rest) = lexeme ++ deliver true rest := by
  induction lexeme generalizing inLine with
  | nil => exact absurd rfl hSome
  | cons c lexeme ih =>
    -- a line end begins with a blank, and no character of the lexeme is one
    have hFirst := not_endsLine_of_not_blank (h c (List.mem_cons_self ..)) (lexeme ++ rest)
    rw [List.cons_append, deliver_cons inLine hFirst]
    cases lexeme with
    | nil => rfl
    | cons d lexeme =>
      rw [ih (List.cons_ne_nil d lexeme) (fun e he => h e (List.mem_cons_of_mem c he))]
      rfl

/-- Lexemes that are delivered are in the text. -/
theorem exists_of_deliver {lexeme behind : List Char} (hSome : lexeme ≠ [])
    (h : ∀ c ∈ lexeme, isBlank c = false) {inLine : Bool} {text : List Char}
    (hText : deliver inLine text = lexeme ++ behind) :
    ∃ rest, text = lexeme ++ rest ∧ behind = deliver true rest := by
  induction lexeme generalizing inLine text with
  | nil => exact absurd rfl hSome
  | cons c lexeme ih =>
    have hFirst := h c (List.mem_cons_self ..)
    -- the first character of the lexeme is no blank, so it has not come from the end of a line
    have hHead (hNewline : (deliver inLine text).head? = some '\n') : False := by
      rw [hText] at hNewline
      obtain rfl := Option.some.inj hNewline
      cases hFirst
    cases text with
    | nil =>
      cases inLine with
      | false => cases hText
      | true => exact (hHead rfl).elim
    | cons d text =>
      rw [deliver_cons inLine fun hEnd => hHead (hEnd.head_deliver inLine)] at hText
      obtain ⟨rfl, hMore⟩ := List.cons.inj hText
      cases lexeme with
      | nil => exact ⟨text, rfl, hMore.symm⟩
      | cons e lexeme =>
        obtain ⟨rest, rfl, hBehind⟩ := ih (List.cons_ne_nil e lexeme)
          (fun x hx => h x (List.mem_cons_of_mem d hx)) hMore
        exact ⟨rest, rfl, hBehind⟩

/-! ## Lines -/

section Line

variable {α : Type} [DecidableEq α] {r a : α} {line : List α}

/-- A line, of characters or of bytes, without the mark that it may end with. -/
def chomp (r : α) (line : List α) : List α :=
  if line.getLast? = some r then line.dropLast else line

theorem chomp_singleton (r : α) : chomp r [r] = [] := if_pos rfl

theorem chomp_concat (r : α) (line : List α) : chomp r (line ++ [r]) = line := by
  unfold chomp
  rw [List.getLast?_concat, if_pos rfl, List.dropLast_concat]

theorem chomp_of_getLast? (h : line.getLast? ≠ some r) : chomp r line = line := if_neg h

theorem chomp_cases (r : α) (line : List α) :
    line = chomp r line ∨ line = chomp r line ++ [r] := by
  unfold chomp
  split
  · next hLast => exact .inr (List.dropLast_append_getLast? r hLast).symm
  · exact .inl rfl

theorem chomp_cons (h : ¬ (a = r ∧ line = [])) : chomp r (a :: line) = a :: chomp r line := by
  cases line with
  | nil =>
    rw [chomp_of_getLast?, chomp_of_getLast?]
    · exact nofun
    · exact fun hSame => h ⟨Option.some.inj hSame, rfl⟩
  | cons b line =>
    unfold chomp
    rw [List.getLast?_cons_cons, List.dropLast_cons_cons]
    split <;> rfl

theorem chomp_subset (r : α) (line : List α) : chomp r line ⊆ line := by
  unfold chomp
  split
  · exact List.dropLast_subset line
  · exact List.Subset.refl line

/-- A text, of characters or of bytes, is a line and what stands behind it. -/
theorem exists_line (newline : α) (text : List α) :
    ∃ body rest, text = body ++ rest ∧ newline ∉ body ∧ ∀ c ∈ rest.head?, c = newline := by
  induction text with
  | nil => exact ⟨[], [], rfl, List.not_mem_nil, fun c hc => by cases hc⟩
  | cons c text ih =>
    by_cases hNewline : c = newline
    · exact ⟨[], c :: text, rfl, List.not_mem_nil, fun d hd => Option.some.inj hd ▸ hNewline⟩
    · obtain ⟨body, rest, rfl, hBody, hEnd⟩ := ih
      exact ⟨c :: body, rest, rfl, by simp [Ne.symm hNewline, hBody], hEnd⟩

/-- What holds of the last line, and of a line in front of a text that it holds of, holds of every
text. The texts may be of characters or of bytes. -/
@[elab_as_elim]
theorem line_induction (newline : α) {motive : List α → Prop}
    (last : ∀ body, newline ∉ body → motive body)
    (line : ∀ body rest, newline ∉ body → motive rest → motive (body ++ newline :: rest))
    (text : List α) : motive text := by
  generalize hLength : text.length = n
  induction n using Nat.strongRecOn generalizing text with
  | _ n ih =>
    obtain ⟨body, rest, rfl, hBody, hEnd⟩ := exists_line newline text
    cases rest with
    | nil =>
      rw [List.append_nil]
      exact last body hBody
    | cons c rest =>
      obtain rfl := hEnd c rfl
      have hShorter : rest.length < n := by
        rw [← hLength, List.length_append, List.length_cons]
        omega
      exact line body rest hBody (ih rest.length hShorter rest rfl)

end Line

/-- A line that ends is delivered without its carriage return: `chomp`, and then a newline. -/
theorem deliver_line {body : List Char} (h : '\n' ∉ body) (inLine : Bool) (rest : List Char) :
    deliver inLine (body ++ '\n' :: rest) = chomp '\r' body ++ '\n' :: deliver false rest := by
  induction body generalizing inLine with
  | nil => exact deliver_newline inLine rest
  | cons c body ih =>
    simp only [List.mem_cons, not_or] at h
    -- a carriage return is dropped only where it is the last character of the line
    by_cases hLast : c = '\r' ∧ body = []
    · obtain ⟨rfl, rfl⟩ := hLast
      rw [List.cons_append, List.nil_append, deliver_return, chomp_singleton]
      rfl
    · have hLine : ¬ EndsLine (c :: (body ++ '\n' :: rest)) := by
        rintro (hHead | ⟨more, hText⟩)
        · exact h.1 (Option.some.inj hHead).symm
        · obtain ⟨rfl, hMore⟩ := List.cons.inj hText
          cases body with
          | nil => exact hLast ⟨rfl, rfl⟩
          | cons d body =>
            obtain ⟨rfl, -⟩ := List.cons.inj hMore
            exact h.2 (List.mem_cons_self ..)
      rw [List.cons_append, deliver_cons inLine hLine, ih h.2, chomp_cons hLast]
      rfl

/-- The last line is ended where no newline does so. -/
theorem deliver_last {body : List Char} (h : '\n' ∉ body) {inLine : Bool}
    (hSome : inLine = true ∨ body ≠ []) : deliver inLine body = body ++ ['\n'] := by
  induction body generalizing inLine with
  | nil =>
    rcases hSome with rfl | hSome
    · rfl
    · exact absurd rfl hSome
  | cons c body ih =>
    simp only [List.mem_cons, not_or] at h
    have hLine : ¬ EndsLine (c :: body) := by
      rintro (hHead | ⟨more, hText⟩)
      · exact h.1 (Option.some.inj hHead).symm
      · obtain ⟨-, rfl⟩ := List.cons.inj hText
        exact h.2 (List.mem_cons_self ..)
    rw [deliver_cons inLine hLine, ih h.2 (.inl rfl)]
    rfl

/-- A comment is delivered as a comment. It may lose a carriage return and so end in another column,
but it does so on the same line. -/
theorem lexes_deliver_comment {inLine : Bool} {p : Position} {body rest : List Char}
    {tokens : List (Located Token)} (hBody : '\n' ∉ body) (hEnd : ∀ c ∈ rest.head?, c = '\n')
    (hRest : ∀ more q, rest = '\n' :: more →
      (Lexes q (deliver false more) tokens ↔ Lexes q more tokens)) :
    Lexes p (deliver inLine ('/' :: '/' :: (body ++ rest))) tokens ↔
      Lexes p ('/' :: '/' :: (body ++ rest)) tokens := by
  have hWhole : '\n' ∉ '/' :: '/' :: body := by simp [hBody]
  have hNewline (more : List Char) : ∀ c ∈ ('\n' :: more).head?, c = '\n' :=
    fun c hc => (Option.some.inj hc).symm
  rw [lexes_comment_iff hBody hEnd]
  cases rest with
  | nil =>
    -- a comment at the very end gets the newline that the text lacks
    have hText : deliver inLine ('/' :: '/' :: (body ++ [])) = '/' :: '/' :: (body ++ ['\n']) := by
      rw [List.append_nil]
      exact deliver_last hWhole (.inr (List.cons_ne_nil _ _))
    rw [hText, lexes_comment_iff hBody (hNewline []), lexes_blank_iff rfl, lexes_nil_iff,
      lexes_nil_iff]
  | cons c more =>
    obtain rfl := hEnd c rfl
    have hChomped : '\n' ∉ chomp '\r' body := fun h => hBody (chomp_subset '\r' body h)
    have hText : deliver inLine ('/' :: '/' :: (body ++ '\n' :: more)) =
        '/' :: '/' :: (chomp '\r' body ++ '\n' :: deliver false more) := by
      have hLine := deliver_line hWhole inLine more
      rwa [chomp_cons (by simp), chomp_cons (by simp)] at hLine
    -- both comments end on their line, and the next one begins in its first column
    rw [hText, lexes_comment_iff hChomped (hNewline _), lexes_blank_iff rfl, lexes_blank_iff rfl,
      Position.past_newline, Position.past_newline, Position.line_through (by simpa using hChomped),
      Position.line_through hWhole]
    exact hRest more _ rfl

/-- A token is delivered as it is, and it stays the `Longest`: what comes behind it is `EndsLike`
before. -/
theorem lexes_deliver_token {inLine : Bool} {p : Position} {c : Char} {rest : List Char}
    {tokens : List (Located Token)} (hFull : ¬ BeginsGap (c :: rest))
    (hRest : ∀ lexeme more, lexeme ≠ [] → c :: rest = lexeme ++ more → ∀ q tokens,
      Lexes q (deliver true more) tokens ↔ Lexes q more tokens) :
    Lexes p (deliver inLine (c :: rest)) tokens ↔ Lexes p (c :: rest) tokens := by
  -- a token begins with no blank, so that no end of a line is replaced in front of it
  have hEnd : ¬ EndsLine (c :: rest) :=
    not_endsLine_of_not_blank (Bool.eq_false_iff.mpr fun hBlank => hFull (.inl hBlank)) rest
  have hFull' : ¬ BeginsGap (deliver inLine (c :: rest)) := by
    rw [deliver_cons inLine hEnd]
    exact not_beginsGap_of_endsLike (List.cons_ne_nil c []) hFull (endsLike_deliver rest).1
  constructor
  · intro h
    have hSome : deliver inLine (c :: rest) ≠ [] := by
      rw [deliver_cons inLine hEnd]
      exact List.cons_ne_nil _ _
    obtain ⟨lexeme, behind, t, tokens', hText, rfl, hLongest, hDenotes, hBehind⟩ :=
      h.exists_token hSome hFull'
    -- what is delivered behind the lexeme comes from what stands behind it in the text
    obtain ⟨more, hMore, rfl⟩ := exists_of_deliver hDenotes.ne_nil hDenotes.not_blank hText
    have hTail := (hRest lexeme more hDenotes.ne_nil hMore _ _).mp hBehind
    rw [hMore] at hFull ⊢
    exact .token hFull (hDenotes.longest_of_endsLike hLongest (endsLike_deliver more).2) hDenotes
      hTail
  · intro h
    obtain ⟨lexeme, more, t, tokens', hMore, rfl, hLongest, hDenotes, hBehind⟩ :=
      h.exists_token (List.cons_ne_nil c rest) hFull
    have hTail := (hRest lexeme more hDenotes.ne_nil hMore _ _).mpr hBehind
    rw [hMore, deliver_lexeme hDenotes.ne_nil hDenotes.not_blank] at hFull' ⊢
    exact .token hFull' (hDenotes.longest_of_endsLike hLongest (endsLike_deliver more).1) hDenotes
      hTail

/-- **Line ends do not matter**, nor whether the last line has one: what `deliver` makes of a text
`Lexes` to the tokens of the text. The induction is on the length of the text, by the steps of
`Lexes`. -/
theorem lexes_deliver {inLine : Bool} {p : Position} {text : List Char}
    {tokens : List (Located Token)} :
    Lexes p (deliver inLine text) tokens ↔ Lexes p text tokens := by
  -- on the length of the text: line ends, comments and tokens are passed as wholes
  generalize hLength : text.length = n
  induction n using Nat.strongRecOn generalizing text inLine p tokens with
  | _ n ih =>
    subst hLength
    have hShorter (front : List Char) {more : List Char} (hSome : front ≠ [])
        (hText : text = front ++ more) {inLine : Bool} {q : Position}
        {tokens : List (Located Token)} :
        Lexes q (deliver inLine more) tokens ↔ Lexes q more tokens := by
      refine ih more.length ?_ rfl
      have hPos := List.length_pos_iff.mpr hSome
      rw [hText, List.length_append]
      omega
    cases text with
    | nil =>
      cases inLine with
      | false => exact Iff.rfl
      | true =>
        -- the line that has been begun is ended, and a newline is a blank
        show Lexes p ['\n'] tokens ↔ _
        rw [lexes_blank_iff rfl, lexes_nil_iff, lexes_nil_iff]
    | cons c rest =>
      by_cases hEnd : EndsLine (c :: rest)
      · -- behind both forms of a line end the next line begins
        rcases hEnd with hHead | ⟨more, hText⟩
        · obtain rfl := Option.some.inj hHead
          rw [deliver_newline, lexes_blank_iff rfl, lexes_blank_iff rfl]
          exact hShorter ['\n'] (List.cons_ne_nil _ _) rfl
        · obtain ⟨rfl, rfl⟩ := List.cons.inj hText
          rw [deliver_return, lexes_blank_iff rfl, lexes_blank_iff rfl, lexes_blank_iff rfl]
          exact hShorter ['\r', '\n'] (List.cons_ne_nil _ _) rfl
      by_cases hFull : BeginsGap (c :: rest)
      · rcases hFull with hBlank | ⟨rfl, hNext⟩
        · rw [deliver_cons inLine hEnd, lexes_blank_iff hBlank, lexes_blank_iff hBlank]
          exact hShorter [c] (List.cons_ne_nil c []) rfl
        · obtain ⟨more, rfl⟩ := List.head?_eq_some_iff.mp hNext
          obtain ⟨body, rest, rfl, hBody, hLine⟩ := exists_line '\n' more
          refine lexes_deliver_comment hBody hLine ?_
          rintro more q rfl
          exact hShorter ('/' :: '/' :: (body ++ ['\n'])) (List.cons_ne_nil _ _) (by simp)
      · exact lexes_deliver_token hFull fun lexeme more hSome hText q tokens =>
          hShorter lexeme hSome hText

end JumpCode
