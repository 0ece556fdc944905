import JumpCode.Proofs.Lexing.Scan

/-!
# JumpCode — the layout of a text

A text that has tokens up to its end is passed one step at a time: blanks, whole comments and
tokens. Where a token ends the text may be set apart by spacing, since a blank extends no lexeme;
what follows is read as before, only from another place.

* `Lexes` — the steps through a text, from the position where it begins;
* `lexes_iff_splits` — they come to the division of the text;
* `Lexes.insert_behind`, `Lexes.insert_ahead` — spacing behind a token and in front of all.
-/

namespace JumpCode

open Text

/-! ## Positions in a text -/

namespace Position

/-- Where the character behind a character has its place: at the start of the next line behind a
newline, and as `Position.after` has it behind any other. -/
def past (p : Position) (c : Char) : Position := if c = '\n' then ⟨p.line + 1, 1⟩ else p.after c

/-- Where a text ends that begins at a `Position`. -/
def through (p : Position) (text : List Char) : Position := text.foldl past p

/-- One `Position` comes before another one: on an earlier line, or in an earlier column of the
same. -/
def Before (p q : Position) : Prop := p.line < q.line ∨ p.line = q.line ∧ p.column < q.column

@[simp] theorem through_nil (p : Position) : p.through [] = p := rfl

@[simp] theorem through_cons (p : Position) (c : Char) (text : List Char) :
    p.through (c :: text) = (p.past c).through text := rfl

theorem through_append (p : Position) (a b : List Char) :
    p.through (a ++ b) = (p.through a).through b := List.foldl_append

theorem past_newline (p : Position) : p.past '\n' = ⟨p.line + 1, 1⟩ := if_pos rfl

theorem past_of_ne {c : Char} (h : c ≠ '\n') (p : Position) : p.past c = p.after c := if_neg h

theorem line_through {text : List Char} (h : '\n' ∉ text) (p : Position) :
    (p.through text).line = p.line := by
  induction text generalizing p with
  | nil => rfl
  | cons c text ih =>
    have hNe : c ≠ '\n' := fun hSame => h (hSame ▸ List.mem_cons_self ..)
    rw [through_cons, ih (fun hMem => h (List.mem_cons_of_mem c hMem)), past_of_ne hNe, line_after]

theorem Before.trans {p q r : Position} (h : p.Before q) (h' : q.Before r) : p.Before r := by
  unfold Before at h h' ⊢
  omega

theorem Before.irrefl (p : Position) : ¬ p.Before p := by
  unfold Before
  omega

theorem before_past (p : Position) (c : Char) : p.Before (p.past c) := by
  by_cases hNewline : c = '\n'
  · subst hNewline
    exact .inl (Nat.lt_succ_self p.line)
  · rw [past_of_ne hNewline]
    exact .inr ⟨(p.line_after c).symm, p.column_lt_after c⟩

/-- Every character moves on, so that a text that is not empty ends behind its start. -/
theorem before_through {text : List Char} (h : text ≠ []) (p : Position) :
    p.Before (p.through text) := by
  induction text generalizing p with
  | nil => exact absurd rfl h
  | cons c text ih =>
    cases text with
    | nil => exact p.before_past c
    | cons d text => exact (p.before_past c).trans (ih (List.cons_ne_nil d text) (p.past c))

end Position

/-- Of two beginnings of a text, the one that does not end behind the other is a part of it. So a
`Position` in a text tells how much is in front of it. -/
theorem exists_of_not_before {p : Position} {a b front back : List Char}
    (hText : a ++ b = front ++ back) (h : ¬ (p.through front).Before (p.through a)) :
    ∃ more, front = a ++ more ∧ b = more ++ back := by
  rcases List.append_eq_append_iff.mp hText with ⟨more, hFront, hBack⟩ | ⟨more, hFront, hBack⟩
  · exact ⟨more, hFront, hBack⟩
  · rw [hFront, Position.through_append] at h
    -- what `a` has more than the other would lie behind it
    have hNone : more = [] := by
      by_contra hMore
      exact h (Position.before_through hMore _)
    subst hNone
    exact ⟨[], by simpa using hFront.symm, hBack.symm⟩

theorem exists_of_before {p q : Position} {a b front back : List Char}
    (hText : a ++ b = front ++ back) (hBefore : (p.through a).Before q)
    (hEnd : q = p.through front) : ∃ more, more ≠ [] ∧ front = a ++ more ∧ b = more ++ back := by
  subst hEnd
  obtain ⟨more, rfl, hBack⟩ :=
    exists_of_not_before hText fun h => Position.Before.irrefl _ (h.trans hBefore)
  refine ⟨more, ?_, rfl, hBack⟩
  rintro rfl
  rw [List.append_nil] at hBefore
  exact Position.Before.irrefl _ hBefore

/-- Beginnings of a text that end in one place are the same: `Position.through` is injective on
them. -/
theorem front_unique {p : Position} {a b front back : List Char} (hText : a ++ b = front ++ back)
    (hEnd : p.through a = p.through front) : a = front ∧ b = back := by
  have hNot : ¬ (p.through front).Before (p.through a) := by
    rw [hEnd]
    exact Position.Before.irrefl _
  obtain ⟨more, rfl, rfl⟩ := exists_of_not_before hText hNot
  have hNone : more = [] := by
    by_contra hMore
    have hBefore := Position.before_through hMore (p.through a)
    rw [← Position.through_append, ← hEnd] at hBefore
    exact Position.Before.irrefl _ hBefore
  subst hNone
  exact ⟨(List.append_nil a).symm, List.nil_append back⟩

/-- The characters of a text with their places, if it begins at a `Position`. -/
def locate (p : Position) : List Char → Text
  | [] => []
  | c :: text => ⟨c, ⟨p, p.after c⟩⟩ :: locate (p.past c) text

@[simp] theorem locate_nil (p : Position) : locate p [] = [] := rfl

@[simp] theorem locate_cons (p : Position) (c : Char) (text : List Char) :
    locate p (c :: text) = ⟨c, ⟨p, p.after c⟩⟩ :: locate (p.past c) text := rfl

theorem locate_append (p : Position) (a b : List Char) :
    locate p (a ++ b) = locate p a ++ locate (p.through a) b := by
  induction a generalizing p with
  | nil => rfl
  | cons c a ih => rw [List.cons_append, locate_cons, ih, locate_cons, Position.through_cons,
      List.cons_append]

@[simp] theorem chars_locate (p : Position) (text : List Char) : chars (locate p text) = text := by
  induction text generalizing p with
  | nil => rfl
  | cons c text ih => rw [locate_cons, chars_cons, ih]

/-! ## What ends a lexeme -/

/-- What holds of the five blanks holds of every character that separates tokens: `isBlank` says no
more. -/
theorem forall_blank {P : Char → Prop} (hSpace : P ' ') (hTab : P '\t') (hNewline : P '\n')
    (hFeed : P '\x0c') (hReturn : P '\r') : ∀ c, isBlank c → P c := by
  intro c hc
  simp only [isBlank, Bool.or_eq_true, beq_iff_eq] at hc
  rcases hc with (((rfl | rfl) | rfl) | rfl) | rfl <;> assumption

theorem not_blank_of_isWordPart {c : Char} (h : isWordPart c) : isBlank c = false := by
  by_contra hBlank
  have hNot : ∀ c, isBlank c → ¬ isWordPart c :=
    forall_blank (by decide) (by decide) (by decide) (by decide) (by decide)
  exact hNot c (Bool.of_not_eq_false hBlank) h

theorem Mark.not_blank (m : Mark) : ∀ c ∈ m.text.toList, isBlank c = false := by
  have hAll : (m.text.toList.all fun c => isBlank c == false) = true := by cases m <;> decide
  simpa only [List.all_eq_true, beq_iff_eq] using hAll

/-- No token has a blank in it, whatever it `Denotes`. -/
theorem Denotes.not_blank {lexeme : List Char} {t : Token} (h : Denotes lexeme t) :
    ∀ c ∈ lexeme, isBlank c = false := by
  have hWord {word : List Char} (hWord : IsWord word) : ∀ c ∈ word, isBlank c = false :=
    fun c hc => not_blank_of_isWordPart (hWord.isWordPart c hc)
  have hDigits {run : List Char} (hRun : IsDigits run) : ∀ c ∈ run, isBlank c = false :=
    fun c hc => not_blank_of_isWordPart (isWordPart_of_isDigit (hRun c hc))
  cases h with
  | keyword k => exact hWord k.isWord
  | scalar s => exact hWord s.isWord
  | name hName => exact hWord hName
  | integer hRun => exact hDigits hRun
  | real hWhole _ _ hFraction =>
    intro c hc
    rcases List.mem_append.mp hc with hc | hc
    · exact hDigits hWhole c hc
    · rcases List.mem_cons.mp hc with rfl | hc
      · decide
      · exact hDigits hFraction c hc
  | mark m => exact m.not_blank

theorem Denotes.ne_nil {lexeme : List Char} {t : Token} (h : Denotes lexeme t) : lexeme ≠ [] := by
  cases h with
  | keyword k => cases k <;> decide
  | scalar s => cases s <;> decide
  | name hWord =>
    obtain ⟨-, -⟩ := hWord
    exact List.cons_ne_nil _ _
  | integer _ hSome => exact hSome
  | real => simp
  | mark m => cases m <;> decide

/-- The next character alone shows whether a lexeme is the `Longest`, and it is in front of a blank.
-/
theorem Denotes.longest_iff {lexeme : List Char} {t : Token} (h : Denotes lexeme t) :
    ∃ ends : Char → Prop, (∀ c, isBlank c → ends c) ∧
      ∀ rest, Longest lexeme rest ↔ ∀ c ∈ rest.head?, ends c := by
  -- a word goes on with a part of a word, a numeral with a digit or a point
  have hWord {word : List Char} (hWord : IsWord word) : ∃ ends : Char → Prop,
      (∀ c, isBlank c → ends c) ∧ ∀ rest, Longest word rest ↔ ∀ c ∈ rest.head?, ends c :=
    ⟨fun c => isWordPart c = false,
      forall_blank (by decide) (by decide) (by decide) (by decide) (by decide),
      fun _ => hWord.longest_iff⟩
  cases h with
  | keyword k => exact hWord k.isWord
  | scalar s => exact hWord s.isWord
  | name hName => exact hWord hName
  | integer hDigits hSome =>
    exact ⟨fun c => c.isDigit = false ∧ c ≠ '.',
      forall_blank (by decide) (by decide) (by decide) (by decide) (by decide),
      fun _ => longest_integer_iff hDigits hSome⟩
  | real hWhole hSome _ hFraction =>
    exact ⟨fun c => c.isDigit = false,
      forall_blank (by decide) (by decide) (by decide) (by decide) (by decide),
      fun _ => longest_real_iff hWhole hSome hFraction⟩
  | mark m =>
    have hLone {c : Char} (hText : m.text.toList = [c]) : ∃ ends : Char → Prop,
        (∀ c, isBlank c → ends c) ∧
          ∀ rest, Longest m.text.toList rest ↔ ∀ c ∈ rest.head?, ends c := by
      rw [hText]
      refine ⟨fun d => Mark.ofPair? c d = none, ?_, fun _ => longest_mark_iff hText⟩
      intro d hBlank
      -- the second character of a pair is no blank
      by_contra hPair
      obtain ⟨pair, hPair⟩ := Option.ne_none_iff_exists'.mp hPair
      have hIn : d ∈ pair.text.toList := by simp [Mark.text_of_ofPair? hPair]
      rw [pair.not_blank d hIn] at hBlank
      cases hBlank
    rcases m.text_cases with ⟨c, hText, -⟩ | ⟨c, hText, -⟩ | ⟨c, d, hText, -⟩
    · exact hLone hText
    · exact hLone hText
    · rw [hText]
      exact ⟨fun _ => True, fun _ _ => trivial,
        fun rest => ⟨fun _ _ _ => trivial, fun _ => longest_pair hText rest⟩⟩

/-- What comes next in a text is a blank, or it is what comes next in another text. To what ends a
lexeme the texts are alike. -/
def EndsLike (rest rest' : List Char) : Prop :=
  ∀ c ∈ rest'.head?, isBlank c = true ∨ rest.head? = some c

/-- What follows the next character does not matter. -/
theorem endsLike_append {more : List Char} (h : more ≠ []) (back back' : List Char) :
    EndsLike (more ++ back) (more ++ back') := by
  obtain ⟨c, more, rfl⟩ := List.exists_cons_of_ne_nil h
  exact fun d hd => .inr hd

/-- A lexeme that is the `Longest` stays so in front of a blank, and in front of the same character.
-/
theorem Denotes.longest_of_endsLike {lexeme rest rest' : List Char} {t : Token}
    (h : Denotes lexeme t) (hLongest : Longest lexeme rest) (hEnds : EndsLike rest rest') :
    Longest lexeme rest' := by
  obtain ⟨ends, hBlank, hIff⟩ := h.longest_iff
  rw [hIff] at hLongest ⊢
  intro c hc
  rcases hEnds c hc with hIs | hSame
  · exact hBlank c hIs
  · exact hLongest c hSame

/-- No gap begins with a lexeme because of a blank behind it. -/
theorem not_beginsGap_of_endsLike {lexeme rest rest' : List Char} (hSome : lexeme ≠ [])
    (h : ¬ BeginsGap (lexeme ++ rest)) (hEnds : EndsLike rest rest') :
    ¬ BeginsGap (lexeme ++ rest') := by
  obtain ⟨c, more, rfl⟩ := List.exists_cons_of_ne_nil hSome
  simp only [List.cons_append, BeginsGap, not_or, not_and] at h ⊢
  refine ⟨h.1, fun hSlash hNext => ?_⟩
  cases more with
  | cons d more => exact h.2 hSlash hNext
  | nil =>
    rcases hEnds '/' hNext with hBlank | hSame
    · cases hBlank
    · exact h.2 hSlash hSame

/-! ## Steps through a text -/

/-- A text that begins at a position has these tokens, up to its end. Each rule passes a blank, a
whole comment or a `Longest` lexeme, which is a token at its place. -/
inductive Lexes : Position → List Char → List (Located Token) → Prop
  | nil {p} : Lexes p [] []
  | blank {p c rest tokens} (hBlank : isBlank c) (hRest : Lexes (p.past c) rest tokens) :
      Lexes p (c :: rest) tokens
  | comment {p body rest tokens} (hBody : '\n' ∉ body) (hEnd : ∀ c ∈ rest.head?, c = '\n')
      (hRest : Lexes (p.through ('/' :: '/' :: body)) rest tokens) :
      Lexes p ('/' :: '/' :: (body ++ rest)) tokens
  | token {p lexeme rest t tokens} (hFull : ¬ BeginsGap (lexeme ++ rest))
      (hLongest : Longest lexeme rest) (hDenotes : Denotes lexeme t)
      (hRest : Lexes (p.through lexeme) rest tokens) :
      Lexes p (lexeme ++ rest) (⟨t, ⟨p, p.through lexeme⟩⟩ :: tokens)

/-- Every token of a text stands in it: its `Span` goes from the end of some front part to the end
of its lexeme. -/
theorem Lexes.exists_place {p : Position} {text : List Char} {tokens : List (Located Token)}
    (h : Lexes p text tokens) {t : Located Token} (ht : t ∈ tokens) :
    ∃ front lexeme, lexeme ≠ [] ∧
      t.span = ⟨p.through front, p.through (front ++ lexeme)⟩ := by
  induction h with
  | nil => cases ht
  | @blank _ c _ _ _ _ ih =>
    obtain ⟨front, lexeme, hSome, hSpan⟩ := ih ht
    exact ⟨c :: front, lexeme, hSome, hSpan⟩
  | @comment _ body _ _ _ _ _ ih =>
    obtain ⟨front, lexeme, hSome, hSpan⟩ := ih ht
    rw [← Position.through_append, ← Position.through_append, ← List.append_assoc] at hSpan
    exact ⟨_, lexeme, hSome, hSpan⟩
  | @token p own _ _ _ _ _ hDenotes _ ih =>
    rcases List.mem_cons.mp ht with rfl | ht
    · exact ⟨[], own, hDenotes.ne_nil, rfl⟩
    · obtain ⟨front, lexeme, hSome, hSpan⟩ := ih ht
      rw [← Position.through_append, ← Position.through_append, ← List.append_assoc] at hSpan
      exact ⟨_, lexeme, hSome, hSpan⟩

/-- A token of a text ends behind the beginning of the text. -/
theorem Lexes.before {p : Position} {text : List Char} {tokens : List (Located Token)}
    (h : Lexes p text tokens) {t : Located Token} (ht : t ∈ tokens) : p.Before t.span.stop := by
  obtain ⟨front, lexeme, hSome, hSpan⟩ := h.exists_place ht
  rw [hSpan]
  exact Position.before_through (List.append_ne_nil_of_right_ne_nil front hSome) p

/-- A token of a text does not begin before the text does. -/
theorem Lexes.not_before {p : Position} {text : List Char} {tokens : List (Located Token)}
    (h : Lexes p text tokens) {t : Located Token} (ht : t ∈ tokens) :
    ¬ t.span.start.Before p := by
  obtain ⟨front, lexeme, -, hSpan⟩ := h.exists_place ht
  rw [hSpan]
  intro hBefore
  by_cases hFront : front = []
  · subst hFront
    exact Position.Before.irrefl p hBefore
  · exact Position.Before.irrefl p ((Position.before_through hFront p).trans hBefore)

/-- The `Position` of a text does not matter for what its tokens are, only for where. -/
theorem Lexes.relocate {p : Position} {text : List Char} {tokens : List (Located Token)}
    (h : Lexes p text tokens) (q : Position) :
    ∃ tokens', Lexes q text tokens' ∧ tokens'.map (·.value) = tokens.map (·.value) := by
  induction h generalizing q with
  | nil => exact ⟨[], .nil, rfl⟩
  | blank hBlank _ ih =>
    obtain ⟨tokens', hLexes, hValues⟩ := ih (q.past _)
    exact ⟨tokens', .blank hBlank hLexes, hValues⟩
  | comment hBody hEnd _ ih =>
    obtain ⟨tokens', hLexes, hValues⟩ := ih (q.through _)
    exact ⟨tokens', .comment hBody hEnd hLexes, hValues⟩
  | token hFull hLongest hDenotes _ ih =>
    obtain ⟨tokens', hLexes, hValues⟩ := ih (q.through _)
    exact ⟨_ :: tokens', .token hFull hLongest hDenotes hLexes, congrArg (_ :: ·) hValues⟩

/-! ### The only step there is -/

theorem lexes_nil_iff {p : Position} {tokens : List (Located Token)} :
    Lexes p [] tokens ↔ tokens = [] := by
  constructor
  · intro h
    generalize hText : [] = text at h
    cases h with
    | nil => rfl
    | blank => cases hText
    | comment => cases hText
    | token _ _ hDenotes => exact absurd (List.append_eq_nil_iff.mp hText.symm).1 hDenotes.ne_nil
  · rintro rfl
    exact .nil

theorem lexes_blank_iff {p : Position} {c : Char} {rest : List Char}
    {tokens : List (Located Token)} (hBlank : isBlank c) :
    Lexes p (c :: rest) tokens ↔ Lexes (p.past c) rest tokens := by
  refine ⟨fun h => ?_, .blank hBlank⟩
  generalize hText : c :: rest = text at h
  cases h with
  | nil => cases hText
  | blank _ hRest =>
    obtain ⟨rfl, rfl⟩ := List.cons.inj hText
    exact hRest
  | comment =>
    obtain ⟨rfl, -⟩ := List.cons.inj hText
    cases hBlank
  | token hFull =>
    rw [← hText] at hFull
    exact absurd (.inl hBlank) hFull

/-- The first line of a text, and where it ends. -/
theorem line_unique {a b a' b' : List Char} (h : a ++ b = a' ++ b') (ha : '\n' ∉ a)
    (ha' : '\n' ∉ a') (hb : ∀ c ∈ b.head?, c = '\n') (hb' : ∀ c ∈ b'.head?, c = '\n') :
    a = a' ∧ b = b' := by
  -- what one line has more than the other would have to begin with the newline
  have hNone {x y more : List Char} (hx : '\n' ∉ x ++ more)
      (hy : ∀ c ∈ (more ++ y).head?, c = '\n') : more = [] := by
    cases more with
    | nil => rfl
    | cons c more =>
      obtain rfl := hy c rfl
      simp at hx
  rcases List.append_eq_append_iff.mp h with ⟨more, rfl, rfl⟩ | ⟨more, rfl, rfl⟩
  · obtain rfl := hNone ha' hb
    simp
  · obtain rfl := hNone ha hb'
    simp

theorem lexes_comment_iff {p : Position} {body rest : List Char} {tokens : List (Located Token)}
    (hBody : '\n' ∉ body) (hEnd : ∀ c ∈ rest.head?, c = '\n') :
    Lexes p ('/' :: '/' :: (body ++ rest)) tokens ↔
      Lexes (p.through ('/' :: '/' :: body)) rest tokens := by
  refine ⟨fun h => ?_, .comment hBody hEnd⟩
  generalize hText : '/' :: '/' :: (body ++ rest) = text at h
  cases h with
  | nil => cases hText
  | blank hBlank =>
    obtain ⟨rfl, -⟩ := List.cons.inj hText
    cases hBlank
  | comment hBody' hEnd' hRest =>
    simp only [List.cons.injEq, true_and] at hText
    obtain ⟨rfl, rfl⟩ := line_unique hText hBody hBody' hEnd hEnd'
    exact hRest
  | token hFull =>
    rw [← hText] at hFull
    exact absurd (.inr ⟨rfl, rfl⟩) hFull

/-- Where no gap begins there is a token: this is the last rule of `Lexes`, read backwards. -/
theorem Lexes.exists_token {p : Position} {text : List Char} {tokens : List (Located Token)}
    (h : Lexes p text tokens) (hSome : text ≠ []) (hFull : ¬ BeginsGap text) :
    ∃ lexeme rest t tokens', text = lexeme ++ rest ∧
      tokens = ⟨t, ⟨p, p.through lexeme⟩⟩ :: tokens' ∧ Longest lexeme rest ∧ Denotes lexeme t ∧
        Lexes (p.through lexeme) rest tokens' := by
  cases h with
  | nil => exact absurd rfl hSome
  | blank hBlank => exact absurd (.inl hBlank) hFull
  | comment => exact absurd (.inr ⟨rfl, rfl⟩) hFull
  | token _ hLongest hDenotes hRest => exact ⟨_, _, _, _, rfl, rfl, hLongest, hDenotes, hRest⟩

/-! ## The division of the text -/

/-- Where two texts meet in a text with places: `locate` goes on from where the first one ends. -/
theorem locate_eq_append_iff {p : Position} {text : List Char} {a b : Text} :
    locate p text = a ++ b ↔
      ∃ x y, text = x ++ y ∧ a = locate p x ∧ b = locate (p.through x) y := by
  constructor
  · intro h
    induction a generalizing p text with
    | nil => exact ⟨[], text, rfl, rfl, h.symm⟩
    | cons first a ih =>
      cases text with
      | nil => cases h
      | cons c text =>
        obtain ⟨rfl, hMore⟩ := List.cons.inj h
        obtain ⟨x, y, rfl, rfl, rfl⟩ := ih hMore
        exact ⟨c :: x, y, rfl, rfl, rfl⟩
  · rintro ⟨x, y, rfl, rfl, rfl⟩
    exact locate_append p x y

theorem start_of_head? {p : Position} {text : List Char} {first : Located Char}
    (h : (locate p text).head? = some first) : first.span.start = p := by
  cases text with
  | nil => cases h
  | cons c text =>
    obtain rfl := Option.some.inj h
    rfl

theorem stop_of_getLast? {p : Position} {text : List Char} {last : Located Char}
    (hNewline : '\n' ∉ text) (h : (locate p text).getLast? = some last) :
    last.span.stop = p.through text := by
  rcases List.eq_nil_or_concat text with rfl | ⟨front, c, rfl⟩
  · cases h
  · rw [List.concat_eq_append] at h hNewline ⊢
    have hNe : c ≠ '\n' := fun hSame => hNewline (by simp [hSame])
    rw [locate_append, locate_cons, locate_nil, List.getLast?_concat] at h
    obtain rfl := Option.some.inj h
    rw [Position.through_append, Position.through_cons, Position.past_of_ne hNe,
      Position.through_nil]

/-- What makes the `Gap` in front longer leaves the division of the rest as it is. -/
theorem Splits.behind {front text : Text} {tokens : List (Located Token)}
    {failure : Option (Located LexError)} (h : Splits text tokens failure)
    (hLonger : ∀ gap rest : Text, text = gap ++ rest → Gap (chars gap) (chars rest) →
      Gap (chars (front ++ gap)) (chars rest)) : Splits (front ++ text) tokens failure := by
  cases h with
  | done hGap => exact .done (hLonger _ [] (List.append_nil _).symm hGap)
  | token hGap hLongest hDenotes hFirst hLast hRest =>
    rw [← List.append_assoc]
    exact .token (hLonger _ _ rfl hGap) hLongest hDenotes hFirst hLast hRest
  | badChar hGap hNone =>
    rw [← List.append_assoc]
    exact .badChar (hLonger _ _ rfl hGap) hNone
  | expected hGap hBegins hNone =>
    rw [← List.append_assoc]
    exact .expected (hLonger _ _ rfl hGap) hBegins hNone
  | intOverflow hGap hDigits hFits hOver =>
    rw [← List.append_assoc]
    exact .intOverflow (hLonger _ _ rfl hGap) hDigits hFits hOver

/-- A `Gap` is passed in steps, one for each blank and each comment. -/
theorem Gap.lexes {gap rest : List Char} (h : Gap gap rest) {p : Position}
    {tokens : List (Located Token)} (hRest : Lexes (p.through gap) rest tokens) :
    Lexes p (gap ++ rest) tokens := by
  induction h generalizing p with
  | full => exact hRest
  | blank hBlank _ ih => exact .blank hBlank (ih hRest)
  | comment hBody hEnd _ ih =>
    rw [List.cons_append, List.cons_append, List.append_assoc]
    refine .comment hBody hEnd (ih ?_)
    rwa [← Position.through_append]

theorem Gap.not_beginsGap {gap rest : List Char} (h : Gap gap rest) : ¬ BeginsGap rest := by
  induction h with
  | full hFull => exact hFull
  | blank _ _ ih => exact ih
  | comment _ _ _ ih => exact ih

/-- The steps through a text divide it: those of one gap and the token behind it make a step of
`Splits`. -/
theorem Lexes.splits {p : Position} {text : List Char} {tokens : List (Located Token)}
    (h : Lexes p text tokens) : Splits (locate p text) tokens none := by
  induction h with
  | nil => exact .done (.full not_false)
  | @blank p c rest _ hBlank _ ih =>
    -- a blank only makes the gap in front of the rest longer, and so does a comment
    show Splits ([⟨c, ⟨p, p.after c⟩⟩] ++ locate (p.past c) rest) _ _
    exact ih.behind fun _ _ _ hGap => .blank hBlank hGap
  | @comment p body rest _ hBody hEnd _ ih =>
    have hText : locate p ('/' :: '/' :: (body ++ rest)) =
        locate p ('/' :: '/' :: body) ++ locate (p.through ('/' :: '/' :: body)) rest :=
      locate_append p ('/' :: '/' :: body) rest
    rw [hText]
    refine ih.behind fun gap behind hRest hGap => ?_
    have hChars := congrArg chars hRest
    rw [chars_locate, chars_append] at hChars
    rw [chars_append, chars_locate]
    exact .comment hBody (hChars ▸ hEnd) hGap
  | @token p lexeme rest t _ hFull hLongest hDenotes _ ih =>
    -- a token is divided off by its first and its last character
    obtain ⟨c, more, rfl⟩ := List.exists_cons_of_ne_nil hDenotes.ne_nil
    obtain ⟨last, hLast⟩ := Option.ne_none_iff_exists'.mp
      (mt List.getLast?_eq_none_iff.mp (List.cons_ne_nil _ (locate (p.past c) more)))
    have hStop : last.span.stop = p.through (c :: more) :=
      stop_of_getLast? hDenotes.not_newline hLast
    have hGap : Gap (chars [])
        (chars (locate p (c :: more) ++ locate (p.through (c :: more)) rest)) := by
      rw [← locate_append, chars_locate]
      exact .full hFull
    rw [locate_append, ← List.nil_append (locate p _ ++ _), ← hStop]
    rw [← hStop] at hGap ih
    refine .token hGap ?_ ?_ rfl hLast ih
    · rwa [chars_locate, chars_locate]
    · rwa [chars_locate]

/-- A division that no failure ends comes from steps: the steps of each `Gap`, and then a token. -/
theorem Splits.lexes {p : Position} {text : List Char} {tokens : List (Located Token)}
    (h : Splits (locate p text) tokens none) : Lexes p text tokens := by
  generalize hText : locate p text = located at h
  generalize hNone : (none : Option (Located LexError)) = failure at h
  induction h generalizing p text with
  | done hGap =>
    rw [← hText, chars_locate] at hGap
    rw [← List.append_nil text]
    exact hGap.lexes .nil
  | token hGap hLongest hDenotes hFirst hLast _ ih =>
    obtain ⟨gap, more, rfl, rfl, hMore⟩ := locate_eq_append_iff.mp hText
    obtain ⟨lexeme, rest, rfl, rfl, rfl⟩ := locate_eq_append_iff.mp hMore.symm
    simp only [chars_append, chars_locate] at hGap hLongest hDenotes
    have hRest := ih rfl hNone
    rw [start_of_head? hFirst, stop_of_getLast? hDenotes.not_newline hLast]
    exact hGap.lexes (.token hGap.not_beginsGap hLongest hDenotes hRest)
  | badChar => cases hNone
  | expected => cases hNone
  | intOverflow => cases hNone

/-- **The steps through a text come to its division**, if no failure ends it. -/
theorem lexes_iff_splits {p : Position} {text : List Char} {tokens : List (Located Token)} :
    Lexes p text tokens ↔ Splits (locate p text) tokens none := ⟨Lexes.splits, Splits.lexes⟩

/-! ## Spacing -/

/-- Blanks, and comments up to the ends of their lines. What stands behind `Spacing` is never part
of a comment. -/
inductive Spacing : List Char → Prop
  | nil : Spacing []
  | blank {c rest} (hBlank : isBlank c) (hRest : Spacing rest) : Spacing (c :: rest)
  | comment {body rest} (hBody : '\n' ∉ body) (hRest : Spacing rest) :
      Spacing ('/' :: '/' :: (body ++ '\n' :: rest))

/-- `Spacing` adds no tokens, and only moves those that come behind it. -/
theorem Spacing.lexes_iff {spacing text : List Char} (h : Spacing spacing) {p : Position}
    {tokens : List (Located Token)} :
    Lexes p (spacing ++ text) tokens ↔ Lexes (p.through spacing) text tokens := by
  induction h generalizing p with
  | nil => exact Iff.rfl
  | blank hBlank _ ih => rw [List.cons_append, lexes_blank_iff hBlank, ih, Position.through_cons]
  | @comment body rest hBody _ ih =>
    have hEnd : ∀ c ∈ ('\n' :: (rest ++ text)).head?, c = '\n' :=
      fun c hc => (Option.some.inj hc).symm
    rw [List.cons_append, List.cons_append, List.append_assoc, List.cons_append,
      lexes_comment_iff hBody hEnd, lexes_blank_iff rfl, ih]
    simp only [Position.through_cons, Position.through_append]

/-- In front of the first token there is `Spacing`. -/
theorem Lexes.spacing {p : Position} {front back : List Char} {t : Located Token}
    {tokens : List (Located Token)} (h : Lexes p (front ++ back) (t :: tokens))
    (hStart : t.span.start = p.through front) : Spacing front := by
  generalize hText : front ++ back = text at h
  generalize hTokens : t :: tokens = all at h
  induction h generalizing front with
  | nil => cases hTokens
  | @blank p c rest tokens' hBlank hRest ih =>
    subst hTokens
    -- the token does not begin before the rest, so that the blank is part of what is in front
    have hBehind := hRest.not_before (List.mem_cons_self ..)
    rw [hStart] at hBehind
    obtain ⟨more, rfl, rfl⟩ := exists_of_not_before (a := [c]) hText.symm hBehind
    exact .blank hBlank (ih hStart rfl rfl)
  | @comment p body rest tokens' hBody hEnd hRest ih =>
    subst hTokens
    have hBehind := hRest.not_before (List.mem_cons_self ..)
    rw [hStart] at hBehind
    obtain ⟨more, rfl, rfl⟩ := exists_of_not_before (a := '/' :: '/' :: body) hText.symm hBehind
    rw [Position.through_append] at hStart
    have hMore := ih hStart rfl rfl
    -- a newline ends the comment, for a token follows
    cases more with
    | nil =>
      exfalso
      cases back with
      | nil => cases lexes_nil_iff.mp hRest
      | cons c back =>
        obtain rfl := hEnd c rfl
        have hNext := ((lexes_blank_iff rfl).mp hRest).not_before (List.mem_cons_self ..)
        rw [hStart] at hNext
        exact hNext (Position.before_past _ _)
    | cons c more =>
      obtain rfl := hEnd c rfl
      cases hMore with
      | blank _ hMore => exact .comment hBody hMore
  | token _ _ hDenotes =>
    obtain ⟨rfl, -⟩ := List.cons.inj hTokens
    -- the step is the token itself: nothing is in front of it
    cases front with
    | nil => exact .nil
    | cons c front =>
      have hBefore := Position.before_through (List.cons_ne_nil c front) ‹Position›
      rw [← hStart] at hBefore
      exact absurd hBefore (Position.Before.irrefl _)

/-- **Spacing in front of all tokens** changes the places of tokens alone: `Lexes` holds of the
longer text with tokens of the same values. -/
theorem Lexes.insert_ahead {p : Position} {front back : List Char} {tokens : List (Located Token)}
    (h : Lexes p (front ++ back) tokens) (hFront : Spacing front) {spacing : List Char}
    (hSpacing : Spacing spacing) :
    ∃ tokens', Lexes p (front ++ (spacing ++ back)) tokens' ∧
      tokens'.map (·.value) = tokens.map (·.value) := by
  rw [hFront.lexes_iff] at h
  obtain ⟨tokens', hBack, hValues⟩ := h.relocate ((p.through front).through spacing)
  exact ⟨tokens', hFront.lexes_iff.mpr (hSpacing.lexes_iff.mpr hBack), hValues⟩

/-- **Spacing behind a token**, if it begins with a blank, changes the places of tokens alone. -/
theorem Lexes.insert_behind {p : Position} {front back : List Char} {tokens : List (Located Token)}
    (h : Lexes p (front ++ back) tokens) {t : Located Token} (ht : t ∈ tokens)
    (hStop : t.span.stop = p.through front) {c : Char} {spacing : List Char} (hBlank : isBlank c)
    (hSpacing : Spacing spacing) :
    ∃ tokens', Lexes p (front ++ (c :: spacing ++ back)) tokens' ∧
      tokens'.map (·.value) = tokens.map (·.value) := by
  generalize hText : front ++ back = text at h
  induction h generalizing front with
  | nil => cases ht
  | @blank p d rest tokens hBlank' hRest ih =>
    obtain ⟨more, -, rfl, rfl⟩ := exists_of_before (a := [d]) hText.symm (hRest.before ht) hStop
    obtain ⟨tokens', hLexes, hValues⟩ := ih ht hStop rfl
    exact ⟨tokens', .blank hBlank' hLexes, hValues⟩
  | @comment p body rest tokens hBody hEnd hRest ih =>
    -- the token ends in the rest, where the spacing is inserted as well
    obtain ⟨more, hMore, rfl, rfl⟩ :=
      exists_of_before (a := '/' :: '/' :: body) hText.symm (hRest.before ht) hStop
    rw [Position.through_append] at hStop
    obtain ⟨tokens', hLexes, hValues⟩ := ih ht hStop rfl
    refine ⟨tokens', ?_, hValues⟩
    rw [List.cons_append, List.cons_append, List.append_assoc, List.cons_append, List.cons_append]
    refine .comment hBody (fun e he => ?_) hLexes
    obtain ⟨e', more, rfl⟩ := List.exists_cons_of_ne_nil hMore
    exact hEnd e he
  | @token p lexeme rest u tokens hFull hLongest hDenotes hRest ih =>
    rcases List.mem_cons.mp ht with rfl | ht
    · -- the spacing comes right behind this token
      obtain ⟨rfl, rfl⟩ := front_unique hText.symm hStop
      obtain ⟨tokens', hBack, hValues⟩ :=
        hRest.relocate ((p.through lexeme).through (c :: spacing))
      have hEnds : EndsLike rest (c :: spacing ++ rest) := fun d hd =>
        .inl (Option.some.inj hd ▸ hBlank)
      exact ⟨_ :: tokens', .token (not_beginsGap_of_endsLike hDenotes.ne_nil hFull hEnds)
        (hDenotes.longest_of_endsLike hLongest hEnds) hDenotes
        ((Spacing.blank hBlank hSpacing).lexes_iff.mpr hBack), congrArg (_ :: ·) hValues⟩
    · -- the spacing comes behind a later token, and this one still has a character of the text
      -- behind it
      obtain ⟨more, hMore, rfl, rfl⟩ := exists_of_before hText.symm (hRest.before ht) hStop
      rw [Position.through_append] at hStop
      obtain ⟨tokens', hLexes, hValues⟩ := ih ht hStop rfl
      have hEnds := endsLike_append hMore back (c :: spacing ++ back)
      rw [List.append_assoc]
      exact ⟨_ :: tokens', .token (not_beginsGap_of_endsLike hDenotes.ne_nil hFull hEnds)
        (hDenotes.longest_of_endsLike hLongest hEnds) hDenotes hLexes, congrArg (_ :: ·) hValues⟩

end JumpCode
