import JumpCode.Proofs.Lexing.Passage

/-!
# JumpCode — the lexer as a machine

A request can be served by a loop that looks at the next character again and again: each turn it
takes the character and is in the middle of something else, or it leaves the character where it is
and answers, or goes on without it. Not every turn takes something. The loop ends all the same,
since what is left of the stream and what the machine is in the middle of weigh less from turn to
turn; and it answers what the lexer answers.

* `Machine.weight_lt` — what one turn does to the weight;
* `Machine.exists_loop` — the loop ends, from wherever it starts;
* `Machine.loop_next` — it serves a request.
-/

namespace JumpCode.Lexer

/-! ## Turns -/

/-- What the machine is in the middle of, with what it has taken of a lexeme so far. -/
inductive Mode
  /-- No lexeme has begun. -/
  | start
  | failed
  /-- A mark that is not extended, whatever follows. -/
  | complete (mark : Mark)
  /-- The first character of a mark that a second one may extend. -/
  | operator (c : Char)
  | comment
  | integer (value : Nat)
  | real (value : Nat) (fraction : List Char)
  | word (text : List Char)

/-- The machine in a stream: its `Mode`, where its lexeme has begun, and the `Cursor` where it
stands. -/
structure Machine where
  mode : Mode
  start : Span
  cursor : Cursor

/-- What a turn of the loop comes to: another turn, or the answer with the lexer as it is then. -/
inductive Effect
  | again (m : Machine)
  | served (reply : Answer × Lexer)

/-- What the machine is in the middle of when it has taken the next character, if it takes it. A
character that is not taken is left for `Machine.finish`. -/
def Mode.take? : Mode → Char → Option Mode
  | start, c =>
    match Mark.ofChar? c with
    | some mark => some (complete mark)
    | none =>
      if isOperatorStart c then some (operator c)
      else if isWordStart c then some (word [c])
      else if isBlank c then some start
      else none
  | failed, _ => none
  | complete _, _ => none
  | operator d, c =>
    if d == '/' && c == '/' then some comment else (Mark.ofPair? d c).map complete
  | comment, c => some (if c == '\n' then start else comment)
  | integer value, c =>
    if c.isDigit then
      if 10 * value + Real64.digitValue c ≤ maxInt then
        some (integer (10 * value + Real64.digitValue c))
      else none
    else if c == '.' then some (real value [])
    else none
  | real value fraction, c => if c.isDigit then some (real value (fraction ++ [c])) else none
  | word text, c => if isWordPart c then some (word (text ++ [c])) else none

namespace Machine

/-- The machine that serves a request of a `Lexer`: it starts where this stands, and knows if it has
failed. -/
def ofLexer (lexer : Lexer) : Machine :=
  ⟨if lexer.failed then .failed else .start, lexer.cursor.last, lexer.cursor⟩

/-- The answer with a token that ends where the machine stands. -/
def token (m : Machine) (token : Token) : Effect :=
  .served (some (.ok ⟨token, m.start.join m.cursor.last⟩), ⟨m.cursor, false⟩)

/-- The turn at a character that is not taken, or at the end. -/
def finish (m : Machine) (next : Option Char) : Effect :=
  match m.mode, next with
  | .start, none => .served (none, ⟨m.cursor, false⟩)
  | .start, some c =>
    -- the digit is left for the turns that read numbers
    if c.isDigit then .again { m with mode := .integer 0 }
    else .served (fail (.badChar c) m.cursor)
  | .failed, _ => .served (none, ⟨m.cursor, true⟩)
  | .complete mark, _ => m.token (.mark mark)
  | .operator c, _ =>
    match Mark.ofLone? c with
    | some mark => m.token (.mark mark)
    | none => .served (fail (.expected c) m.cursor)
  | .comment, _ => .again { m with mode := .start }
  | .integer value, next =>
    if next.any Char.isDigit then .served (fail .intOverflow m.cursor)
    else m.token (.intLiteral value)
  | .real value fraction, _ => m.token (.realLiteral (.ofDecimal value fraction))
  | .word text, _ => m.token (.ofWord (String.ofList text))

/-- The machine at a character: a lexeme that has not begun begins there, if anywhere. -/
def beginAt (m : Machine) (span : Span) : Machine :=
  match m.mode with
  | .start => { m with start := span }
  | _ => m

/-- One turn of the loop. An unreadable line is taken and reported, whatever it is in the way of; a
character is taken if `Mode.take?` says so, and otherwise `finish` decides. -/
def turn (m : Machine) : Effect :=
  match m.cursor.rest with
  | [] => m.finish none
  | .unreadable :: rest => .served (fail .input ⟨m.cursor.last, rest⟩)
  | .char c span :: rest =>
    match m.mode.take? c with
    | some mode => .again ⟨mode, (m.beginAt span).start, ⟨span, rest⟩⟩
    | none => (m.beginAt span).finish (some c)

/-- The loop that starts with a machine takes so many turns and serves a request so. -/
inductive Loop : Machine → Nat → Answer × Lexer → Prop
  | served {m : Machine} {reply : Answer × Lexer} (h : m.turn = .served reply) : Loop m 1 reply
  | again {m m' : Machine} {n : Nat} {reply : Answer × Lexer} (h : m.turn = .again m')
      (hLoop : Loop m' n reply) : Loop m (n + 1) reply

/-! ## The weight of a machine -/

end Machine

/-- How many turns may come in this `Mode` that take nothing. -/
def Mode.weight : Mode → Nat
  | comment => 2
  | start => 1
  | operator _ => 1
  | _ => 0

theorem Mode.weight_le (mode : Mode) : mode.weight ≤ 2 := by
  cases mode <;> simp [weight]

/-- A character that is taken makes room for one more such turn at most. -/
theorem Mode.weight_take? {mode mode' : Mode} {c : Char} (h : mode.take? c = some mode') :
    mode'.weight ≤ mode.weight + 1 := by
  cases mode with
  | failed | complete => cases h
  | start | operator | comment => exact Nat.le_trans mode'.weight_le (by simp [weight])
  | integer value =>
    simp only [take?] at h
    repeat' split at h
    all_goals cases h <;> exact Nat.zero_le _
  | real | word =>
    simp only [take?] at h
    split at h <;> cases h
    exact Nat.zero_le _

namespace Machine

variable {m m' : Machine} {n n' : Nat} {reply reply' : Answer × Lexer}

/-- What is left of the stream, and what the machine is in the middle of (`Mode.weight`). A
character that is taken weighs more than all turns that it may lead to before the next one is. -/
def weight (m : Machine) : Nat := 2 * m.cursor.rest.length + m.mode.weight

@[simp] theorem cursor_beginAt (m : Machine) (span : Span) :
    (m.beginAt span).cursor = m.cursor := by
  unfold beginAt
  split <;> rfl

@[simp] theorem mode_beginAt (m : Machine) (span : Span) : (m.beginAt span).mode = m.mode := by
  unfold beginAt
  split <;> rfl

/-- The turns that take nothing and go on: a number begins, or a comment ends with the stream. -/
theorem weight_finish {next : Option Char} (h : m.finish next = .again m') :
    m'.weight < m.weight := by
  obtain ⟨mode, start, cursor⟩ := m
  simp only [finish] at h
  split at h
  · cases h
  · split at h
    · cases h
      exact Nat.lt_succ_self _
    · cases h
  · cases h
  · cases h
  · split at h <;> cases h
  · cases h
    exact Nat.lt_succ_self _
  · split at h <;> cases h
  · cases h
  · cases h

/-- **Each turn takes off weight**: it takes an item, which counts twice, or `weight_finish` has the
mode weigh less. -/
theorem weight_lt (h : m.turn = .again m') : m'.weight < m.weight := by
  unfold turn at h
  split at h
  · exact weight_finish h
  · cases h
  · next c span rest hRest =>
    split at h
    · next mode hTake =>
      cases h
      have hMode := Mode.weight_take? hTake
      simp only [weight, hRest, List.length_cons]
      omega
    · simpa [weight] using weight_finish h

/-- **The loop ends**, wherever it starts, and there is a bound to its turns. The induction is on
`weight`. -/
theorem exists_loop (m : Machine) : ∃ n ≤ m.weight + 1, ∃ reply, Loop m n reply := by
  induction hWeight : m.weight using Nat.strongRecOn generalizing m with
  | ind weight ih =>
    cases hTurn : m.turn with
    | served reply => exact ⟨1, by omega, reply, .served hTurn⟩
    | again m' =>
      have hLess := weight_lt hTurn
      obtain ⟨n, hBound, reply, hLoop⟩ := ih m'.weight (by omega) m' rfl
      exact ⟨n + 1, by omega, reply, .again hTurn hLoop⟩

/-- There is one way to go on. -/
theorem Loop.unique (h : Loop m n reply) (h' : Loop m n' reply') : n = n' ∧ reply = reply' := by
  induction h generalizing n' with
  | served h =>
    cases h' with
    | served h' =>
      cases h.symm.trans h'
      exact ⟨rfl, rfl⟩
    | again h' => cases h.symm.trans h'
  | again h _ ih =>
    cases h' with
    | served h' => cases h.symm.trans h'
    | again h' hLoop' =>
      cases h.symm.trans h'
      obtain ⟨rfl, rfl⟩ := ih hLoop'
      exact ⟨rfl, rfl⟩

/-! ## Requests -/

/-- The loop that starts with a machine serves a request so, in some number of turns. -/
def Serves (m : Machine) (reply : Answer × Lexer) : Prop := ∃ n, Loop m n reply

theorem Serves.again (h : m.turn = .again m') (hServes : Serves m' reply) : Serves m reply := by
  obtain ⟨n, hLoop⟩ := hServes
  exact ⟨n + 1, .again h hLoop⟩

theorem Serves.served (h : m.turn = .served reply) : Serves m reply :=
  ⟨1, .served h⟩

/-! ## Lexemes -/

section Lexemes

variable {start last span : Span} {rest items : List Item} {c d : Char} {mode mode' : Mode}
  {cursor : Cursor}

/-- In the middle of something a lexeme has begun: `beginAt` leaves its start where it is. -/
def Begun (mode : Mode) : Prop :=
  ∀ start cursor span, beginAt ⟨mode, start, cursor⟩ span = ⟨mode, start, cursor⟩

/-- A character that is taken in the middle of something. -/
theorem Serves.take (h : mode.take? c = some mode') (hBegun : Begun mode)
    (hServes : Serves ⟨mode', start, ⟨span, rest⟩⟩ reply) :
    Serves ⟨mode, start, ⟨last, .char c span :: rest⟩⟩ reply :=
  .again (by simp only [turn, h, hBegun start _ span]) hServes

/-- A character with which a lexeme begins, or one between lexemes. -/
theorem Serves.begin (h : Mode.start.take? c = some mode)
    (hServes : Serves ⟨mode, span, ⟨span, rest⟩⟩ reply) :
    Serves ⟨.start, start, ⟨last, .char c span :: rest⟩⟩ reply :=
  .again (by simp only [turn, h, beginAt]) hServes

/-- The character that is next, if one is. -/
def ahead (cursor : Cursor) : Option Char :=
  match cursor.rest with
  | .char c _ :: _ => some c
  | _ => none

theorem ahead_eq_none {items : List Item}
    (h : ∀ c span rest, items = .char c span :: rest → False) : ahead ⟨last, items⟩ = none := by
  match items with
  | [] => rfl
  | .unreadable :: _ => rfl
  | .char c span :: rest => exact (h c span rest rfl).elim

/-- **What has been taken is delivered** when the next character is not taken as well: the turn at
`finish` answers as `deliver` does. -/
theorem serves_deliver {result : Except LexError Token} (hBegun : Begun mode)
    (hTake : ∀ c ∈ ahead cursor, mode.take? c = none)
    (hFinish : finish ⟨mode, start, cursor⟩ (ahead cursor) = .served (match result with
      | .ok token => (some (.ok ⟨token, start.join cursor.last⟩), ⟨cursor, false⟩)
      | .error error => fail error cursor)) :
    Serves ⟨mode, start, cursor⟩ (deliver start result cursor) := by
  refine .served ?_
  obtain ⟨last, rest⟩ := cursor
  match rest with
  | [] => cases result <;> exact hFinish
  | .unreadable :: rest => cases result <;> rfl
  | .char c span :: rest =>
    have hNone := hTake c rfl
    simp only [turn, hNone, hBegun start _ span]
    cases result <;> exact hFinish

/-- A run is taken character by character, and is a token whatever follows it. Words and the digits
behind a point are such runs (`takeRun`). -/
theorem serves_run {class? : Char → Bool} (mode : List Char → Mode) (token : List Char → Token)
    (hBegun : ∀ text, Begun (mode text))
    (hTake : ∀ text c,
      (mode text).take? c = if class? c then some (mode (text ++ [c])) else none)
    (hFinish : ∀ text start cursor next, finish ⟨mode text, start, cursor⟩ next =
      Machine.token ⟨mode text, start, cursor⟩ (token text))
    (text : List Char) (last : Span) (items : List Item) :
    Serves ⟨mode text, start, ⟨last, items⟩⟩
      (deliver start (.ok (token (text ++ (takeRun class? last items).1)))
        (takeRun class? last items).2) := by
  fun_induction takeRun class? last items generalizing text with
  | case1 last c span rest hClass run cursor hRun ih =>
    -- the run has taken one character more, and the machine holds it in its mode
    have hNext := ih (text ++ [c])
    rw [hRun, List.append_assoc] at hNext
    exact hNext.take (by rw [hTake, if_pos hClass]) (hBegun text)
  | case2 last c span rest hClass =>
    refine serves_deliver (hBegun text) (fun d hd => ?_) (by rw [hFinish, List.append_nil]; rfl)
    cases hd
    rw [hTake, if_neg hClass]
  | case3 last rest hEnd =>
    refine serves_deliver (hBegun text) (fun d hd => ?_) (by rw [hFinish, List.append_nil]; rfl)
    rw [ahead_eq_none hEnd] at hd
    cases hd

theorem serves_word (text : List Char) (last : Span) (items : List Item) :
    Serves ⟨.word text, start, ⟨last, items⟩⟩
      (deliver start (.ok (.ofWord (String.ofList (text ++ (takeRun isWordPart last items).1))))
        (takeRun isWordPart last items).2) :=
  serves_run .word (fun text => .ofWord (String.ofList text)) (fun _ _ _ _ => rfl) (fun _ _ => rfl)
    (fun _ _ _ _ => rfl) text last items

theorem serves_real (value : Nat) (last : Span) (items : List Item) :
    Serves ⟨.real value [], start, ⟨last, items⟩⟩
      (deliver start (.ok (.realLiteral (.ofDecimal value (takeRun Char.isDigit last items).1)))
        (takeRun Char.isDigit last items).2) :=
  serves_run (.real value) (fun fraction => .realLiteral (.ofDecimal value fraction))
    (fun _ _ _ _ => rfl) (fun _ _ => rfl) (fun _ _ _ _ => rfl) [] last items

theorem serves_complete (mark : Mark) (cursor : Cursor) :
    Serves ⟨.complete mark, start, cursor⟩ (deliver start (.ok (.mark mark)) cursor) :=
  serves_deliver (fun _ _ _ => rfl) (fun _ _ => rfl) rfl

/-- The digits of a numeral, as far as it does not get too large: the turns of `takeNumeral`. -/
theorem serves_numeral (value : Nat) (last : Span) (items : List Item)
    (h : Serves ⟨.integer (takeNumeral value last items).1, start,
      (takeNumeral value last items).2⟩ reply) :
    Serves ⟨.integer value, start, ⟨last, items⟩⟩ reply := by
  fun_induction takeNumeral value last items with
  | case1 value last c span rest hFits ih =>
    rw [Bool.and_eq_true, decide_eq_true_eq] at hFits
    exact (ih h).take (by simp only [Mode.take?, hFits, if_true]) fun _ _ _ => rfl
  | case2 | case3 => exact h

/-- A numeral stops before a digit only if it gets too large with it. -/
theorem lt_of_takeNumeral {value : Nat} (hAhead : d ∈ ahead (takeNumeral value last items).2)
    (hDigit : d.isDigit) :
    maxInt < 10 * (takeNumeral value last items).1 + Real64.digitValue d := by
  fun_induction takeNumeral value last items with
  | case1 _ _ _ _ _ _ ih => exact ih hAhead
  | case2 value last c span rest hStop =>
    cases hAhead
    simpa [hDigit] using hStop
  | case3 value last rest hEnd =>
    rw [ahead_eq_none hEnd] at hAhead
    cases hAhead

theorem serves_number (cursor : Cursor) :
    Serves ⟨.integer 0, start, cursor⟩
      (deliver start (takeNumber cursor).1 (takeNumber cursor).2) := by
  refine serves_numeral 0 cursor.last cursor.rest ?_
  -- the digits have come to an end: another one would make the numeral too large
  have hStop : ∀ d ∈ ahead (takeNumeral 0 cursor.last cursor.rest).2, d.isDigit →
      maxInt < 10 * (takeNumeral 0 cursor.last cursor.rest).1 + Real64.digitValue d :=
    fun d => lt_of_takeNumeral
  simp only [takeNumber]
  generalize takeNumeral 0 cursor.last cursor.rest = taken at hStop
  obtain ⟨value, last, rest⟩ := taken
  have hBegun : Begun (.integer value) := fun _ _ _ => rfl
  dsimp only at hStop ⊢
  cases rest with
  | nil => exact serves_deliver hBegun (fun d hd => by cases hd) rfl
  | cons item rest =>
    cases item with
    | unreadable => exact serves_deliver hBegun (fun d hd => by cases hd) rfl
    | char c span =>
      dsimp only
      by_cases hPoint : c = '.'
      · subst hPoint
        -- behind a point the fraction is a run of its own
        exact (serves_real value span rest).take rfl hBegun
      · rw [if_neg (by simpa using hPoint)]
        -- neither a digit that no longer fits nor any other character is taken
        have hTake : ∀ d ∈ ahead ⟨last, .char c span :: rest⟩,
            (Mode.integer value).take? d = none := by
          rintro d ⟨⟩
          have hOver := hStop c rfl
          simp only [Mode.take?]
          split
          · exact if_neg (by have := hOver ‹_›; omega)
          · exact if_neg (by simpa using hPoint)
        split
        · next hDigit => exact serves_deliver hBegun hTake (by simp [finish, ahead, hDigit])
        · next hDigit => exact serves_deliver hBegun hTake (by simp [finish, ahead, hDigit]; rfl)

/-- An operator, unless it begins a comment: the machine comes to what `takeOperator` comes to. -/
theorem serves_operator
    (hComment : ∀ span' rest', c = '/' → rest = .char '/' span' :: rest' → False) :
    Serves ⟨.operator c, start, ⟨span, rest⟩⟩
      (deliver start (takeOperator c ⟨span, rest⟩).1 (takeOperator c ⟨span, rest⟩).2) := by
  -- no comment begins here, so that only a pair takes a second character
  have hTake {d : Char} {span' : Span} {rest' : List Item} (hRest : rest = .char d span' :: rest') :
      (Mode.operator c).take? d = (Mark.ofPair? c d).map .complete := by
    refine if_neg fun hBoth => ?_
    simp only [Bool.and_eq_true, beq_iff_eq] at hBoth
    obtain ⟨hFirst, rfl⟩ := hBoth
    exact hComment span' rest' hFirst hRest
  have hBegun : Begun (.operator c) := fun _ _ _ => rfl
  -- what is not a pair is a mark of one character, or an error
  have hLone (hNone : ∀ d ∈ ahead ⟨span, rest⟩, (Mode.operator c).take? d = none)
      {lone : Except LexError Token × Cursor}
      (hIs : lone = match Mark.ofLone? c with
        | some mark => (.ok (.mark mark), ⟨span, rest⟩)
        | none => (.error (.expected c), ⟨span, rest⟩)) :
      Serves ⟨.operator c, start, ⟨span, rest⟩⟩ (deliver start lone.1 lone.2) := by
    subst hIs
    cases hMark : Mark.ofLone? c with
    | some mark => exact serves_deliver hBegun hNone (by simp [finish, hMark]; rfl)
    | none => exact serves_deliver hBegun hNone (by simp [finish, hMark])
  simp only [takeOperator]
  match rest with
  | [] => exact hLone (fun d hd => by cases hd) rfl
  | .unreadable :: rest => exact hLone (fun d hd => by cases hd) rfl
  | .char d span' :: rest =>
    dsimp only
    split
    · next mark hPair =>
      exact (serves_complete mark _).take (by rw [hTake rfl, hPair]; rfl) hBegun
    · next hPair =>
      refine hLone (fun e he => ?_) rfl
      cases he
      rw [hTake rfl, hPair]
      rfl

/-- A lexeme, where neither a blank nor a comment is next. -/
theorem serves_lexeme (hBlank : ¬isBlank c)
    (hComment : ∀ span' rest', c = '/' → rest = .char '/' span' :: rest' → False) :
    Serves ⟨.start, start, ⟨last, .char c span :: rest⟩⟩
      (deliver span (takeLexeme last c span rest).1 (takeLexeme last c span rest).2) := by
  simp only [takeLexeme]
  split
  · next mark hMark => exact (serves_complete mark _).begin (by simp [Mode.take?, hMark])
  · next hMark =>
    split
    · next hOperator =>
      exact (serves_operator hComment).begin (by simp [Mode.take?, hMark, hOperator])
    · next hOperator =>
      split
      · next hWord =>
        exact (serves_word [c] span rest).begin (by simp [Mode.take?, hMark, hOperator, hWord])
      · next hWord =>
        -- what is left is a digit, or a character that begins nothing
        have hNone : Mode.start.take? c = none := by
          simp [Mode.take?, hMark, hOperator, hWord, hBlank]
        split
        · next hDigit =>
          -- the first digit is taken in a turn of its own
          refine .again ?_ (serves_number ⟨last, .char c span :: rest⟩)
          simp [turn, hNone, finish, beginAt, hDigit]
        · next hDigit =>
          refine .served ?_
          simp [turn, hNone, finish, beginAt, hDigit, deliver]

theorem take?_blank (h : isBlank c) : Mode.start.take? c = some .start := by
  simp only [isBlank, Bool.or_eq_true, beq_iff_eq] at h
  obtain (((rfl | rfl) | rfl) | rfl) | rfl := h <;> rfl

/-- A gap and what is behind it. The induction goes along with `skipGap`, and `inComment` says what
the machine is in the middle of. -/
theorem serves_gap (inComment : Bool) (start last : Span) (items : List Item) :
    Serves ⟨if inComment then .comment else .start, start, ⟨last, items⟩⟩
      (match (skipGap inComment last items).rest with
        | [] => (none, ⟨skipGap inComment last items, false⟩)
        | .unreadable :: rest => fail .input ⟨(skipGap inComment last items).last, rest⟩
        | .char c span :: rest =>
          deliver span (takeLexeme (skipGap inComment last items).last c span rest).1
            (takeLexeme (skipGap inComment last items).last c span rest).2) := by
  fun_induction skipGap inComment last items generalizing start with
  | case1 inComment last =>
    have hEnd : Serves ⟨.start, start, ⟨last, []⟩⟩ (none, ⟨⟨last, []⟩, false⟩) := .served rfl
    cases inComment with
    | false => exact hEnd
    -- the end of the text ends a comment, which takes a turn
    | true => exact .again rfl hEnd
  | case2 => exact .served rfl
  | case3 last c span rest ih =>
    refine .take ?_ (fun _ _ _ => rfl) (ih start)
    by_cases hLine : c = '\n' <;> simp [Mode.take?, hLine]
  | case4 inComment last c span rest hComment hBlank ih =>
    rw [if_neg hComment]
    exact (ih span).begin (take?_blank hBlank)
  | case5 inComment last span hComment span' rest hBlank ih =>
    rw [if_neg hComment]
    -- both slashes are taken in turns of their own: the first one might have been an operator
    have hInside : Serves ⟨.operator '/', span, ⟨span, .char '/' span' :: rest⟩⟩ _ :=
      (ih span).take rfl fun _ _ _ => rfl
    exact hInside.begin rfl
  | case6 inComment last c span rest hComment hBlank hSlashes =>
    rw [if_neg hComment]
    exact serves_lexeme hBlank hSlashes

end Lexemes

/-- **The machine answers a request as the lexer does**: `Machine.ofLexer` `Serves` what
`Lexer.next` answers. -/
theorem serves_next (lexer : Lexer) : Serves (ofLexer lexer) lexer.next := by
  obtain ⟨⟨last, rest⟩, failed⟩ := lexer
  cases failed with
  | false => exact serves_gap false last last rest
  -- after a failure nothing is read, and nothing is answered
  | true => match rest with
    | [] => exact .served rfl
    | .unreadable :: rest => exact .served rfl
    | .char c span :: rest => exact .served rfl

/-- **Each request is served by a loop that ends**: it takes two turns at most for each item that is
left in the stream, and two more. It is the loop of `serves_next`, with the bound of `exists_loop`.
-/
theorem loop_next (lexer : Lexer) :
    ∃ n ≤ 2 * lexer.cursor.rest.length + 2, Loop (ofLexer lexer) n lexer.next := by
  obtain ⟨n, hBound, reply, hLoop⟩ := exists_loop (ofLexer lexer)
  obtain ⟨k, hServes⟩ := serves_next lexer
  -- the loop that ends is the one that serves the request: there is only one
  obtain ⟨rfl, rfl⟩ := hLoop.unique hServes
  have hWeight : (ofLexer lexer).weight ≤ 2 * lexer.cursor.rest.length + 1 := by
    obtain ⟨cursor, _ | _⟩ := lexer <;> simp [weight, ofLexer, Mode.weight]
  exact ⟨n, by omega, hLoop⟩

end Machine

end JumpCode.Lexer
