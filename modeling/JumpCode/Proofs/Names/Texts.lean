import JumpCode.Instruction
import JumpCode.Proofs.Lexing.Request
import JumpCode.Proofs.Real64.Written

/-!
# JumpCode — texts of operands

Of the operands that a listing shows, the text tells which one it is: integers, reals, truth values
and temporaries each have texts of their own. Only variables go by names that the program gives
them, and such a name may be the text of a temporary.

* `Lexer.scan_spelled` — names that the lexer finds are words, and reals are sizes;
* `Operand.render_cases` — operands with the same text are the same, or variables are among them.
-/

namespace JumpCode

open Text

/-! ## Tokens as they are spelled -/

/-- A name that a program may give: a word that is neither a keyword nor the name of a scalar. -/
structure IsName (text : String) : Prop where
  word : IsWord text.toList
  keyword (k : Keyword) : text ≠ k.name
  scalar (s : Scalar) : text ≠ s.name

/-- A `Token` that may be read: names are spelled as names (`IsName`), and real literals are sizes.
-/
def Token.Spelled : Token → Prop
  | name text => IsName text
  | realLiteral value => value.IsSize
  | _ => True

theorem takeRun_all (class? : Char → Bool) (last : Span) (items : List Item) :
    ∀ c ∈ (takeRun class? last items).1, class? c := by
  fun_induction takeRun class? last items <;> simp_all

theorem takeNumeral_le {value : Nat} (h : value ≤ maxInt) (last : Span) (items : List Item) :
    (takeNumeral value last items).1 ≤ maxInt := by
  fun_induction takeNumeral value last items <;> simp_all

theorem takeNumber_spelled {cursor : Cursor} {t : Token} (h : (takeNumber cursor).1 = .ok t) :
    t.Spelled := by
  have hFits : (takeNumeral 0 cursor.last cursor.rest).1 ≤ maxInt := takeNumeral_le (by simp) _ _
  revert h
  simp only [takeNumber]
  split
  · next c span rest _ =>
    split
    · rintro ⟨⟩
      exact Real64.ofDecimal_isSize (Nat.lt_succ_of_le hFits)
        (takeRun_all Char.isDigit span rest)
    · split
      · simp
      · rintro ⟨⟩
        trivial
  · rintro ⟨⟩
    trivial

theorem takeOperator_spelled {c : Char} {cursor : Cursor} {t : Token}
    (h : (takeOperator c cursor).1 = .ok t) : t.Spelled := by
  revert h
  simp only [takeOperator]
  repeat' split
  all_goals first | (rintro ⟨⟩; trivial) | simp

theorem IsWord.spelled {word : List Char} (h : IsWord word) :
    (Token.ofWord (String.ofList word)).Spelled := by
  have hDenotes := h.denotes
  generalize Token.ofWord (String.ofList word) = t at hDenotes
  cases hDenotes with
  | name hWord hKeyword hScalar =>
    refine ⟨by simpa using hWord, fun k hEq => hKeyword k ?_, fun s hEq => hScalar s ?_⟩
    · simp [← hEq]
    · simp [← hEq]
  | real hWhole hSome hFits hFraction =>
    exact Real64.ofDecimal_isSize (Nat.lt_succ_of_le hFits) hFraction
  | _ => trivial

theorem takeLexeme_spelled {last span : Span} {c : Char} {rest : List Item} {t : Token}
    (h : (takeLexeme last c span rest).1 = .ok t) : t.Spelled := by
  revert h
  simp only [takeLexeme]
  split
  · rintro ⟨⟩
    trivial
  · split
    · exact takeOperator_spelled
    · split
      · next hStart =>
        rintro ⟨⟩
        exact (IsWord.intro hStart (takeRun_all isWordPart span rest)).spelled
      · split
        · exact takeNumber_spelled
        · simp

namespace Lexer

theorem deliver_spelled {start : Span} {result : Except LexError Token} {cursor : Cursor}
    {t : Located Token} (h : (deliver start result cursor).1 = some (.ok t)) :
    result = .ok t.value := by
  revert h
  simp only [deliver]
  split
  · simp [fail]
  · simp [fail]
  · rintro ⟨⟩
    rfl

theorem next_spelled {lexer : Lexer} {t : Located Token} (h : lexer.next.1 = some (.ok t)) :
    t.value.Spelled := by
  revert h
  simp only [next]
  split
  · simp
  · simp [fail]
  · split
    · simp
    · exact fun h => takeLexeme_spelled (deliver_spelled h)

/-- **Tokens are as they are spelled**: names are words, and reals are sizes. So `Token.Spelled`
holds of all that `Lexer.scan` finds. -/
theorem scan_spelled (lexer : Lexer) : ∀ t ∈ lexer.scan.tokens, t.value.Spelled := by
  fun_induction scan lexer with
  | case1 => simp
  | case2 => simp
  | case3 lexer token after h scan ih =>
    have hToken : token.value.Spelled := next_spelled (by rw [h])
    simpa [hToken] using ih

end Lexer

/-! ## Operands by their texts -/

/-- An `Operand` that may stand in code: variables have names (`IsName`), and reals are sizes. -/
def Operand.Spelled : Operand → Prop
  | var x => IsName x.name
  | const (.real value) => value.IsSize
  | _ => True

/-- Whether a text begins like a word. Numbers do not. -/
def BeginsWord (text : String) : Prop := ∃ c ∈ text.toList.head?, isWordStart c

theorem IsName.beginsWord {text : String} (h : IsName text) : BeginsWord text := by
  obtain ⟨hWord, -, -⟩ := h
  generalize hText : text.toList = word at hWord
  obtain ⟨hStart, -⟩ := hWord
  exact ⟨_, by simp [hText], hStart⟩

theorem isDigit_of_mem_nat {n : Nat} {c : Char} (h : c ∈ (toString n).toList) : c.isDigit := by
  rw [Nat.toString_eq_ofList_toDigits, String.toList_ofList] at h
  exact Nat.isDigit_of_mem_toDigits (by decide) (by decide) h

theorem isDigit_of_mem_int {value : Int} {c : Char} (h : c ∈ (toString value).toList) :
    c.isDigit ∨ c = '-' := by
  rw [Int.toString_eq_repr, Int.repr_eq_if] at h
  split at h
  · exact .inl (isDigit_of_mem_nat h)
  · rw [String.toList_append, List.mem_append] at h
    rcases h with h | h
    · exact .inr (by simpa using h)
    · exact .inl (isDigit_of_mem_nat h)

theorem int_not_beginsWord (value : Int) : ¬ BeginsWord (toString value) := by
  rintro ⟨c, hc, hStart⟩
  rcases isDigit_of_mem_int (List.mem_of_mem_head? hc) with hDigit | rfl
  · simp [isWordStart_of_isDigit hDigit] at hStart
  · simp [isWordStart] at hStart

theorem Real64.IsSize.not_beginsWord {r : Real64} (h : r.IsSize) : ¬ BeginsWord r.render := by
  obtain ⟨d, rest, hText, hDigit, -⟩ := r.renderSize_shape
  rintro ⟨c, hc, hStart⟩
  rw [h.render_eq, String.toList_ofList, hText] at hc
  obtain rfl : d = c := by simpa using hc
  simp [isWordStart_of_isDigit hDigit] at hStart

/-- A real is written with a point or a power of ten, an integer is not: so no constants of the two
kinds are alike. -/
theorem Real64.IsSize.render_ne_int {r : Real64} (h : r.IsSize) (value : Int) :
    r.render ≠ toString value := by
  intro hSame
  obtain ⟨d, rest, hText, -, hMark⟩ := r.renderSize_shape
  rw [h.render_eq] at hSame
  have hNone : ∀ c ∈ rest, c.isDigit ∨ c = '-' := fun c hc =>
    isDigit_of_mem_int (by rw [← hSame, String.toList_ofList, hText]; exact .tail _ hc)
  rcases hMark with hMark | hMark
  · have := hNone _ hMark
    simp at this
  · have := hNone _ hMark
    simp at this

theorem temp_beginsWord (n : Nat) : BeginsWord (Operand.temp n).render := by
  refine ⟨'t', ?_, by decide⟩
  simp [Operand.render]

theorem bool_beginsWord (b : Bool) : BeginsWord (Constant.bool b).render := by
  cases b
  · exact ⟨'f', by simp [Constant.render], by decide⟩
  · exact ⟨'t', by simp [Constant.render], by decide⟩

/-- Truth values are written like keywords, so that no name is written like one. -/
theorem exists_keyword (b : Bool) : ∃ k : Keyword, (Constant.bool b).render = k.name := by
  cases b
  · exact ⟨.falseWord, rfl⟩
  · exact ⟨.trueWord, rfl⟩

theorem temp_ne_bool (n : Nat) (b : Bool) : (Operand.temp n).render ≠ (Constant.bool b).render := by
  intro hSame
  have hChars := congrArg String.toList hSame
  cases b
  · simp [Operand.render, Constant.render] at hChars
  · have hDigits : (toString n).toList = ['r', 'u', 'e'] := by
      simpa [Operand.render, Constant.render] using hChars
    have hLetter : 'r'.isDigit := isDigit_of_mem_nat (n := n) (by rw [hDigits]; simp)
    simp at hLetter

theorem temp_injective {m n : Nat} (h : (Operand.temp m).render = (Operand.temp n).render) :
    m = n := Nat.repr_injective ((String.append_right_inj "t").mp h)

/-- Of all constants only the truth values begin like words: `BeginsWord` holds of no numeral. -/
theorem Constant.isBool_of_beginsWord {k : Constant} (hk : (Operand.const k).Spelled)
    (h : BeginsWord k.render) : ∃ b, k = .bool b := by
  cases k with
  | int v => exact absurd h (int_not_beginsWord v)
  | real r => exact absurd h (Real64.IsSize.not_beginsWord hk)
  | bool b => exact ⟨b, rfl⟩

/-- Constants with the same text are the same. -/
theorem Constant.render_injective {k k' : Constant} (hk : (Operand.const k).Spelled)
    (hk' : (Operand.const k').Spelled) (h : k.render = k'.render) : k = k' := by
  by_cases hBool : ∃ b, k' = .bool b
  · obtain ⟨b', rfl⟩ := hBool
    obtain ⟨b, rfl⟩ := isBool_of_beginsWord hk (h ▸ bool_beginsWord b')
    cases b <;> cases b' <;> first | rfl | simp [render] at h
  · cases k with
    | bool b => exact absurd (isBool_of_beginsWord hk' (h ▸ bool_beginsWord b)) hBool
    | int v =>
      cases k' with
      | int v' => rw [show v = v' from Int.repr_inj.mp h]
      | real r => exact absurd h.symm (Real64.IsSize.render_ne_int hk' v)
      | bool b => exact absurd ⟨b, rfl⟩ hBool
    | real r =>
      cases k' with
      | int v => exact absurd h (Real64.IsSize.render_ne_int hk v)
      | real r' => rw [Real64.render_injective hk hk' h]
      | bool b => exact absurd ⟨b, rfl⟩ hBool

/-- A constant is written neither like a name nor like a temporary. -/
theorem Constant.render_ne {k : Constant} (hk : (Operand.const k).Spelled) {o : Operand}
    (ho : o.Spelled) (hOther : ∀ k', o ≠ .const k') : k.render ≠ o.render := by
  have hWord : BeginsWord o.render := by
    cases o with
    | var x => exact IsName.beginsWord ho
    | temp n => exact temp_beginsWord n
    | const k' => exact absurd rfl (hOther k')
  intro hSame
  obtain ⟨b, rfl⟩ := isBool_of_beginsWord hk (hSame ▸ hWord)
  cases o with
  | var x =>
    obtain ⟨word, hKeyword⟩ := exists_keyword b
    exact IsName.keyword ho word (hSame.symm.trans hKeyword)
  | temp n => exact temp_ne_bool n b hSame.symm
  | const k' => exact hOther k' rfl

/-- **Texts of operands.** Operands with the same text are the same, unless a variable has the name
of another variable or the text of a temporary. -/
theorem Operand.render_cases {a b : Operand} (ha : a.Spelled) (hb : b.Spelled)
    (h : a.render = b.render) : a = b ∨ (∃ x y, a = .var x ∧ b = .var y) ∨
      (∃ x n, a = .var x ∧ b = .temp n) ∨ ∃ x n, a = .temp n ∧ b = .var x := by
  cases a with
  | const k =>
    cases b with
    | const k' => exact .inl (by rw [Constant.render_injective ha hb h])
    | _ => exact absurd h (Constant.render_ne ha hb (by simp))
  | var x =>
    cases b with
    | const k => exact absurd h.symm (Constant.render_ne hb ha (by simp))
    | var y => exact .inr (.inl ⟨x, y, rfl, rfl⟩)
    | temp n => exact .inr (.inr (.inl ⟨x, n, rfl, rfl⟩))
  | temp n =>
    cases b with
    | const k => exact absurd h.symm (Constant.render_ne hb ha (by simp))
    | var x => exact .inr (.inr (.inr ⟨x, n, rfl, rfl⟩))
    | temp m => exact .inl (by rw [temp_injective h])

end JumpCode
