import JumpCode.Proofs.Names.Listing

/-!
# JumpCode — code from its listing

A listing is a text of words with blanks between them, on lines, with labels in front of what they
mark. No operand has a blank, a bracket or a sign of equality in its text, so that the words of an
instruction tell its form; and if moreover operands with the same text are the same, a listing
belongs to one piece of code only.

* `Instruction.render_eq_words` — an instruction is written as its words, with blanks between;
* `Instruction.render_injective` — the words tell the instruction;
* `listing_injective` — the lines tell the code;
* `listing_determines_code` — code that programs are compiled to, of which the names are clear.
-/

namespace JumpCode

/-! ## Characters of operands -/

/-- A character of a number or a word: one that `isWordPart`, a point or a minus sign. -/
def IsTextual (c : Char) : Prop := isWordPart c ∨ c = '.' ∨ c = '-'

theorem isTextual_of_isDigit {c : Char} (h : c.isDigit) : IsTextual c :=
  .inl (isWordPart_of_isDigit h)

theorem isTextual_of_int {value : Int} {c : Char} (h : c ∈ (toString value).toList) :
    IsTextual c := by
  rcases isDigit_of_mem_int h with hDigit | rfl
  · exact isTextual_of_isDigit hDigit
  · exact .inr (.inr rfl)

namespace Real64

theorem isTextual_of_positional {digits : List Char} (h : ∀ c ∈ digits, c.isDigit) (power : ℤ) :
    ∀ c ∈ positional digits power, IsTextual c := by
  have hZero : IsTextual '0' := isTextual_of_isDigit rfl
  have hPoint : IsTextual '.' := .inr (.inl rfl)
  have hDigits : ∀ c ∈ digits, IsTextual c := fun c hc => isTextual_of_isDigit (h c hc)
  intro c hc
  unfold positional at hc
  split at hc
  · simp only [List.cons_append, List.nil_append, List.mem_cons, List.mem_append,
      List.mem_replicate] at hc
    rcases hc with rfl | rfl | ⟨-, rfl⟩ | hc
    · exact hZero
    · exact hPoint
    · exact hZero
    · exact hDigits c hc
  · simp only [List.mem_append, List.mem_replicate, List.mem_singleton] at hc
    rcases hc with ((hc | ⟨-, rfl⟩) | rfl) | hc
    · exact hDigits c (List.mem_of_mem_take hc)
    · exact hZero
    · exact hPoint
    · split at hc
      · obtain rfl := List.mem_singleton.mp hc
        exact hZero
      · exact hDigits c (List.mem_of_mem_drop hc)

theorem isTextual_of_scientific {digits : List Char} (h : ∀ c ∈ digits, c.isDigit) (power : ℤ) :
    ∀ c ∈ scientific digits power, IsTextual c := by
  have hDigits : ∀ c ∈ digits, IsTextual c := fun c hc => isTextual_of_isDigit (h c hc)
  intro c hc
  unfold scientific at hc
  simp only [List.mem_append, List.mem_cons] at hc
  rcases hc with (hc | hc) | rfl | hc
  · exact hDigits c (List.mem_of_mem_take hc)
  · split at hc
    · cases hc
    · rcases List.mem_cons.mp hc with rfl | hc
      · exact .inr (.inl rfl)
      · exact hDigits c (List.mem_of_mem_drop hc)
  · exact .inl (by decide)
  · exact isTextual_of_int hc

theorem isTextual_of_renderSize (r : Real64) : ∀ c ∈ r.renderSize, IsTextual c := by
  have hDigits := fun c => isDigit_of_mem_significantDigits (d := r.shortest) (c := c)
  unfold renderSize
  split
  · intro c hc
    simp only [List.mem_cons, List.not_mem_nil, or_false] at hc
    rcases hc with rfl | rfl | rfl
    · exact isTextual_of_isDigit rfl
    · exact .inr (.inl rfl)
    · exact isTextual_of_isDigit rfl
  · dsimp only
    split
    · exact isTextual_of_positional hDigits _
    · exact isTextual_of_scientific hDigits _

end Real64

/-- A text with no blank, bracket or sign of equality in it: all its characters are `IsTextual`. -/
def Textual (text : String) : Prop := ∀ c ∈ text.toList, IsTextual c

theorem textual_numbered {mark : String} (hMark : ∀ c ∈ mark.toList, isWordPart c) (n : Nat) :
    Textual (mark ++ toString n) := by
  intro c hc
  rw [String.toList_append, List.mem_append] at hc
  rcases hc with hc | hc
  · exact .inl (hMark c hc)
  · exact isTextual_of_isDigit (isDigit_of_mem_nat hc)

theorem textual_bool (b : Bool) : Textual (Constant.bool b).render := by
  have hWord : ∀ c ∈ (Constant.bool b).render.toList, isWordPart c := by
    cases b <;> simp [Constant.render, isWordPart]
  exact fun c hc => .inl (hWord c hc)

theorem Operand.Spelled.textual {o : Operand} (h : o.Spelled) : Textual o.render := by
  cases o with
  | var x => exact fun c hc => .inl (IsWord.isWordPart (IsName.word h) c hc)
  | temp n => exact textual_numbered (by simp [isWordPart]) n
  | const k =>
    cases k with
    | int value => exact fun c hc => isTextual_of_int hc
    | real r =>
      intro c hc
      rw [render, Constant.render, Real64.IsSize.render_eq h, String.toList_ofList] at hc
      exact r.isTextual_of_renderSize c hc
    | bool b => exact textual_bool b

theorem Label.textual (l : Label) : Textual l.render :=
  textual_numbered (by simp [isWordPart]) l.number

theorem Textual.not_mem {text : String} (h : Textual text) {c : Char} (hc : ¬ IsTextual c) :
    c ∉ text.toList := fun hMem => hc (h c hMem)

theorem Textual.ne {text mark : String} (h : Textual text) {c : Char} (hMark : c ∈ mark.toList)
    (hc : ¬ IsTextual c) : text ≠ mark := fun hSame => hc (h c (hSame ▸ hMark))

/-! ## Instructions by their words -/

/-- The words that an `Rvalue` is written in. -/
@[simp] def Rvalue.words : Rvalue → List String
  | use operand => [operand.render]
  | binary op lhs rhs => [lhs.render, op.text, rhs.render]
  | negate operand => ["minus", operand.render]
  | index array offset => [array.name, "[", offset.render, "]"]

/-- The words that a `Test` is written in. -/
@[simp] def Test.words : Test → List String
  | compare op lhs rhs => [lhs.render, op.text, rhs.render]
  | truth operand => [operand.render]

/-- The words that an `Instruction` is written in. The brackets of an element are words too. -/
@[simp] def Instruction.words : Instruction → List String
  | label l => [l.render ++ ":"]
  | jump target => ["goto", target.render]
  | branch test polarity target =>
    (if polarity then "if" else "iffalse") :: (test.words ++ ["goto", target.render])
  | assign target value => target.render :: "=" :: value.words
  | store array offset value => [array.name, "[", offset.render, "]", "=", value.render]

/-- **An instruction is its words**, with blanks between them: `Instruction.render` comes to this
for each form. -/
theorem Instruction.render_eq_words (i : Instruction) : i.render = " ".intercalate i.words := by
  have hJoin (a b : String) (rest : List String) :
      " ".intercalate (a :: b :: rest) = a ++ (" " ++ " ".intercalate (b :: rest)) := by
    rw [String.intercalate_cons_of_ne_nil (by simp), String.append_assoc]
  rw [← String.toList_inj]
  cases i with
  | label l => simp [render]
  | jump target => simp [render, hJoin]
  | branch test polarity target =>
    cases test <;> cases polarity <;> simp [render, Test.render, hJoin]
  | assign target value => cases value <;> simp [render, Rvalue.render, hJoin]
  | store array offset value => simp [render, hJoin]

/-- A word of a line: it has no blank, and no line ends in it. -/
def Plain (word : String) : Prop := ' ' ∉ word.toList ∧ '\n' ∉ word.toList

theorem Textual.plain {text : String} (h : Textual text) : Plain text :=
  ⟨h.not_mem (by simp [IsTextual, isWordPart]), h.not_mem (by simp [IsTextual, isWordPart])⟩

theorem ArithOp.plain (op : ArithOp) : Plain op.text := by cases op <;> simp [Plain, text]

theorem RelOp.plain (op : RelOp) : Plain op.text := by cases op <;> simp [Plain, text]

theorem Rvalue.plain {v : Rvalue} (h : ∀ o ∈ v.mentions, o.Spelled) : ∀ w ∈ v.words, Plain w := by
  have hPlain (o : Operand) (ho : o.Spelled) : Plain o.render := ho.textual.plain
  cases v with
  | use o => simp_all
  | binary op lhs rhs => simp_all [op.plain]
  | negate o => simp_all [show Plain "minus" by simp [Plain]]
  | index array offset =>
    have hName : Plain array.name := hPlain (.var array) (h _ (by simp))
    simp_all [show Plain "[" by simp [Plain], show Plain "]" by simp [Plain]]

theorem Test.plain {t : Test} (h : ∀ o ∈ t.mentions, o.Spelled) : ∀ w ∈ t.words, Plain w := by
  have hPlain (o : Operand) (ho : o.Spelled) : Plain o.render := ho.textual.plain
  cases t with
  | compare op lhs rhs => simp_all [op.plain]
  | truth o => simp_all

/-- No word of an instruction has a blank or ends a line: each is `Plain`, if the operands are
`Operand.Spelled`. -/
theorem Instruction.plain {i : Instruction} (h : ∀ o ∈ i.mentions, o.Spelled) :
    ∀ w ∈ i.words, Plain w := by
  have hPlain (o : Operand) (ho : o.Spelled) : Plain o.render := ho.textual.plain
  have hGoto (l : Label) : ∀ w ∈ ["goto", l.render], Plain w := by
    simp [l.textual.plain, show Plain "goto" by simp [Plain]]
  cases i with
  | label l =>
    have hName := l.textual.plain
    simp_all [Plain]
  | jump target => exact hGoto target
  | branch test polarity target =>
    have hWord : Plain (if polarity then "if" else "iffalse") := by
      cases polarity <;> simp [Plain]
    exact List.forall_mem_cons.mpr
      ⟨hWord, List.forall_mem_append.mpr ⟨Test.plain h, hGoto target⟩⟩
  | assign target value =>
    obtain ⟨hTarget, hValue⟩ := List.forall_mem_cons.mp h
    exact List.forall_mem_cons.mpr ⟨hPlain _ hTarget,
      List.forall_mem_cons.mpr ⟨by simp [Plain], Rvalue.plain hValue⟩⟩
  | store array offset value =>
    have hName : Plain array.name := hPlain (.var array) (h _ (by simp))
    simp_all [show Plain "[" by simp [Plain], show Plain "]" by simp [Plain],
      show Plain "=" by simp [Plain]]

/-- Instructions are written with no blanks but those between words, so that the text tells the
words: `Instruction.words` can be told from `Instruction.render`. -/
theorem Instruction.words_of_render {i i' : Instruction} (h : ∀ o ∈ i.mentions, o.Spelled)
    (h' : ∀ o ∈ i'.mentions, o.Spelled) (hSame : i.render = i'.render) : i.words = i'.words := by
  have hSplit {i : Instruction} (h : ∀ o ∈ i.mentions, o.Spelled) :
      i.render.toList.splitOn ' ' = i.words.map String.toList := by
    rw [render_eq_words, String.toList_intercalate]
    refine List.splitOn_intercalate ' ' ?_ ?_
    · simpa using fun w hw => (i.plain h w hw).1
    · cases i <;> simp
  have hWords : i.words.map String.toList = i'.words.map String.toList := by
    rw [← hSplit h, ← hSplit h', hSame]
  exact (List.map_inj_right fun _ _ => String.toList_inj.mp).mp hWords

/-! ## The form of an instruction -/

/-- The five forms of instructions, which their words tell apart. -/
inductive Form
  | label
  | jump
  | branch
  | assign
  | store
deriving DecidableEq

/-- The form of an instruction. -/
def Instruction.form : Instruction → Form
  | label _ => .label
  | jump _ => .jump
  | branch _ _ _ => .branch
  | assign _ _ => .assign
  | store _ _ _ => .store

/-- The form of an `Instruction` that is written in these words. -/
def Form.ofWords (words : List String) : Form :=
  if words.length = 1 then label
  else if words.length = 2 then jump
  else if words[1]? = some "=" then assign
  else if words[1]? = some "[" then store
  else branch

/-- **The words of an instruction tell its form**: the second one is a mark in assignments, and the
text of an operand in conditional jumps. What the first one is tells nothing, since a variable may
be named like a word of the listing. -/
theorem Instruction.form_words {i : Instruction} (h : ∀ o ∈ i.mentions, o.Spelled) :
    Form.ofWords i.words = i.form := by
  cases i with
  | branch test polarity target =>
    have hMark (o : Operand) (ho : o.Spelled) : o.render ≠ "=" ∧ o.render ≠ "[" :=
      ⟨ho.textual.ne (c := '=') (by simp) (by simp [IsTextual, isWordPart]),
        ho.textual.ne (c := '[') (by simp) (by simp [IsTextual, isWordPart])⟩
    cases test <;> simp_all [Form.ofWords, form]
  | assign target value => cases value <;> simp [Form.ofWords, form]
  | _ => simp [Form.ofWords, form]

/-! ## Instructions from their words -/

/-- Operands that are told apart by their texts: those of which `P` holds are `Operand.Spelled`, and
no two of them have the same text. -/
structure Legible (P : Operand → Prop) : Prop where
  spelled {o : Operand} : P o → o.Spelled
  distinct {o o' : Operand} : P o → P o' → o.render = o'.render → o = o'

theorem ArithOp.text_injective {op op' : ArithOp} (h : op.text = op'.text) : op = op' := by
  cases op <;> cases op' <;> first | rfl | simp [text] at h

theorem RelOp.text_injective {op op' : RelOp} (h : op.text = op'.text) : op = op' := by
  cases op <;> cases op' <;> first | rfl | simp [text] at h

theorem Label.render_injective {l l' : Label} (h : l.render = l'.render) : l = l' := by
  have hNumber : l.number = l'.number := Nat.repr_injective ((String.append_right_inj "L").mp h)
  cases l
  cases l'
  simpa using hNumber

section Legible

variable {P : Operand → Prop} (hP : Legible P)

include hP

/-- Arrays are told apart by their names. -/
theorem Legible.array {x x' : Symbol} (h : P (.var x)) (h' : P (.var x'))
    (hSame : x.name = x'.name) :
    x = x' := Operand.var.inj (hP.distinct h h' hSame)

theorem Rvalue.words_injective {v v' : Rvalue} (h : ∀ o ∈ v.mentions, P o)
    (h' : ∀ o ∈ v'.mentions, P o) (hSame : v.words = v'.words) : v = v' := by
  -- the forms have different numbers of words
  cases v with
  | use o =>
    cases v' with
    | use o' => simp_all [@Legible.distinct _ hP o o']
    | _ => simp at hSame
  | binary op lhs rhs =>
    cases v' with
    | binary op' lhs' rhs' =>
      obtain ⟨hLhs, hOp, hRhs⟩ : lhs.render = lhs'.render ∧ op.text = op'.text ∧
        rhs.render = rhs'.render := by simpa using hSame
      obtain rfl := hP.distinct (h lhs (by simp)) (h' lhs' (by simp)) hLhs
      obtain rfl := hP.distinct (h rhs (by simp)) (h' rhs' (by simp)) hRhs
      rw [ArithOp.text_injective hOp]
    | _ => simp at hSame
  | negate o =>
    cases v' with
    | negate o' => simp_all [@Legible.distinct _ hP o o']
    | _ => simp at hSame
  | index array offset =>
    cases v' with
    | index array' offset' =>
      obtain ⟨hArray, hOffset⟩ : array.name = array'.name ∧ offset.render = offset'.render := by
        simpa using hSame
      obtain rfl := hP.array (h (.var array) (by simp)) (h' (.var array') (by simp)) hArray
      rw [hP.distinct (h offset (by simp)) (h' offset' (by simp)) hOffset]
    | _ => simp at hSame

theorem Test.words_injective {t t' : Test} (h : ∀ o ∈ t.mentions, P o)
    (h' : ∀ o ∈ t'.mentions, P o) (hSame : t.words = t'.words) : t = t' := by
  cases t with
  | compare op lhs rhs =>
    cases t' with
    | compare op' lhs' rhs' =>
      obtain ⟨hLhs, hOp, hRhs⟩ : lhs.render = lhs'.render ∧ op.text = op'.text ∧
        rhs.render = rhs'.render := by simpa using hSame
      obtain rfl := hP.distinct (h lhs (by simp)) (h' lhs' (by simp)) hLhs
      obtain rfl := hP.distinct (h rhs (by simp)) (h' rhs' (by simp)) hRhs
      rw [RelOp.text_injective hOp]
    | truth o => simp at hSame
  | truth o =>
    cases t' with
    | compare op lhs rhs => simp at hSame
    | truth o' => simp_all [@Legible.distinct _ hP o o']

/-- **The words tell the instruction**: `Instruction.form_words` gives the form, and within one form
each word tells its part. -/
theorem Instruction.words_injective {i i' : Instruction} (h : ∀ o ∈ i.mentions, P o)
    (h' : ∀ o ∈ i'.mentions, P o) (hSame : i.words = i'.words) : i = i' := by
  have hForm : i.form = i'.form := by
    rw [← form_words fun o ho => hP.spelled (h o ho), hSame,
      form_words fun o ho => hP.spelled (h' o ho)]
  -- the words tell the form, so that both are made alike and it is the parts that are compared
  cases i with
  | label l =>
    cases i' with
    | label l' =>
      have hText : l.render ++ ":" = l'.render ++ ":" := by simpa using hSame
      rw [Label.render_injective ((String.append_left_inj ":").mp hText)]
    | _ => cases hForm
  | jump target =>
    cases i' with
    | jump target' =>
      obtain rfl : target = target' := Label.render_injective (by simpa using hSame)
      rfl
    | _ => cases hForm
  | branch test polarity target =>
    cases i' with
    | branch test' polarity' target' =>
      -- the first word tells the polarity, the last one the target, and the test stands between
      -- them
      obtain ⟨hWord, hRest⟩ := List.cons.inj hSame
      obtain ⟨hTest, hGoto⟩ := List.append_inj' hRest rfl
      have hPolarity : polarity = polarity' := by cases polarity <;> cases polarity' <;> simp_all
      obtain rfl : target = target' := Label.render_injective (by simpa using hGoto)
      rw [Test.words_injective hP h h' hTest, hPolarity]
    | _ => cases hForm
  | assign target value =>
    cases i' with
    | assign target' value' =>
      obtain ⟨hTarget, hWords⟩ : target.render = target'.render ∧ value.words = value'.words := by
        simpa using hSame
      obtain ⟨hHead, hTail⟩ := List.forall_mem_cons.mp h
      obtain ⟨hHead', hTail'⟩ := List.forall_mem_cons.mp h'
      rw [hP.distinct hHead hHead' hTarget, Rvalue.words_injective hP hTail hTail' hWords]
    | _ => cases hForm
  | store array offset value =>
    cases i' with
    | store array' offset' value' =>
      obtain ⟨hArray, hOffset, hValue⟩ : array.name = array'.name ∧
        offset.render = offset'.render ∧ value.render = value'.render := by simpa using hSame
      obtain rfl := hP.array (h (.var array) (by simp)) (h' (.var array') (by simp)) hArray
      rw [hP.distinct (h offset (by simp)) (h' offset' (by simp)) hOffset,
        hP.distinct (h value (by simp)) (h' value' (by simp)) hValue]
    | _ => cases hForm

/-- **The text of an instruction tells the instruction.** -/
theorem Instruction.render_injective {i i' : Instruction} (h : ∀ o ∈ i.mentions, P o)
    (h' : ∀ o ∈ i'.mentions, P o) (hSame : i.render = i'.render) : i = i' :=
  words_injective hP h h' (words_of_render (fun o ho => hP.spelled (h o ho))
    (fun o ho => hP.spelled (h' o ho)) hSame)

end Legible

/-! ## Code from its lines -/

/-- The line of an `Instruction` that is no label: a tab, its text, and the end of the line. -/
theorem Instruction.listed_of_form {i : Instruction} (h : i.form ≠ .label) :
    i.listed.toList = '\t' :: (i.render.toList ++ ['\n']) := by
  cases i with
  | label l => exact absurd rfl h
  | _ => simp [listed]

theorem not_mem_intercalate {c : Char} {sep : List Char} {words : List (List Char)}
    (hSep : c ∉ sep) (h : ∀ w ∈ words, c ∉ w) : c ∉ sep.intercalate words := by
  induction words with
  | nil => simp
  | cons w rest ih =>
    obtain ⟨hFirst, hRest⟩ := List.forall_mem_cons.mp h
    cases rest with
    | nil => simpa using hFirst
    | cons w' rest =>
      rw [List.intercalate_cons_cons]
      simp [hFirst, hSep, ih hRest]

/-- An instruction ends no line but its own, since its words are `Plain`. -/
theorem Instruction.newline_not_mem {i : Instruction} (h : ∀ o ∈ i.mentions, o.Spelled) :
    '\n' ∉ i.render.toList := by
  rw [render_eq_words, String.toList_intercalate]
  refine not_mem_intercalate (by simp) ?_
  simpa using fun w hw => (i.plain h w hw).2

theorem Label.colon_not_mem (l : Label) : ':' ∉ l.render.toList :=
  l.textual.not_mem (by simp [IsTextual, isWordPart])

/-- **An instruction in a listing ends where the next one begins**: a label with the colon, and any
other instruction with the line. So what follows is the same too. -/
theorem Instruction.listed_unique {P : Operand → Prop} (hP : Legible P) {i i' : Instruction}
    (h : ∀ o ∈ i.mentions, P o) (h' : ∀ o ∈ i'.mentions, P o) {rest rest' : List Char}
    (hSame : i.listed.toList ++ rest = i'.listed.toList ++ rest') : i = i' ∧ rest = rest' := by
  have hLabel (l : Label) (rest : List Char) : (label l).listed.toList ++ rest =
      'L' :: ((toString l.number).toList ++ ':' :: rest) := by simp [listed, Label.render]
  -- a label ends with a colon in the first column; all other forms are indented and end with a
  -- newline
  by_cases hForm : i.form = .label
  · obtain ⟨l, rfl⟩ : ∃ l, i = .label l := by cases i <;> simp_all [form]
    by_cases hForm' : i'.form = .label
    · obtain ⟨l', rfl⟩ : ∃ l', i' = .label l' := by cases i' <;> simp_all [form]
      have hText (l : Label) (rest : List Char) : (label l).listed.toList ++ rest =
          l.render.toList ++ ':' :: rest := by simp [listed]
      rw [hText, hText] at hSame
      obtain ⟨hName, hRest⟩ := Real64.split_at_unique l.colon_not_mem l'.colon_not_mem hSame
      exact ⟨by rw [Label.render_injective (String.toList_inj.mp hName)], hRest⟩
    · rw [hLabel, listed_of_form hForm'] at hSame
      simp at hSame
  · by_cases hForm' : i'.form = .label
    · obtain ⟨l', rfl⟩ : ∃ l', i' = .label l' := by cases i' <;> simp_all [form]
      rw [hLabel, listed_of_form hForm] at hSame
      simp at hSame
    · rw [listed_of_form hForm, listed_of_form hForm'] at hSame
      obtain ⟨hText, hRest⟩ := Real64.split_at_unique
        (newline_not_mem fun o ho => hP.spelled (h o ho))
        (newline_not_mem fun o ho => hP.spelled (h' o ho))
        (by simpa using hSame : i.render.toList ++ '\n' :: rest = i'.render.toList ++ '\n' :: rest')
      exact ⟨render_injective hP h h' (String.toList_inj.mp hText), hRest⟩

theorem Instruction.listed_ne_nil (i : Instruction) : i.listed.toList ≠ [] := by
  cases i <;> simp [listed, Label.render]

/-- **The lines tell the code.** The induction is on the code, with one instruction at a time by
`Instruction.listed_unique`. -/
theorem listing_injective {P : Operand → Prop} (hP : Legible P) {code code' : List Instruction}
    (h : Mentions P code) (h' : Mentions P code') (hSame : listing code = listing code') :
    code = code' := by
  have hLines : code.flatMap (·.listed.toList) = code'.flatMap (·.listed.toList) := by
    have hBoth := congrArg String.toList ((String.append_left_inj "\n").mp hSame)
    simpa [String.toList_join, List.flatMap_map] using hBoth
  clear hSame
  induction code generalizing code' with
  | nil =>
    cases code' with
    | nil => rfl
    | cons i' rest' => simp [i'.listed_ne_nil] at hLines
  | cons i rest ih =>
    cases code' with
    | nil => simp [i.listed_ne_nil] at hLines
    | cons i' rest' =>
      rw [mentions_cons] at h h'
      obtain ⟨rfl, hRest⟩ := Instruction.listed_unique hP h.1 h'.1 (by simpa using hLines)
      rw [ih h.2 h'.2 hRest]

/-! ## Code of programs -/

/-- Code that emissions of programs add up to which have been read, from any bound exits and any
supplies. All that a `Source` puts into an `Emitter` is such code. -/
inductive Generated : List Instruction → Prop
  | nil : Generated []
  | emit {code : List Instruction} {s : Source} {p : Program} (hBefore : Generated code)
      (hRead : s.read.outcome = .ok p) (exits : Exits) (supply : Supply) :
      Generated (p.emitWith exits ⟨supply, code⟩).2.code

/-- The code of a program that has been read mentions operands only as they are spelled:
`Operand.Spelled` holds of them. -/
theorem Program.spelled_of_read {s : Source} {p : Program} (hRead : s.read.outcome = .ok p)
    (exits : Exits) (supply : Supply) :
    Mentions Operand.Spelled ((p.emit.emission exits).run supply).code := by
  obtain ⟨exits', s', code, hEmits, hCode⟩ := p.emits_of_read hRead exits supply
  obtain ⟨-, d, hTokens, -, t, hMeans, -⟩ := exists_derivation hRead
  obtain ⟨blocks, hAccounts⟩ := hMeans.accounts
  have hDeclared : ∀ x, (∃ b ∈ blocks, x ∈ b) ∨ Scope.empty.Has x → ∃ b ∈ blocks, x ∈ b := by
    rintro x (h | ⟨frame, hFrame, hx⟩)
    · exact h
    · simp_all [Scope.frames, Scope.empty]
  unfold Emits at hEmits
  rw [hEmits]
  exact hCode.mentions ⟨fun _ => trivial, fun _ => trivial, fun o ho =>
    hAccounts.spelled hTokens ((hAccounts.sourced o ho).mono hDeclared (List.Subset.refl _))⟩

theorem Generated.spelled {code : List Instruction} (h : Generated code) :
    Mentions Operand.Spelled code := by
  induction h with
  | nil => exact mentions_nil
  | emit _ hRead exits supply ih =>
    rw [Program.emitWith, Emitter.code_run]
    exact mentions_append.mpr ⟨ih, Program.spelled_of_read hRead exits supply⟩

theorem Generated.emitTimes {s : Source} {p : Program} (hRead : s.read.outcome = .ok p)
    {times : Nat} {exits exits' : Exits} {e e' : Emitter} (h : Generated e.code)
    (hTimes : p.emitTimes times exits e = .ok (exits', e')) : Generated e'.code := by
  induction times generalizing exits e with
  | zero =>
    obtain ⟨-, rfl⟩ := Prod.mk.inj (Except.ok.inj hTimes)
    exact h
  | succ times ih =>
    have hNext : Generated (p.emitWith exits e).2.code := .emit h hRead exits e.supply
    rw [Program.emitTimes] at hTimes
    split at hTimes
    · next hEmit =>
      rw [hEmit] at hNext
      exact ih hNext hTimes
    · simp at hTimes

/-- Sources only ever add such code to an emitter, however often `Source.emitInto` does so. -/
theorem Generated.emitInto {s : Source} {times : Nat} {e e' : Emitter} (h : Generated e.code)
    (hInto : s.emitInto times e = .ok e') : Generated e'.code := by
  unfold Source.emitInto at hInto
  split at hInto
  · simp at hInto
  · next p hRead =>
    split at hInto
    · next exits e'' hTimes =>
      obtain rfl := Except.ok.inj hInto
      exact h.emitTimes hRead hTimes
    · simp at hInto

/-- **The listing determines the code.** Take code of programs that have been read, such that, over
both pieces together, variables and arrays of one name are the same and none is named like a
temporary. If the listings are the same, then so is the code. -/
theorem listing_determines_code {code code' : List Instruction} (h : Generated code)
    (h' : Generated code')
    (hSymbols : ∀ x y, Mentioned (code ++ code') (.var x) → Mentioned (code ++ code') (.var y) →
      x.name = y.name → x = y)
    (hNames : ∀ (x : Symbol) (n : Nat), Mentioned (code ++ code') (.var x) →
      x.name ≠ "t" ++ toString n)
    (hSame : listing code = listing code') : code = code' := by
  have hSpelled : Mentions Operand.Spelled (code ++ code') :=
    mentions_append.mpr ⟨h.spelled, h'.spelled⟩
  have hLegible : Legible (Mentioned (code ++ code')) := by
    refine ⟨fun ⟨i, hi, ho⟩ => hSpelled i hi _ ho, fun {o o'} ho ho' hText => ?_⟩
    obtain ⟨i, hi, hMem⟩ := ho
    obtain ⟨i', hi', hMem'⟩ := ho'
    -- operands of one text are the same, two variables, or a variable and a temporary
    rcases Operand.render_cases (hSpelled i hi _ hMem) (hSpelled i' hi' _ hMem') hText with
      rfl | ⟨x, y, rfl, rfl⟩ | ⟨x, n, rfl, rfl⟩ | ⟨x, n, rfl, rfl⟩
    · rfl
    · rw [hSymbols x y ⟨i, hi, hMem⟩ ⟨i', hi', hMem'⟩ hText]
    · exact absurd hText (hNames x n ⟨i, hi, hMem⟩)
    · exact absurd hText.symm (hNames x n ⟨i', hi', hMem'⟩)
  refine listing_injective hLegible ?_ ?_ hSame
  · exact fun i hi o ho => ⟨i, List.mem_append_left _ hi, ho⟩
  · exact fun i hi o ho => ⟨i, List.mem_append_right _ hi, ho⟩

/-- A source with names that are words of a listing as well. -/
def wordySource : Source :=
  ⟨"words", [some "\x7b int goto; bool iffalse; float minus; float[2] L1;",
    some "while (iffalse) \x7b minus = -minus; if (goto < 2) break; \x7d L1[1] = minus; \x7d"]⟩

/-- The same program with other line breaks, and with empty statements. -/
def looseSource : Source :=
  ⟨"loose", [some "\x7b int goto; bool iffalse; float minus; float L1[2]; ; while (iffalse)",
    some "\x7b ; minus = - minus; \x7b if (goto<2) \x7b break; \x7d \x7d \x7d",
    some "L1[1] = minus; ; \x7d"]⟩

/-- Whether variables among some operands are told apart by their names, none of which begins like
the text of a temporary: a test for what `listing_determines_code` asks. -/
def clearlyNamed (operands : List Operand) : Bool :=
  operands.all fun
    | .var x => x.name.toList.head? != some 't' && operands.all fun
      | .var y => x.name != y.name || x == y
      | _ => true
    | _ => true

theorem of_clearlyNamed {code : List Instruction}
    (h : clearlyNamed (code.flatMap (·.mentions)) = true) :
    (∀ x y, Mentioned code (.var x) → Mentioned code (.var y) → x.name = y.name → x = y) ∧
    ∀ (x : Symbol) (n : Nat), Mentioned code (.var x) → x.name ≠ "t" ++ toString n := by
  rw [clearlyNamed, List.all_eq_true] at h
  have hVar (x : Symbol) (hx : Mentioned code (.var x)) := h (.var x) (List.mem_flatMap.mpr hx)
  simp only [Bool.and_eq_true, List.all_eq_true] at hVar
  refine ⟨fun x y hx hy hName => ?_, fun x n hx hName => ?_⟩
  · have hBoth := (hVar x hx).2 (.var y) (List.mem_flatMap.mpr hy)
    simpa [hName] using hBoth
  · have hFirst := (hVar x hx).1
    simp [hName] at hFirst

theorem exists_wordy : ∃ p p', wordySource.read.outcome = .ok p ∧
    looseSource.read.outcome = .ok p' ∧
    listing (p.emitWith [] .fresh).2.code = listing (p'.emitWith [] .fresh).2.code ∧
    clearlyNamed (((p.emitWith [] .fresh).2.code ++ (p'.emitWith [] .fresh).2.code).flatMap
      (·.mentions)) = true := by
  have hPasses : wordySource.read.passes fun p => looseSource.read.passes fun p' =>
      let code := (p.emitWith [] .fresh).2.code
      let code' := (p'.emitWith [] .fresh).2.code
      decide (listing code = listing code') &&
        clearlyNamed ((code ++ code').flatMap (·.mentions)) := by decide +kernel
  obtain ⟨p, hRead, hPasses⟩ := Reading.exists_of_passes hPasses
  obtain ⟨p', hRead', hPasses⟩ := Reading.exists_of_passes hPasses
  rw [Bool.and_eq_true, decide_eq_true_iff] at hPasses
  exact ⟨p, p', hRead, hRead', hPasses⟩

/-- The two sources are compiled to one piece of code, and so they are for their listings being the
same. -/
theorem listing_determines_code_sample : ∃ p p', wordySource.read.outcome = .ok p ∧
    looseSource.read.outcome = .ok p' ∧
    listing (p.emitWith [] .fresh).2.code = listing (p'.emitWith [] .fresh).2.code ∧
    (p.emitWith [] .fresh).2.code = (p'.emitWith [] .fresh).2.code := by
  obtain ⟨p, p', hRead, hRead', hSame, hNamed⟩ := exists_wordy
  obtain ⟨hSymbols, hNames⟩ := of_clearlyNamed hNamed
  exact ⟨p, p', hRead, hRead', hSame,
    listing_determines_code (.emit .nil hRead [] .fresh) (.emit .nil hRead' [] .fresh) hSymbols
      hNames hSame⟩

end JumpCode
