import JumpCode.Proofs.Padding
import JumpCode.Proofs.Respacing

/-!
# JumpCode — padded texts

Padding goes into the text of a program as it goes into the derivation: each `;` and each brace is a
token of its own, whatever it is put in front of or behind, and takes nothing from its neighbours.
So every way to pad an accepted program is a way to write it, and all that comes of it is the same.

* `Lexes.pad` — the text with the characters of the padding inserted;
* `padding_changes_nothing` — the program, its code and its listing with any padding.
-/

namespace JumpCode

open Text

/-! ## The characters of the padding -/

/-- The characters that padding consists of: `;` and the two braces. -/
inductive IsPad : Char → Prop
  | semicolon : IsPad ';'
  | openCurly : IsPad '\x7b'
  | closeCurly : IsPad '\x7d'

/-- What comes next in a text is padding (`IsPad`), or it is what comes next in another text. -/
def PaddedLike (rest rest' : List Char) : Prop :=
  ∀ c ∈ rest'.head?, IsPad c ∨ rest.head? = some c

/-- A token of the padding is written with one such character, as a `Mark`. -/
theorem Token.Pads.exists_char {t : Token} (h : t.Pads) :
    ∃ (m : Mark) (c : Char), t = .mark m ∧ m.text.toList = [c] ∧ IsPad c := by
  cases h with
  | semicolon => exact ⟨.semicolon, ';', rfl, rfl, .semicolon⟩
  | openCurly => exact ⟨.openCurly, '\x7b', rfl, rfl, .openCurly⟩
  | closeCurly => exact ⟨.closeCurly, '\x7d', rfl, rfl, .closeCurly⟩

theorem IsPad.ofPair?_right {c : Char} (h : IsPad c) (d : Char) : Mark.ofPair? d c = none := by
  unfold Mark.ofPair?
  cases h <;> split <;> simp_all

theorem IsPad.ofPair?_left {c : Char} (h : IsPad c) (d : Char) : Mark.ofPair? c d = none := by
  unfold Mark.ofPair?
  cases h <;> split <;> simp_all

/-- In front of padding every lexeme is the `Longest`, since no lexeme goes on with such a
character. -/
theorem Denotes.longest_pad {lexeme : List Char} {t : Token} (h : Denotes lexeme t) {c : Char}
    (hPad : IsPad c) (rest : List Char) : Longest lexeme (c :: rest) := by
  have hWord {word : List Char} (hWord : IsWord word) : Longest word (c :: rest) := by
    refine hWord.longest_iff.mpr fun d hd => ?_
    obtain rfl := Option.some.inj hd
    cases hPad <;> decide
  -- words and numerals go on with letters, digits or a point, marks with the other half of a pair
  cases h with
  | keyword k => exact hWord k.isWord
  | scalar s => exact hWord s.isWord
  | name hName => exact hWord hName
  | integer hDigits hSome =>
    refine (longest_integer_iff hDigits hSome).mpr fun d hd => ?_
    obtain rfl := Option.some.inj hd
    cases hPad <;> decide
  | real hWhole hSome _ hFraction =>
    refine (longest_real_iff hWhole hSome hFraction).mpr fun d hd => ?_
    obtain rfl := Option.some.inj hd
    cases hPad <;> decide
  | mark m =>
    have hLone {d : Char} (hText : m.text.toList = [d]) : Longest m.text.toList (c :: rest) := by
      rw [hText]
      refine (longest_mark_iff hText).mpr fun e he => ?_
      obtain rfl := Option.some.inj he
      exact hPad.ofPair?_right d
    rcases m.text_cases with ⟨d, hText, -⟩ | ⟨d, hText, -⟩ | ⟨d, e, hText, -⟩
    · exact hLone hText
    · exact hLone hText
    · rw [hText]
      exact longest_pair hText _

/-- A lexeme that is the longest stays so in front of padding. -/
theorem Denotes.longest_of_paddedLike {lexeme rest rest' : List Char} {t : Token}
    (h : Denotes lexeme t) (hLongest : Longest lexeme rest) (hLike : PaddedLike rest rest') :
    Longest lexeme rest' := by
  -- whether a lexeme is the longest shows at the next character
  obtain ⟨ends, -, hIff⟩ := h.longest_iff
  rw [hIff] at hLongest ⊢
  intro c hc
  rcases hLike c hc with hPad | hSame
  · exact (hIff [c]).mp (h.longest_pad hPad []) c rfl
  · exact hLongest c hSame

/-- No gap begins with a lexeme because of padding behind it. -/
theorem not_beginsGap_of_paddedLike {lexeme rest rest' : List Char} (hSome : lexeme ≠ [])
    (h : ¬ BeginsGap (lexeme ++ rest)) (hLike : PaddedLike rest rest') :
    ¬ BeginsGap (lexeme ++ rest') := by
  obtain ⟨c, more, rfl⟩ := List.exists_cons_of_ne_nil hSome
  simp only [List.cons_append, BeginsGap, not_or, not_and] at h ⊢
  refine ⟨h.1, fun hSlash hNext => ?_⟩
  cases more with
  | cons d more => exact h.2 hSlash hNext
  | nil =>
    rcases hLike '/' hNext with hPad | hSame
    · cases hPad
    · exact h.2 hSlash hSame

/-! ## Padding a text -/

section

variable {p : Position} {text : List Char}

/-- If what stands behind the first token can be padded, the text can be, and it begins as
before. -/
theorem Lexes.pad_behind {t : Located Token} {tokens : List (Located Token)} {more : List Token}
    (h : Lexes p text (t :: tokens))
    (hRest : ∀ {p rest}, Lexes p rest tokens → ∀ q, ∃ rest' tokens', Inserts IsPad rest rest' ∧
      PaddedLike rest rest' ∧ Lexes q rest' tokens' ∧ tokens'.map (·.value) = more)
    (q : Position) :
    ∃ text' tokens', Inserts IsPad text text' ∧ text'.head? = text.head? ∧ Lexes q text' tokens' ∧
      tokens'.map (·.value) = t.value :: more := by
  generalize hTokens : t :: tokens = all at h
  induction h generalizing q with
  | nil => cases hTokens
  | @blank p c rest _ hBlank _ ih =>
    obtain ⟨rest', tokens', hInserts, -, hLexes, hValues⟩ := ih (q.past c) hTokens
    exact ⟨c :: rest', tokens', .keep c hInserts, rfl, .blank hBlank hLexes, hValues⟩
  | @comment p body rest _ hBody hEnd _ ih =>
    obtain ⟨rest', tokens', hInserts, hHead, hLexes, hValues⟩ := ih (q.through _) hTokens
    -- the comment is still ended by what ended it
    exact ⟨'/' :: '/' :: (body ++ rest'), tokens', .keep _ (.keep _ (.behind body hInserts)), rfl,
      .comment hBody (hHead ▸ hEnd) hLexes, hValues⟩
  | @token p lexeme rest u _ hFull hLongest hDenotes hLexes _ =>
    obtain ⟨rfl, rfl⟩ := List.cons.inj hTokens
    obtain ⟨rest', tokens', hInserts, hLike, hLexes', hValues⟩ := hRest hLexes (q.through lexeme)
    obtain ⟨c, more, rfl⟩ := List.exists_cons_of_ne_nil hDenotes.ne_nil
    exact ⟨c :: more ++ rest', _ :: tokens', .behind _ hInserts, rfl,
      .token (not_beginsGap_of_paddedLike hDenotes.ne_nil hFull hLike)
        (hDenotes.longest_of_paddedLike hLongest hLike) hDenotes hLexes',
      congrArg (_ :: ·) hValues⟩

/-- In front of a text a character of the padding is a token of its own, and the text `Lexes` as
before. -/
theorem Token.Pads.lexes {t : Token} (hPads : t.Pads) (q : Position) :
    ∃ c, IsPad c ∧ ∀ {text tokens}, Lexes (q.through [c]) text tokens →
      Lexes q (c :: text) (⟨t, ⟨q, q.through [c]⟩⟩ :: tokens) := by
  obtain ⟨m, c, rfl, hText, hPad⟩ := hPads.exists_char
  refine ⟨c, hPad, fun {text _} hLexes => ?_⟩
  have hFull : ¬ BeginsGap ([c] ++ text) := by
    cases hPad <;> simp [BeginsGap, isBlank]
  have hLongest : Longest [c] text :=
    (longest_mark_iff hText).mpr fun d _ => hPad.ofPair?_left d
  exact .token hFull hLongest (hText ▸ Denotes.mark m) hLexes

/-- **Padding can be written into a text**, wherever it goes among the tokens: where `Inserts` puts
a token, its character goes into the text. -/
theorem Lexes.pad {tokens : List (Located Token)} {more : List Token} (h : Lexes p text tokens)
    (hPadding : Inserts Token.Pads (tokens.map (·.value)) more) (q : Position) :
    ∃ text' tokens', Inserts IsPad text text' ∧ PaddedLike text text' ∧ Lexes q text' tokens' ∧
      tokens'.map (·.value) = more := by
  generalize hValues : tokens.map (·.value) = values at hPadding
  -- a token that stays is taken from the text with its gap, one that is added goes in front of it
  induction hPadding generalizing p text tokens q with
  | nil =>
    obtain ⟨tokens', hLexes, hSame⟩ := h.relocate q
    exact ⟨text, tokens', .refl text, fun c hc => .inr hc, hLexes, hSame.trans hValues⟩
  | keep t _ ih =>
    obtain ⟨first, others, rfl, rfl, hOthers⟩ := List.map_eq_cons_iff.mp hValues
    obtain ⟨text', tokens', hInserts, hHead, hLexes, hSame⟩ :=
      h.pad_behind (fun hRest q => ih hRest q hOthers) q
    exact ⟨text', tokens', hInserts, fun c hc => .inr (hHead ▸ hc), hLexes, hSame⟩
  | add hPads _ ih =>
    obtain ⟨c, hPad, hAhead⟩ := hPads.lexes q
    obtain ⟨text', tokens', hInserts, -, hLexes, hSame⟩ := ih h (q.through [c]) hValues
    exact ⟨c :: text', _, .add hPad hInserts, fun d hd => .inl (Option.some.inj hd ▸ hPad),
      hAhead hLexes, congrArg (_ :: ·) hSame⟩

end

/-! ## Padded programs -/

/-- **Empty statements and redundant braces change nothing.** Take a program that is accepted, and a
derivation of its tokens in which every `else` belongs to the nearest `if`, as there is one. However
the derivation is padded, the padding can be written into the text; and every source with the tokens
of the padded derivation is accepted as the same program, with the same tree and storage, adds the
same to any emitter and has the same listing. In the tree of a program that is accepted every
sequence has at least two items, none of them empty. -/
theorem padding_changes_nothing (name : String) (bytes : List UInt8) {p : Program}
    (h : (Source.ofBytes name bytes).read.outcome = .ok p) :
    (∃ d : Clause .block, d.tokens = (Source.ofBytes name bytes).scan.tokens.map (·.value) ∧
      d.NearestElse) ∧
    (∀ d d' : Clause .block, d.tokens = (Source.ofBytes name bytes).scan.tokens.map (·.value) →
      d.NearestElse → d.Padded d' →
      (∃ text text', bytes = encode text ∧ Inserts IsPad text text' ∧
        (Source.ofBytes name (encode text')).scan.failure = none ∧
        (Source.ofBytes name (encode text')).scan.tokens.map (·.value) = d'.tokens) ∧
      ∀ s : Source, s.scan.failure = none → s.scan.tokens.map (·.value) = d'.tokens →
        s.read.outcome = .ok p ∧
        (∀ times (e : Emitter), s.emitInto times e = (Source.ofBytes name bytes).emitInto times e) ∧
        ∀ o : Options, (o.respond s).listing = (o.respond (Source.ofBytes name bytes)).listing) ∧
    p.body.Compact := by
  obtain ⟨hFailure, d, hTokens, hNearest, t, hMeans, -⟩ := exists_derivation h
  refine ⟨⟨d, hTokens, hNearest⟩, fun d d' hTokens hNearest hPadded => ⟨?_, fun s hEnd hSame => ?_⟩,
    hMeans.compact⟩
  · obtain ⟨text, rfl⟩ := Source.exists_encode hFailure
    have hLexes := (Source.scan_encode name).mp ⟨rfl, hFailure⟩
    obtain ⟨text', tokens', hInserts, -, hLexes', hValues⟩ :=
      hLexes.pad (hTokens ▸ hPadded.tokens) .first
    obtain ⟨hTokens', hFailure'⟩ := (Source.scan_encode name).mpr hLexes'
    exact ⟨text, text', rfl, hInserts, hFailure', by rw [hTokens', hValues]⟩
  · obtain ⟨t, hMeans, hWidth⟩ := isProgram_of_read h hTokens hNearest
    obtain ⟨_, hMeans', rfl⟩ := hPadded.means (fun _ => rfl) hMeans
    -- the padded derivation is one of the same program
    have hRead : s.read.outcome = .ok p := by
      rw [Source.read, hEnd]
      exact outcome_of_derivation hSame.symm (hPadded.nearestElse hNearest) ⟨t, hMeans', hWidth⟩
    refine ⟨hRead, fun times e => ?_, fun o => ?_⟩
    · rw [Source.emitInto, hRead, Source.emitInto, h]
    · rw [Options.listing_respond, hRead, Options.listing_respond, h]

/-- The condition `true`, as a derivation. -/
def plainTest : Phrase .bool :=
  .pass .bool (.pass .join (.pass .equality (.pass .rel (.pass .expr (.pass .term
    (.pass .unary (.truth true)))))))

/-- A loop that is left at once, and the loop with a `;` in front, with braces around the break and
with a pair of braces behind it. -/
theorem padding_changes_nothing_sample :
    ∃ p, (Source.ofBytes "sample"
        (encode "\x7bwhile(true)break;\x7d".toList)).read.outcome = .ok p ∧
      (Source.ofBytes "sample"
        (encode "\x7b;while(true)\x7bbreak;\x7d \x7b\x7d\x7d".toList)).read.outcome = .ok p := by
  have hPasses : (Source.ofBytes "sample"
      (encode "\x7bwhile(true)break;\x7d".toList)).read.passes fun _ => true := by decide +kernel
  obtain ⟨p, hRead, -⟩ := Reading.exists_of_passes hPasses
  have hPadded : (Clause.braces [] (.cons (.whileLoop plainTest .leave) .nil)).Padded
      (.braces [] (.cons .empty (.cons
        (.whileLoop plainTest (.block (.braces [] (.cons .leave .nil))))
        (.cons (.block (.braces [] .nil)) .nil)))) :=
    .braces (.insertEmpty (.cons (.whileLoop (.enclose (.refl _))) (.insertBraces .nil .nil)))
  have hTokens : (Clause.braces [] (.cons (.whileLoop plainTest .leave) .nil)).tokens =
      (Source.ofBytes "sample" (encode "\x7bwhile(true)break;\x7d".toList)).scan.tokens.map
        (·.value) := by decide +kernel
  have hNearest : (Clause.braces [] (.cons (.whileLoop plainTest .leave) .nil)).NearestElse :=
    ⟨trivial, trivial⟩
  exact ⟨p, hRead, (((padding_changes_nothing _ _ hRead).2.1 _ _ hTokens hNearest hPadded).2 _
    (by decide +kernel) (by decide +kernel)).1⟩

end JumpCode
