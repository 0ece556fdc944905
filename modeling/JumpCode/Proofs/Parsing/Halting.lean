import JumpCode.Proofs.Parsing.Blame
import JumpCode.Proofs.Parsing.Readers

/-!
# JumpCode — where the parser halts

Each parser either reads what it is for, or halts. What it has read until then is the beginning of
what it is for; if it refuses a token, this one comes next, and it is the last one that is read.

* `Takes` — tokens that are read off, with their places;
* `Halt` — the ways in which a parser halts behind the beginning of something;
* `Takes.bind`, `Takes.last`, `Takes.here` — how parsers in a row halt;
* `halts_next`, `halts_expect`, `halts_name`, `halts_check` and so on — the ways to read a token,
  and what is looked up.
-/

namespace JumpCode

open JumpCode.Parser

/-! ## Tokens taken -/

/-- The `Symbol` that an `Event` declares, if it declares one. -/
def Event.symbol? : Event → Option Symbol
  | declared x => some x
  | _ => none

/-- All symbols that have been declared so far, in order: those of the log. -/
def ParserState.symbols (s : ParserState) : List Symbol := s.log.reverse.filterMap Event.symbol?

/-- From one state to the other nothing has been declared, and no storage taken. -/
structure Still (s s' : ParserState) : Prop where
  symbols : s'.symbols = s.symbols
  used : s'.used = s.used

theorem Still.refl (s : ParserState) : Still s s := ⟨rfl, rfl⟩

theorem Still.trans {s s₁ s₂ : ParserState} (h : Still s s₁) (h' : Still s₁ s₂) : Still s s₂ :=
  ⟨h'.symbols.trans h.symbols, h'.used.trans h.used⟩

/-- From one state to the other these tokens have been read off, and nothing else has changed. In
contrast to `Skips` it tells the tokens with their places. -/
structure Takes (s : ParserState) (ts : List Token) (s' : ParserState) : Prop where
  read : ∃ located, s.rest = located ++ s'.rest ∧ located.map (·.value) = ts
  frame : s' = { s with rest := s'.rest, last := s'.last }

namespace Takes

variable {s s₁ s₂ : ParserState} {ts us : List Token}

theorem refl (s : ParserState) : Takes s [] s := ⟨⟨[], rfl, rfl⟩, rfl⟩

theorem trans (h : Takes s ts s₁) (h' : Takes s₁ us s₂) : Takes s (ts ++ us) s₂ := by
  obtain ⟨located, hRest, rfl⟩ := h.read
  obtain ⟨located', hRest', rfl⟩ := h'.read
  refine ⟨⟨located ++ located', ?_, List.map_append⟩, ?_⟩
  · rw [hRest, hRest', List.append_assoc]
  · rw [h'.frame, h.frame]

theorem tokens (h : Takes s ts s₁) : s.tokens = ts ++ s₁.tokens := by
  obtain ⟨located, hRest, rfl⟩ := h.read
  rw [ParserState.tokens, hRest, List.map_append, ParserState.tokens]

theorem ending (h : Takes s ts s₁) : s₁.ending = s.ending := by rw [h.frame]

theorem still (h : Takes s ts s₁) : Still s s₁ := by
  rw [h.frame]
  exact ⟨rfl, rfl⟩

/-- The token that has been taken is the one that stood first. -/
theorem head {t t' : Token} (h : Takes s [t] s₁) (hHead : s.tokens.head? = some t') : t = t' := by
  rw [h.tokens] at hHead
  exact Option.some.inj hHead

end Takes

/-! ## Ways to halt -/

/-- An error says that a declaration cannot be made: for its name, or for its storage. -/
def SemanticError.IsDeclaring : SemanticError → Prop
  | tooLarge _ => True
  | redeclared _ => True
  | _ => False

/-- For this reason the parser stops where no token is left: the lexer fails there, or tokens are
missing (`GrammarError.IsEnd`). -/
def EndsIn (ending : Option (Located LexError)) (stop : Stop) : Prop :=
  match ending with
  | some failure => stop = .error ⟨.lexical failure.value, failure.span⟩
  | none => ∃ error span, GrammarError.IsEnd error ∧ stop = .error ⟨.grammatical error, span⟩

/-- A parser halts behind tokens of which `V` holds. A token that it refuses is behind these tokens,
and it is the last one that has been read; only where dimensions stand on both sides of a name, the
second bracket is not read any more. -/
inductive Halt (s : ParserState) (V : List Token → Prop) : Stop → ParserState → Prop
  | exhausted (s' : ParserState) : Halt s V .exhausted s'
  | found {read : List (Located Token)} {t : Located Token} {error : GrammarError}
      {s' : ParserState} (hRest : s.rest = read ++ t :: s'.rest) (hBegins : V (read.map (·.value)))
      (hFound : error.found? = some t.value) (hStill : Still s s') :
      Halt s V (.error ⟨.grammatical error, t.span⟩) s'
  | atEnd {stop : Stop} {s' : ParserState} (hEnd : EndsIn s.ending stop) (hRest : s'.rest = [])
      (hBegins : V s.tokens) (hStill : Still s s') : Halt s V stop s'
  | repeated {read : List (Located Token)} {text : String} {span : Span} {s' : ParserState}
      (hRest : s.rest = read ++ ⟨.name text, span⟩ :: s'.rest)
      (hNext : s'.tokens.head? = some (.mark .openSquare))
      (hBegins : V (read.map (·.value) ++ [.name text])) (hStill : Still s s') :
      Halt s V (.error ⟨.grammatical (.duplicateDims text), span⟩) s'
  | semantic {read : List (Located Token)} {error : SemanticError} {span : Span}
      {s' : ParserState} (hRest : s.rest = read ++ s'.rest) (hBegins : V (read.map (·.value)))
      (hOther : ¬ error.IsDeclaring) (hStill : Still s s') :
      Halt s V (.error ⟨.semantic error, span⟩) s'

namespace Halt

variable {s s₁ s' : ParserState} {V V₁ : List Token → Prop} {stop : Stop}

/-- What halts behind some tokens halts behind those in front of them as well, with what `Takes` has
read put in front. -/
theorem after {ts : List Token} (h : Halt s₁ V₁ stop s') (hTakes : Takes s ts s₁)
    (hBegins : ∀ us, V₁ us → V (ts ++ us)) : Halt s V stop s' := by
  obtain ⟨located, hLocated, rfl⟩ := hTakes.read
  have hStill := hTakes.still
  have hTokens := hTakes.tokens
  cases h with
  | exhausted => exact .exhausted s'
  | @found read t error _ hRest hV hFound hSame =>
    rw [hRest, ← List.append_assoc] at hLocated
    refine .found hLocated ?_ hFound (hStill.trans hSame)
    rw [List.map_append]
    exact hBegins _ hV
  | atEnd hEnd hRest hV hSame =>
    refine .atEnd (hTakes.ending ▸ hEnd) hRest ?_ (hStill.trans hSame)
    rw [hTokens]
    exact hBegins _ hV
  | @repeated read text span _ hRest hNext hV hSame =>
    rw [hRest, ← List.append_assoc] at hLocated
    refine .repeated hLocated hNext ?_ (hStill.trans hSame)
    rw [List.map_append, List.append_assoc]
    exact hBegins _ hV
  | @semantic read error span _ hRest hV hOther hSame =>
    rw [hRest, ← List.append_assoc] at hLocated
    refine .semantic hLocated ?_ hOther (hStill.trans hSame)
    rw [List.map_append]
    exact hBegins _ hV

/-- What halts at once halts behind the tokens that have been read. -/
theorem here {ts : List Token} (h : Halt s₁ (· = []) stop s') (hTakes : Takes s ts s₁)
    (hBegins : V ts) : Halt s V stop s' := by
  refine h.after hTakes ?_
  rintro us rfl
  rwa [List.append_nil]

theorem mono (h : Halt s V₁ stop s') (hBegins : ∀ us, V₁ us → V us) : Halt s V stop s' :=
  h.after (.refl s) hBegins

/-- A rule is broken at the place where the parser stands. -/
theorem rule {error : SemanticError} (span : Span) (s : ParserState)
    (hOther : ¬ error.IsDeclaring) :
    Halt s (· = []) (.error ⟨.semantic error, span⟩) s :=
  .semantic (List.nil_append _).symm rfl hOther (.refl s)

end Halt

section Runs

variable {α β : Type} {s s₁ : ParserState} {ts : List Token} {V V₁ : List Token → Prop}

/-- A parser that goes on behind tokens that have been read: where its first part halts, the whole
does. -/
theorem Takes.bind {p : Parser α} {f : α → Parser β} {mid : α → ParserState → Prop}
    {onOk : β → ParserState → Prop} (hTakes : Takes s ts s₁) (h : Yields p s₁ mid (Halt s₁ V₁))
    (hBegins : ∀ us, V₁ us → V (ts ++ us))
    (hNext : ∀ a s₂, mid a s₂ → Yields (f a) s₂ onOk (Halt s V)) :
    Yields (p >>= f) s₁ onOk (Halt s V) :=
  Yields.bind h (fun _ _ hHalt => hHalt.after hTakes hBegins) hNext

/-- A parser that halts at once, if it does, behind tokens that have been read. -/
theorem Takes.step {p : Parser α} {f : α → Parser β} {mid : α → ParserState → Prop}
    {onOk : β → ParserState → Prop} (hTakes : Takes s ts s₁)
    (h : Yields p s₁ mid (Halt s₁ (· = []))) (hBegins : V ts)
    (hNext : ∀ a s₂, mid a s₂ → Yields (f a) s₂ onOk (Halt s V)) :
    Yields (p >>= f) s₁ onOk (Halt s V) :=
  Yields.bind h (fun _ _ hHalt => hHalt.here hTakes hBegins) hNext

/-- The last parser behind tokens that have been read. -/
theorem Takes.last {p : Parser α} {mid onOk : α → ParserState → Prop} (hTakes : Takes s ts s₁)
    (h : Yields p s₁ mid (Halt s₁ V₁)) (hBegins : ∀ us, V₁ us → V (ts ++ us))
    (hOk : ∀ a s₂, mid a s₂ → onOk a s₂) : Yields p s₁ onOk (Halt s V) :=
  h.mono hOk fun _ _ hHalt => hHalt.after hTakes hBegins

end Runs

/-! ## Ways to read a token -/

theorem halts_peek (s : ParserState) :
    Yields peek s (fun t s' => s' = s ∧ t = s.tokens.head?) (Halt s (· = [])) := by
  obtain ⟨rest, ending, last, scope, used, loops, met, log⟩ := s
  cases rest with
  | cons t rest => exact ⟨rfl, rfl⟩
  | nil =>
    cases ending with
    | none => exact ⟨rfl, rfl⟩
    | some failure => exact .atEnd rfl rfl rfl (.refl _)

theorem halts_next (s : ParserState) :
    Yields next s
      (fun found s' => s.rest = found :: s'.rest ∧ s'.last = found.span ∧ Takes s [found.value] s')
      (Halt s (· = [])) := by
  obtain ⟨rest, ending, last, scope, used, loops, met, log⟩ := s
  cases rest with
  | cons t rest => exact ⟨rfl, rfl, ⟨[t], rfl, rfl⟩, rfl⟩
  | nil =>
    cases ending with
    | none => exact .atEnd ⟨_, _, .unexpectedEnd, rfl⟩ rfl rfl (.refl _)
    | some failure => exact .atEnd rfl rfl rfl (.refl _)

/-- The token that has just been read is refused. -/
theorem halts_fail {α : Type} {s s₁ : ParserState} {found : Located Token} {error : GrammarError}
    {onOk : α → ParserState → Prop} (hRest : s.rest = found :: s₁.rest)
    (hLast : s₁.last = found.span) (hTakes : Takes s [found.value] s₁)
    (hFound : error.found? = some found.value) :
    Yields (fail error) s₁ onOk (Halt s (· = [])) := by
  rw [yields_fail, hLast]
  have hRead : s.rest = [] ++ found :: s₁.rest := hRest
  exact .found hRead rfl hFound hTakes.still

theorem halts_expect (token : Token) (s : ParserState) :
    Yields (expect token) s (fun _ s' => Takes s [token] s') (Halt s (· = [])) := by
  rw [expect, yields_get]
  split
  · next hRest hEnding =>
    refine Halt.atEnd ?_ hRest ?_ (.refl s)
    · rw [hEnding]
      exact ⟨_, _, .missingToken token, rfl⟩
    · rw [ParserState.tokens, hRest]
      rfl
  · refine (Takes.refl s).step (halts_next s) rfl fun found s₁ hFound => ?_
    obtain ⟨hRest, hLast, hTakes⟩ := hFound
    split
    · next hToken =>
      rw [yields_pure, ← hToken]
      exact hTakes
    · exact halts_fail hRest hLast hTakes rfl

theorem halts_name (s : ParserState) :
    Yields name s
      (fun found s' => s.rest = ⟨.name found.value, found.span⟩ :: s'.rest ∧
        Takes s [.name found.value] s')
      (Halt s (· = [])) := by
  rw [name]
  refine (Takes.refl s).step (halts_next s) rfl fun found s₁ hFound => ?_
  obtain ⟨hRest, hLast, hTakes⟩ := hFound
  split
  · next text hText =>
    rw [yields_pure, ← hText]
    exact ⟨hRest, hTakes⟩
  · exact halts_fail hRest hLast hTakes rfl

theorem halts_atMark (m : Mark) (s : ParserState) :
    Yields (atMark m) s (fun b s' => s' = s ∧ (b = true ↔ s.tokens.head? = some (.mark m)))
      (Halt s (· = [])) := by
  rw [atMark]
  refine (Takes.refl s).step (halts_peek s) rfl ?_
  rintro t s' ⟨rfl, rfl⟩
  rw [yields_pure]
  exact ⟨rfl, beq_iff_eq⟩

theorem halts_resolve (text : String) (span : Span) (s : ParserState) :
    Yields (resolve text span) s (fun _ s' => s' = s) (Halt s (· = [])) := by
  rw [resolve, yields_get]
  split
  · rfl
  · exact .rule span s id

theorem halts_check {α : Type} {r : Except SemanticError α} (span : Span) (s : ParserState)
    (hOther : ∀ error, r = .error error → ¬ error.IsDeclaring) :
    Yields (check span r) s (fun _ s' => s' = s) (Halt s (· = [])) := by
  cases r with
  | ok a => rfl
  | error e => exact .rule span s (hOther e rfl)

theorem binary_not_declaring {op : BinaryOp} {a b : Expr} {error : SemanticError}
    (h : Expr.binary op a b = .error error) : ¬ error.IsDeclaring := by
  rw [binary_eq_error h]
  exact id

theorem unary_not_declaring {op : UnaryOp} {a : Expr} {error : SemanticError}
    (h : Expr.unary op a = .error error) : ¬ error.IsDeclaring := by
  rw [unary_eq_error h]
  exact id

end JumpCode
