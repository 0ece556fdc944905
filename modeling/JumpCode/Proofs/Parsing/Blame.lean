import JumpCode.Proofs.Formed

/-!
# JumpCode — whom the parser blames

Whenever the parser stops with an error, the error is placed at a token of the text that it is
about: the token that it found and names, the name that breaks a rule, the operator between operands
that do not suit it, the keyword whose condition is no truth value. Only where tokens are missing at
the end the last one is taken in their place, or the start of the text if there is none; and a
failure of the lexer is passed on as it is.

* `CompileError.About` — which tokens an error may be about;
* `Blamed` — where a failure is placed;
* `Stays`, `Tracks` — a run goes along the tokens, and stops only with failures that are placed so;
* `blamed_of_read` — reading a program.
-/

namespace JumpCode

open JumpCode.Parser

/-! ## What an error is about -/

/-- The `Keyword` in front of the condition of a statement. -/
def Construct.keyword : Construct → Keyword
  | ifElse => .ifWord
  | whileLoop => .whileWord
  | doLoop => .whileWord

/-- Which tokens an error may be about. There is one rule for each error that is placed at a token:
the token that is named in the message, or the one at which the rule is broken. -/
inductive CompileError.About : CompileError → Token → Prop
  | unexpectedToken (expected found : Token) :
      About (.grammatical (.unexpectedToken expected found)) found
  | expectedName (found : Token) : About (.grammatical (.expectedName found)) found
  | expectedType (found : Token) : About (.grammatical (.expectedType found)) found
  | expectedLength (found : Token) : About (.grammatical (.expectedLength found)) found
  | expectedExpr (found : Token) : About (.grammatical (.expectedExpr found)) found
  | duplicateDims (text : String) : About (.grammatical (.duplicateDims text)) (.name text)
  | trailingInput (found : Token) : About (.grammatical (.trailingInput found)) found
  | undeclared (text : String) : About (.semantic (.undeclared text)) (.name text)
  | redeclared (text : String) : About (.semantic (.redeclared text)) (.name text)
  | tooLarge (text : String) : About (.semantic (.tooLarge text)) (.name text)
  | notAnArray (text : String) (type : Ty) : About (.semantic (.notAnArray text type)) (.name text)
  | binaryMismatch {level : Level} {m : Mark} {op : BinaryOp} (hOp : level.operator? m = some op)
      (lhs rhs : Ty) : About (.semantic (.binaryMismatch op lhs rhs)) (.mark m)
  /-- What stands in brackets is multiplied by the width of an element. -/
  | subscript (index width : Ty) :
      About (.semantic (.binaryMismatch (.arith .mul) index width)) (.mark .openSquare)
  | unaryMismatch {m : Mark} {op : UnaryOp} (hOp : Rank.Signs m op) (operand : Ty) :
      About (.semantic (.unaryMismatch op operand)) (.mark m)
  | assignMismatch (target value : Ty) :
      About (.semantic (.assignMismatch target value)) (.mark .assign)
  | expectedBool (construct : Construct) (found : Ty) :
      About (.semantic (.expectedBool construct found)) (.keyword construct.keyword)
  | breakOutsideLoop : About (.semantic .breakOutsideLoop) (.keyword .breakWord)
  | arrayTooLarge (value : Int) (element : Ty) :
      About (.semantic (.arrayTooLarge (lengthOf value) element)) (.intLiteral value)

/-- Whether an error says that tokens are missing: nothing stands where it is. -/
inductive GrammarError.IsEnd : GrammarError → Prop
  | missingToken (expected : Token) : IsEnd (.missingToken expected)
  | unexpectedEnd : IsEnd .unexpectedEnd

/-- The `Span` of the last of some tokens, or the start of the text if there is none. -/
def lastTokenSpan (tokens : List (Located Token)) : Span :=
  (tokens.getLast?.map (·.span)).getD .first

variable (tokens : List (Located Token)) (ending : Option (Located LexError))

/-- Where a failure to read these tokens, behind which the lexer ends so, is placed: at a token that
it is `About`, behind the last one, or where the lexer has failed. -/
inductive Blamed : Located CompileError → Prop
  | token {error : CompileError} {t : Located Token} (hToken : t ∈ tokens)
      (hAbout : error.About t.value) : Blamed ⟨error, t.span⟩
  | missing {error : GrammarError} (hEnd : error.IsEnd) (hEnding : ending = none) :
      Blamed ⟨.grammatical error, lastTokenSpan tokens⟩
  | lexical {failure : Located LexError} (hEnding : ending = some failure) :
      Blamed ⟨.lexical failure.value, failure.span⟩

/-- A token of this value at this place is about an error. -/
theorem Blamed.at {error : CompileError} {t : Token} {span : Span}
    (hToken : Located.mk t span ∈ tokens) (hAbout : error.About t) :
    Blamed tokens ending ⟨error, span⟩ := .token hToken hAbout

/-! ## Along the tokens -/

/-- A state in which some of the tokens have been read, the last of them being where the state says
(`lastTokenSpan`), and the others are to come. -/
structure Along (s : ParserState) : Prop where
  split : ∃ read, tokens = read ++ s.rest ∧ s.last = lastTokenSpan read
  ending : s.ending = ending

/-- The parser stops for lack of fuel, or with a failure that is placed where it belongs (`Blamed`).
-/
def StopsRightly (stop : Stop) : Prop :=
  ∀ failure, stop = .error failure → Blamed tokens ending failure

/-- A run stays `Along` the tokens and ends with a value and a state that meet a condition, unless
it `StopsRightly`. -/
def Stays {α : Type} (p : Parser α) (s : ParserState) (Q : α → ParserState → Prop) : Prop :=
  Yields p s (fun a s' => Along tokens ending s' ∧ Q a s')
    (fun stop _ => StopsRightly tokens ending stop)

/-- From all states `Along` the tokens a parser stays there, and its value meets a condition. -/
def Tracks {α : Type} (p : Parser α) (Q : α → Prop) : Prop :=
  ∀ s, Along tokens ending s → Stays tokens ending p s fun a _ => Q a

variable {tokens ending}

theorem stopsRightly_exhausted : StopsRightly tokens ending .exhausted := by
  intro failure h
  cases h

theorem stopsRightly_error {failure : Located CompileError} (h : Blamed tokens ending failure) :
    StopsRightly tokens ending (.error failure) := by
  rintro _ ⟨⟩
  exact h

section Runs

variable {α β : Type} {s : ParserState}

theorem Stays.bind {p : Parser α} {f : α → Parser β} {Q : α → ParserState → Prop}
    {R : β → ParserState → Prop} (h : Stays tokens ending p s Q)
    (hNext : ∀ a s', Along tokens ending s' → Q a s' → Stays tokens ending (f a) s' R) :
    Stays tokens ending (p >>= f) s R :=
  Yields.bind h (fun _ _ hStop => hStop) fun a s' hMid => hNext a s' hMid.1 hMid.2

theorem Stays.mono {p : Parser α} {Q R : α → ParserState → Prop} (h : Stays tokens ending p s Q)
    (hMono : ∀ a s', Q a s' → R a s') : Stays tokens ending p s R :=
  Yields.mono h (fun a s' hEnd => ⟨hEnd.1, hMono a s' hEnd.2⟩) fun _ _ hStop => hStop

theorem stays_pure {a : α} {Q : α → ParserState → Prop} (hs : Along tokens ending s) (h : Q a s) :
    Stays tokens ending (pure a) s Q := ⟨hs, h⟩

theorem Tracks.bind {p : Parser α} {f : α → Parser β} {Q : α → Prop} {R : β → Prop}
    (h : Tracks tokens ending p Q) (hNext : ∀ a, Q a → Tracks tokens ending (f a) R) :
    Tracks tokens ending (p >>= f) R :=
  fun s hs => (h s hs).bind fun a s' hs' ha => hNext a ha s' hs'

theorem tracks_pure {a : α} {Q : α → Prop} (h : Q a) : Tracks tokens ending (pure a) Q :=
  fun _ hs => stays_pure hs h

theorem tracks_exhausted {Q : α → Prop} : Tracks tokens ending (throw .exhausted) Q :=
  fun _ _ => stopsRightly_exhausted

theorem tracks_failAt {span : Span} {error : CompileError} {Q : α → Prop}
    (h : Blamed tokens ending ⟨error, span⟩) : Tracks tokens ending (failAt span error) Q :=
  fun _ _ => stopsRightly_error h

/-- Whatever stands behind a failure is not run. -/
theorem tracks_failAt_bind {span : Span} {error : CompileError} {f : α → Parser β} {Q : β → Prop}
    (h : Blamed tokens ending ⟨error, span⟩) : Tracks tokens ending (failAt span error >>= f) Q :=
  fun _ _ => stopsRightly_error h

end Runs

/-! ## Ways to read a token -/

theorem lastTokenSpan_concat (read : List (Located Token)) (t : Located Token) :
    lastTokenSpan (read ++ [t]) = t.span := by simp [lastTokenSpan]

section Tokens

variable {s : ParserState}

theorem Along.lexical (hs : Along tokens ending s) {failure : Located LexError}
    (h : s.ending = some failure) :
    StopsRightly tokens ending (.error ⟨.lexical failure.value, failure.span⟩) :=
  stopsRightly_error (.lexical (hs.ending.symm.trans h))

/-- Where no token is next, all have been read. -/
theorem Along.missing (hs : Along tokens ending s) (hRest : s.rest = []) (hEnd : s.ending = none)
    {error : GrammarError} (h : error.IsEnd) :
    StopsRightly tokens ending (.error ⟨.grammatical error, s.last⟩) := by
  obtain ⟨read, hTokens, hLast⟩ := hs.split
  rw [hRest, List.append_nil] at hTokens
  rw [hLast, ← hTokens]
  exact stopsRightly_error (.missing h (hs.ending.symm.trans hEnd))

theorem stays_peek (hs : Along tokens ending s) :
    Stays tokens ending peek s fun t s' => s' = s ∧ t = s.tokens.head? := by
  obtain ⟨rest, ending', last, scope, used, loops, met, log⟩ := s
  cases rest with
  | cons t rest => exact ⟨hs, rfl, rfl⟩
  | nil =>
    cases ending' with
    | none => exact ⟨hs, rfl, rfl⟩
    | some failure => exact hs.lexical rfl

theorem stays_next (hs : Along tokens ending s) :
    Stays tokens ending next s fun found s' =>
      found ∈ tokens ∧ s'.last = found.span ∧ s.tokens.head? = some found.value := by
  obtain ⟨rest, ending', last, scope, used, loops, met, log⟩ := s
  cases rest with
  | cons t rest =>
    obtain ⟨read, hTokens, -⟩ := hs.split
    have hSplit : tokens = (read ++ [t]) ++ rest := by simp [hTokens]
    exact ⟨⟨⟨read ++ [t], hSplit, (lastTokenSpan_concat read t).symm⟩, hs.ending⟩,
      by simp [hTokens], rfl, rfl⟩
  | nil =>
    cases ending' with
    | none => exact hs.missing rfl rfl .unexpectedEnd
    | some failure => exact hs.lexical rfl

theorem tracks_peek : Tracks tokens ending peek fun _ => True :=
  fun _ hs => (stays_peek hs).mono fun _ _ _ => trivial

theorem tracks_next : Tracks tokens ending next (· ∈ tokens) :=
  fun _ hs => (stays_next hs).mono fun _ _ h => h.1

theorem tracks_atMark (m : Mark) : Tracks tokens ending (atMark m) fun _ => True :=
  tracks_peek.bind fun _ _ => tracks_pure trivial

/-- Reads a token and goes on with it, or blames it. -/
theorem Tracks.next_bind {α : Type} {f : Located Token → Parser α} {Q : α → Prop}
    (h : ∀ found s', found ∈ tokens → s'.last = found.span → Along tokens ending s' →
      Stays tokens ending (f found) s' fun a _ => Q a) :
    Tracks tokens ending (next >>= f) Q :=
  fun _ hs => (stays_next hs).bind fun found s' hs' hFound => h found s' hFound.1 hFound.2.1 hs'

/-- A token that has just been read may be blamed: it is the last one of the state. -/
theorem stays_fail {α : Type} {error : GrammarError} {found : Located Token}
    {Q : α → ParserState → Prop} (hFound : found ∈ tokens) (hLast : s.last = found.span)
    (hAbout : (CompileError.grammatical error).About found.value) :
    Stays tokens ending (fail error) s Q := by
  show StopsRightly tokens ending (.error ⟨.grammatical error, s.last⟩)
  rw [hLast]
  exact stopsRightly_error (.token hFound hAbout)

theorem stays_fail_bind {α β : Type} {error : GrammarError} {found : Located Token}
    {f : α → Parser β} {Q : β → ParserState → Prop} (hFound : found ∈ tokens)
    (hLast : s.last = found.span)
    (hAbout : (CompileError.grammatical error).About found.value) :
    Stays tokens ending (fail error >>= f) s Q :=
  (stays_fail hFound hLast hAbout : Stays tokens ending (fail error) s fun _ _ => False).bind
    fun _ _ _ h => h.elim

theorem tracks_expect (token : Token) :
    Tracks tokens ending (expect token) fun span => ⟨token, span⟩ ∈ tokens := by
  intro s hs
  -- unless all tokens have been read, the next one is taken and compared
  have hFound : Stays tokens ending (do
      let found ← next
      if found.value = token then return found.span
      else fail (.unexpectedToken token found.value)) s fun span _ => ⟨token, span⟩ ∈ tokens := by
    refine (stays_next hs).bind fun found s' hs' hNext => ?_
    obtain ⟨hFound, hLast, -⟩ := hNext
    split
    · next hValue => exact stays_pure hs' (hValue ▸ hFound)
    · exact stays_fail hFound hLast (.unexpectedToken _ _)
  obtain ⟨rest, ending', last, scope, used, loops, met, log⟩ := s
  cases rest with
  | cons t rest => exact hFound
  | nil =>
    cases ending' with
    | none => exact hs.missing rfl rfl (.missingToken token)
    | some failure => exact hFound

theorem tracks_name :
    Tracks tokens ending name fun found => ⟨.name found.value, found.span⟩ ∈ tokens := by
  refine .next_bind fun found s' hFound hLast hs' => ?_
  split
  · next text hText => exact stays_pure hs' (hText ▸ hFound)
  · exact stays_fail hFound hLast (.expectedName _)

end Tokens

/-! ## Names and rules -/

/-- What is found under a name has this name. -/
theorem Scope.name_of_lookup? {Γ : Scope} {text : String} {x : Symbol}
    (h : Γ.lookup? text = some x) : x.name = text := by
  obtain ⟨frame, -, hFind⟩ := List.exists_of_findSome?_eq_some h
  simpa using List.find?_some hFind

theorem tracks_resolve {text : String} {span : Span} (h : ⟨.name text, span⟩ ∈ tokens) :
    Tracks tokens ending (resolve text span) fun x => x.name = text := by
  intro s hs
  rw [resolve]
  -- only the scope is looked at, so that the state stays where it is
  show Stays tokens ending _ s _
  unfold Stays
  rw [yields_get]
  split
  · next x hName => exact ⟨hs, Scope.name_of_lookup? hName⟩
  · exact stopsRightly_error (.at _ _ h (.undeclared text))

theorem tracks_check {α : Type} {span : Span} {r : Except SemanticError α}
    (h : ∀ error, r = .error error →
      ∃ t, ⟨t, span⟩ ∈ tokens ∧ (CompileError.semantic error).About t) :
    Tracks tokens ending (check span r) fun a => r = .ok a := by
  cases r with
  | ok a => exact tracks_pure rfl
  | error e =>
    obtain ⟨t, hToken, hAbout⟩ := h e rfl
    exact tracks_failAt (.at _ _ hToken hAbout)

theorem tracks_declare {text : String} {span : Span} (type : Ty) (h : ⟨.name text, span⟩ ∈ tokens) :
    Tracks tokens ending (declare text type span) fun _ => True := by
  intro s hs
  unfold Stays
  rw [declare, yields_get]
  dsimp only
  split
  · exact tracks_failAt_bind (.at _ _ h (.tooLarge text)) s hs
  · split
    · exact stopsRightly_error (.at _ _ h (.redeclared text))
    · exact ⟨⟨hs.split, hs.ending⟩, trivial⟩

/-- Two operands are refused because of their types, and `Expr.binary` has no other error. -/
theorem binary_eq_error {op : BinaryOp} {lhs rhs : Expr} {error : SemanticError}
    (h : Expr.binary op lhs rhs = .error error) :
    error = .binaryMismatch op lhs.type rhs.type := by
  unfold Expr.binary at h
  split at h <;> split at h <;> cases h <;> rfl

theorem unary_eq_error {op : UnaryOp} {operand : Expr} {error : SemanticError}
    (h : Expr.unary op operand = .error error) : error = .unaryMismatch op operand.type := by
  unfold Expr.unary at h
  split at h <;> split at h <;> cases h <;> rfl

/-! ## Declarations -/

theorem tracks_optionalDims_of {fuel : Nat} {of : Ty}
    (h : Tracks tokens ending (dims fuel of) fun _ => True) :
    Tracks tokens ending (optionalDims fuel of) fun _ => True := by
  refine (tracks_atMark _).bind fun b _ => ?_
  split
  · exact h
  · exact tracks_pure trivial

theorem tracks_dims (fuel : Nat) (of : Ty) : Tracks tokens ending (dims fuel of) fun _ => True := by
  induction fuel with
  | zero => exact tracks_exhausted
  | succ fuel ih =>
    refine (tracks_expect _).bind fun _ _ => .next_bind fun found s' hFound hLast hs' => ?_
    split
    · next value hValue =>
      refine ((tracks_expect _).bind fun _ _ => ?_) s' hs'
      dsimp only
      -- the literal is blamed only when the type of the elements, which comes behind it, is known
      rw [optionalDims_bind]
      refine (tracks_optionalDims_of ih).bind fun element _ => ?_
      split
      · exact tracks_pure trivial
      · exact tracks_failAt (.token hFound (hValue ▸ .arrayTooLarge value element))
    · exact stays_fail hFound hLast (.expectedLength _)

theorem tracks_optionalDims (fuel : Nat) (of : Ty) :
    Tracks tokens ending (optionalDims fuel of) fun _ => True :=
  tracks_optionalDims_of (tracks_dims fuel of)

theorem tracks_type (fuel : Nat) : Tracks tokens ending (type fuel) fun _ => True := by
  refine .next_bind fun found s' hFound hLast hs' => ?_
  split
  · exact tracks_optionalDims fuel _ s' hs'
  · exact stays_fail hFound hLast (.expectedType _)

theorem tracks_decl (fuel : Nat) : Tracks tokens ending (decl fuel) fun _ => True := by
  refine (tracks_type fuel).bind fun type _ => tracks_name.bind fun found hFound =>
    (tracks_atMark _).bind fun b _ => ?_
  -- lengths on both sides of the name are blamed on the name, and so is what declaring it breaks
  split
  · exact tracks_failAt_bind (.at _ _ hFound (.duplicateDims _))
  · exact (tracks_optionalDims fuel type).bind fun type _ => (tracks_expect _).bind fun _ _ =>
      tracks_declare type hFound

theorem tracks_decls (fuel : Nat) : Tracks tokens ending (decls fuel) fun _ => True := by
  induction fuel with
  | zero => exact tracks_exhausted
  | succ fuel ih =>
    refine tracks_peek.bind fun t _ => ?_
    split
    · exact (tracks_decl fuel).bind fun _ _ => ih
    · exact tracks_pure trivial

/-! ## Expressions -/

/-- What the functions for expressions do `Along` the tokens, from some fuel. The index of an
element is a number at every step, so that one more term can always be added. -/
structure ExprTracks (tokens : List (Located Token)) (ending : Option (Located LexError))
    (fuel : Nat) : Prop where
  expr (l : Level) : Tracks tokens ending (expr fuel l) fun _ => True
  operand (l : Level) : Tracks tokens ending (operand fuel l) fun _ => True
  chain (l : Level) (lhs : Expr) : Tracks tokens ending (chain fuel l lhs) fun _ => True
  unary : Tracks tokens ending (unary fuel) fun _ => True
  factor : Tracks tokens ending (factor fuel) fun _ => True
  access (x : Symbol) (span : Span) (h : ⟨.name x.name, span⟩ ∈ tokens) :
    Tracks tokens ending (access fuel x span) fun _ => True
  subscripts (x : Symbol) (span : Span) (index : Expr) (type : Ty)
    (h : ⟨.name x.name, span⟩ ∈ tokens) (hNumeric : index.type.isNumeric) :
    Tracks tokens ending (subscripts fuel x span index type) fun _ => True
  subscript (x : Symbol) (span : Span) (type : Ty) (h : ⟨.name x.name, span⟩ ∈ tokens) :
    Tracks tokens ending (subscript fuel x span type) fun found => found.1.type.isNumeric

section Steps

variable {fuel : Nat}

theorem tracks_chain (ih : ExprTracks tokens ending fuel) (l : Level) (lhs : Expr) :
    Tracks tokens ending (chain (fuel + 1) l lhs) fun _ => True := by
  intro s hs
  rw [chain]
  refine (stays_peek hs).bind ?_
  rintro t s₁ hs₁ ⟨rfl, rfl⟩
  split
  · exact stays_pure hs₁ trivial
  · next op hOp =>
    obtain ⟨m, hHead, hOperator⟩ := Level.operatorOf_eq_some hOp
    refine (stays_next hs₁).bind fun found s₂ hs₂ hNext => ?_
    obtain ⟨hFound, -, hSame⟩ := hNext
    -- the token that is read is the operator that has been seen, and it is blamed for its operands
    have hMark : found.value = .mark m := Option.some.inj (hSame.symm.trans hHead)
    refine ((ih.operand l).bind fun rhs _ => (tracks_check ?_).bind fun joined _ => ?_) s₂ hs₂
    · intro error hError
      obtain rfl := binary_eq_error hError
      exact ⟨_, hFound, hMark ▸ .binaryMismatch hOperator _ _⟩
    · split
      · exact ih.chain l joined
      · exact tracks_pure trivial

theorem tracks_unary (ih : ExprTracks tokens ending fuel) :
    Tracks tokens ending (unary (fuel + 1)) fun _ => True := by
  intro s hs
  rw [unary]
  refine (stays_peek hs).bind ?_
  rintro t s₁ hs₁ ⟨rfl, rfl⟩
  split
  · next op hOp =>
    obtain ⟨m, hHead, hSign⟩ := signs_of_unaryOf hOp
    refine (stays_next hs₁).bind fun found s₂ hs₂ hNext => ?_
    obtain ⟨hFound, -, hSame⟩ := hNext
    have hMark : found.value = .mark m := Option.some.inj (hSame.symm.trans hHead)
    have hCheck : ∀ e, Tracks tokens ending (check found.span (Expr.unary op e)) fun _ => True := by
      intro e s hs
      refine (tracks_check (fun error hError => ?_) s hs).mono fun _ _ _ => trivial
      obtain rfl := unary_eq_error hError
      exact ⟨_, hFound, hMark ▸ .unaryMismatch hSign _⟩
    exact (ih.unary.bind fun e _ => hCheck e) s₂ hs₂
  · exact ih.factor s₁ hs₁

theorem tracks_factor (ih : ExprTracks tokens ending fuel) :
    Tracks tokens ending (factor (fuel + 1)) fun _ => True := by
  rw [factor]
  refine .next_bind fun found s₁ hFound hLast hs₁ => ?_
  split
  · exact ((ih.expr .disjunction).bind fun _ _ => (tracks_expect _).bind fun _ _ =>
      tracks_pure trivial) s₁ hs₁
  · exact stays_pure hs₁ trivial
  · exact stays_pure hs₁ trivial
  · exact stays_pure hs₁ trivial
  · exact stays_pure hs₁ trivial
  · next text hText =>
    -- a name that is not declared is blamed itself, and so is one that is no array
    have hName : (⟨.name text, found.span⟩ : Located Token) ∈ tokens := hText ▸ hFound
    refine ((tracks_resolve hName).bind fun x hx => (tracks_atMark _).bind fun b _ => ?_) s₁ hs₁
    split
    · exact (ih.access x found.span (hx ▸ hName)).bind fun _ _ => tracks_pure trivial
    · exact tracks_pure trivial
  · exact stays_fail hFound hLast (.expectedExpr _)

theorem tracks_subscripts (ih : ExprTracks tokens ending fuel) (x : Symbol) (span : Span)
    (index : Expr) (type : Ty) (h : ⟨.name x.name, span⟩ ∈ tokens)
    (hNumeric : index.type.isNumeric) :
    Tracks tokens ending (subscripts (fuel + 1) x span index type) fun _ => True := by
  rw [subscripts]
  refine (tracks_atMark _).bind fun b _ => ?_
  split
  · refine (ih.subscript x span type h).bind fun found hTerm => ?_
    obtain ⟨term, element⟩ := found
    -- two numbers have a sum
    have hBuilds : Binary (.arith .add) index term _ := .arith hNumeric hTerm
    have hSum := binary_eq_ok_iff.mpr hBuilds
    refine (tracks_check fun error hError => ?_).bind fun sum hBuilt => ?_
    · cases hSum.symm.trans hError
    · exact ih.subscripts x span sum element h (binary_eq_ok_iff.mp hBuilt).isNumeric
  · exact tracks_pure trivial

theorem tracks_subscript (ih : ExprTracks tokens ending fuel) (x : Symbol) (span : Span) (type : Ty)
    (h : ⟨.name x.name, span⟩ ∈ tokens) :
    Tracks tokens ending (subscript (fuel + 1) x span type) fun found =>
      found.1.type.isNumeric := by
  rw [subscript]
  refine (tracks_expect _).bind fun bracket hBracket => (ih.expr .disjunction).bind fun index _ =>
    (tracks_expect _).bind fun _ _ => ?_
  split
  · exact tracks_failAt (.at _ _ h (.notAnArray _ _))
  · refine (tracks_check fun error hError => ?_).bind fun term hBuilt => ?_
    · -- what stands in brackets does not suit a product, for which the bracket is blamed
      obtain rfl := binary_eq_error hError
      exact ⟨_, hBracket, .subscript _ _⟩
    · exact tracks_pure (binary_eq_ok_iff.mp hBuilt).isNumeric

end Steps

/-- **Expressions are blamed rightly**, by induction on the fuel: each function `Tracks` if those
that it calls do with less. -/
theorem exprTracks (fuel : Nat) : ExprTracks tokens ending fuel := by
  -- the functions call each other with one unit of fuel less, so all of them go by one induction
  induction fuel with
  | zero =>
    exact {
      expr _ := tracks_exhausted
      operand _ := tracks_exhausted
      chain _ _ := tracks_exhausted
      unary := tracks_exhausted
      factor := tracks_exhausted
      access _ _ _ := tracks_exhausted
      subscripts _ _ _ _ _ _ := tracks_exhausted
      subscript _ _ _ _ := tracks_exhausted }
  | succ fuel ih =>
    exact {
      expr l := by
        rw [expr]
        exact (ih.operand l).bind fun lhs _ => ih.chain l lhs
      operand l := by
        rw [operand]
        split
        · exact ih.expr _
        · exact ih.unary
      chain := tracks_chain ih
      unary := tracks_unary ih
      factor := tracks_factor ih
      access x span h := by
        rw [access]
        exact (ih.subscript x span x.type h).bind fun found hIndex =>
          ih.subscripts x span found.1 found.2 h hIndex
      subscripts := tracks_subscripts ih
      subscript := tracks_subscript ih }

/-! ## Statements -/

theorem tracks_condition (fuel : Nat) (construct : Construct) {span : Span}
    (h : ⟨.keyword construct.keyword, span⟩ ∈ tokens) :
    Tracks tokens ending (condition fuel construct span) fun _ => True := by
  refine (tracks_expect _).bind fun _ _ => ((exprTracks fuel).expr _).bind fun e _ =>
    (tracks_expect _).bind fun _ _ => ?_
  split
  · exact tracks_pure trivial
  · exact tracks_failAt (.at _ _ h (.expectedBool _ _))

theorem tracks_assignment (fuel : Nat) : Tracks tokens ending (assignment fuel) fun _ => True := by
  refine tracks_name.bind fun found hFound => (tracks_resolve hFound).bind fun x hx => ?_
  have hName : (⟨.name x.name, found.span⟩ : Located Token) ∈ tokens := by rwa [hx]
  refine (tracks_atMark _).bind fun b _ => ?_
  -- a variable or an element of an array; the sign is blamed if the value does not suit it
  split
  · refine (tracks_expect _).bind fun sign hSign =>
      ((exprTracks fuel).expr _).bind fun value _ => ?_
    split
    · exact (tracks_expect _).bind fun _ _ => tracks_pure trivial
    · exact tracks_failAt_bind (.at _ _ hSign (.assignMismatch _ _))
  · refine ((exprTracks fuel).access x found.span hName).bind fun target _ =>
      (tracks_expect _).bind fun sign hSign => ((exprTracks fuel).expr _).bind fun value _ => ?_
    split
    · exact (tracks_expect _).bind fun _ _ => tracks_pure trivial
    · exact tracks_failAt_bind (.at _ _ hSign (.assignMismatch _ _))

theorem tracks_breakStmt : Tracks tokens ending breakStmt fun _ => True := by
  refine (tracks_expect _).bind fun span hSpan s hs => ?_
  unfold Stays
  rw [yields_get]
  -- the keyword is blamed before the semicolon behind it is looked at
  split
  · exact stopsRightly_error (.at _ _ hSpan .breakOutsideLoop)
  · exact ((tracks_expect _).bind fun _ _ => tracks_pure trivial) s hs

/-- A loop is opened for its body alone, which reads no token. -/
theorem tracks_inLoop {α : Type} {exit : LoopExit} {p : Parser α} {Q : α → Prop}
    (h : Tracks tokens ending p Q) : Tracks tokens ending (inLoop exit p) Q := by
  intro s hs
  unfold Stays
  rw [yields_inLoop]
  refine Yields.mono (h (enterLoop exit s) ⟨hs.split, hs.ending⟩) ?_ fun _ _ hStop => hStop
  exact fun a s' hEnd => ⟨⟨hEnd.1.split, hEnd.1.ending⟩, hEnd.2⟩

theorem tracks_inScope {α : Type} {p : Parser α} {Q : α → Prop} (h : Tracks tokens ending p Q) :
    Tracks tokens ending (inScope p) Q := by
  intro s hs
  unfold Stays
  rw [yields_inScope]
  refine Yields.mono (h (enterScope s) ⟨hs.split, hs.ending⟩) ?_ fun _ _ hStop => hStop
  exact fun a s' hEnd => ⟨⟨hEnd.1.split, hEnd.1.ending⟩, hEnd.2⟩

theorem tracks_newExit : Tracks tokens ending newExit fun _ => True :=
  fun _ hs => ⟨⟨hs.split, hs.ending⟩, trivial⟩

section Bodies

variable {body : Parser Stmt} (fuel : Nat)

theorem tracks_ifStmt (h : Tracks tokens ending body fun _ => True) :
    Tracks tokens ending (ifStmt fuel body) fun _ => True := by
  refine (tracks_expect _).bind fun span hSpan =>
    (tracks_condition fuel .ifElse hSpan).bind fun _ _ => h.bind fun _ _ =>
      tracks_peek.bind fun t _ => ?_
  split
  · exact tracks_next.bind fun _ _ => h.bind fun _ _ => tracks_pure trivial
  · exact tracks_pure trivial

theorem tracks_whileStmt (h : Tracks tokens ending body fun _ => True) :
    Tracks tokens ending (whileStmt fuel body) fun _ => True :=
  (tracks_expect _).bind fun _ hSpan => (tracks_condition fuel .whileLoop hSpan).bind fun _ _ =>
    tracks_newExit.bind fun _ _ => (tracks_inLoop h).bind fun _ _ => tracks_pure trivial

theorem tracks_doStmt (h : Tracks tokens ending body fun _ => True) :
    Tracks tokens ending (doStmt fuel body) fun _ => True :=
  (tracks_expect _).bind fun _ _ => tracks_newExit.bind fun _ _ => (tracks_inLoop h).bind fun _ _ =>
    (tracks_expect _).bind fun _ hSpan => (tracks_condition fuel .doLoop hSpan).bind fun _ _ =>
      (tracks_expect _).bind fun _ _ => tracks_pure trivial

end Bodies

/-- What the functions for statements do `Along` the tokens, from some fuel. -/
structure StmtTracks (tokens : List (Located Token)) (ending : Option (Located LexError))
    (fuel : Nat) : Prop where
  stmt : Tracks tokens ending (stmt fuel) fun _ => True
  stmts : Tracks tokens ending (stmts fuel) fun _ => True
  block : Tracks tokens ending (block fuel) fun _ => True

theorem tracks_stmt {fuel : Nat} (ih : StmtTracks tokens ending fuel) :
    Tracks tokens ending (stmt (fuel + 1)) fun _ => True := by
  rw [stmt]
  refine tracks_peek.bind fun t _ => ?_
  split
  · exact tracks_next.bind fun _ _ => tracks_pure trivial
  · exact ih.block
  · exact tracks_ifStmt fuel ih.stmt
  · exact tracks_whileStmt fuel ih.stmt
  · exact tracks_doStmt fuel ih.stmt
  · exact tracks_breakStmt
  · exact tracks_assignment fuel

/-- **Statements are blamed rightly**, by induction on the fuel. -/
theorem stmtTracks (fuel : Nat) : StmtTracks tokens ending fuel := by
  induction fuel with
  | zero =>
    exact {
      stmt := tracks_exhausted
      stmts := tracks_exhausted
      block := tracks_exhausted }
  | succ fuel ih =>
    exact {
      stmt := tracks_stmt ih
      stmts := by
        rw [stmts]
        refine tracks_peek.bind fun t _ => ?_
        split
        · exact tracks_pure trivial
        · exact tracks_pure trivial
        · exact ih.stmt.bind fun _ _ => ih.stmts.bind fun _ _ => tracks_pure trivial
      block := by
        rw [block]
        have hItems : Tracks tokens ending (do decls fuel; stmts fuel) fun _ => True :=
          (tracks_decls fuel).bind fun _ _ => ih.stmts
        exact (tracks_expect _).bind fun _ _ => (tracks_inScope hItems).bind fun _ _ =>
          (tracks_expect _).bind fun _ _ => tracks_pure trivial }

/-! ## Programs -/

theorem tracks_program (fuel : Nat) : Tracks tokens ending (program fuel) fun _ => True := by
  refine (stmtTracks fuel).block.bind fun body _ => tracks_peek.bind fun t _ => ?_
  have hDone : Tracks tokens ending (do return Program.mk body (← get).used) fun _ => True :=
    fun s hs => ⟨hs, trivial⟩
  split
  · refine .next_bind fun found s' hFound hLast hs' => ?_
    exact stays_fail_bind hFound hLast (.trailingInput _)
  · exact hDone

/-- **Every failure is placed where it belongs** (`Blamed`). If a program is not read, the failure
is at one of the tokens and about it, or at the last one where tokens are missing, or it is the
failure of the lexer. -/
theorem blamed_of_read {failure : Located CompileError}
    (h : (readTokens tokens ending).outcome = .error (.error failure)) :
    Blamed tokens ending failure := by
  -- at first no token has been read, and the last place is the start of the text
  have hStart : Along tokens ending (.initial tokens ending) := ⟨⟨[], rfl, rfl⟩, rfl⟩
  have hRun : Yields (program (fuelFor tokens.length)) (.initial tokens ending)
      (fun _ _ => True) (fun stop _ => StopsRightly tokens ending stop) :=
    Yields.mono (tracks_program (fuelFor tokens.length) _ hStart) (fun _ _ _ => trivial)
      fun _ _ hStop => hStop
  rcases outcome_of_yields hRun with ⟨p, hOk, -⟩ | ⟨stop, hError, hStop⟩
  · cases hOk.symm.trans h
  · cases hError.symm.trans h
    exact hStop failure rfl

end JumpCode
