import JumpCode.Proofs.Parsing.Earliest
import JumpCode.Proofs.Storage.Layout

/-!
# JumpCode — storage is given out in the order of the text

Whatever the text, each declaration that has been read up to its end is either declared, right
behind all that was declared before, or refused; and it is refused for lack of storage exactly if
the sum would pass the bound. For a program that is read the declared symbols fill its storage.

* `Unfinished` — tokens among which no declaration is complete;
* `StandsBehind` — a declaration in a row of tokens, with those in front of it;
* `Decided` — what becomes of it;
* `Extent` — what has been read and declared when the parser ends;
* `storage_laid_out` — all texts.
-/

namespace JumpCode

open JumpCode.Parser

/-! ## Declarations that have only begun -/

/-- No declaration is complete among these tokens: nowhere in them stand the tokens of a `Decl`. -/
def Unfinished (us : List Token) : Prop :=
  ∀ inner (d : Decl) after, us ≠ inner ++ (d.tokens ++ after)

theorem Undeclaring.unfinished {us : List Token} (h : Undeclaring us) : Unfinished us := by
  rintro inner d after rfl
  obtain ⟨rest, hTokens, -⟩ := d.tokens_eq
  refine h d.base ?_
  rw [hTokens]
  simp

theorem Decl.Begins.unfinished {us : List Token} (h : Decl.Begins us) : Unfinished us := by
  rintro inner d after rfl
  obtain ⟨e, more, hTokens, hMore⟩ := h
  rw [List.append_assoc, List.append_assoc] at hTokens
  obtain ⟨-, -, hAfter⟩ := Decl.tokens_inner hTokens
  exact hMore (List.append_eq_nil_iff.mp hAfter).2

theorem Place.Begins.unfinished {p : Place} {us : List Token} (h : p.Begins us) :
    Unfinished us := by
  cases p with
  | decl => exact Decl.Begins.unfinished h
  | _ => exact h.2.unfinished

/-- A token with which no program goes on (`BeginsSentence`) does not complete a declaration. -/
theorem Place.Begins.unfinished_concat {p : Place} {ts us : List Token} {ds : List Decl} {t : Token}
    (h : p.Begins us) (hLeads : Clause.Leads .block p ts ds)
    (hNot : ¬ BeginsSentence (ts ++ (us ++ [t]))) : Unfinished (us ++ [t]) := by
  intro inner d after hTokens
  rcases List.eq_nil_or_concat after with rfl | ⟨after, t', rfl⟩
  · -- all of the declaration but its semicolon stands in front of the token
    obtain ⟨unended, hDecl⟩ : ∃ unended,
        d.tokens = (.scalar d.base :: unended) ++ [.mark .semicolon] :=
      ⟨dimsTokens d.before ++ .name d.name :: dimsTokens d.after, by simp [Decl.tokens]⟩
    rw [List.append_nil, hDecl, ← List.append_assoc] at hTokens
    obtain ⟨rfl, hLast⟩ := List.append_inj' hTokens rfl
    cases p with
    | decl =>
      obtain ⟨e, more, hBegun, -⟩ := h
      rw [List.append_assoc, List.cons_append] at hBegun
      have hInner : inner = [] := Decl.scalar_first hBegun
      have hFits : Place.decl.Fits d.tokens := ⟨d, rfl⟩
      obtain ⟨x, rest, hWhole⟩ := hLeads.complete hFits
      refine hNot ⟨rest, x, ?_⟩
      rw [hWhole, hInner, hLast, List.nil_append, ← hDecl, List.append_assoc]
    | _ => exact h.2 d.base (by simp)
  · have hSplit : us ++ [t] = (inner ++ (d.tokens ++ after)) ++ [t'] := by simpa using hTokens
    exact h.unfinished inner d after (List.append_inj' hSplit rfl).1

/-! ## Declarations that have been read -/

/-- In these tokens a declaration stands behind others, whose order is that of the text (`Spells`),
with its name here and with these tokens behind it. -/
structure StandsBehind (tokens : List (Located Token)) (ds : List Decl) (d : Decl) (span : Span)
    (after : List (Located Token)) : Prop where
  split : ∃ front own, tokens = front ++ (own ++ after) ∧ Spells (front.map (·.value)) ds ∧
    d.Stands own span

/-- What becomes of a declaration behind others. It is refused if there is no storage left for it;
otherwise it is declared behind all of them, or refused because of its name. The sum that decides,
and the products for the width (`Ty.ProductsFit`), fit into 32 bits. -/
def Decided (symbols : List Symbol) (stop? : Option Stop) (ds : List Decl) (d : Decl)
    (span : Span) : Prop :=
  ∃ type, d.HasType type ∧ type.ProductsFit ∧ declsWidth ds + type.width < UInt32.size ∧
    if maxWidth < declsWidth ds + type.width then
      stop? = some (.error ⟨.semantic (.tooLarge d.name), span⟩)
    else
      symbols[ds.length]? = some ⟨d.name, type, declsWidth ds⟩ ∨
        stop? = some (.error ⟨.semantic (.redeclared d.name), span⟩)

/-- The parser ends in a state, and for a reason if it stops. All declarations up to there are
`Decided`; and if it is for lack of storage that it stops, the last of them is the one to blame. -/
structure Allots (tokens : List (Located Token)) (stop? : Option Stop) (s' : ParserState) :
    Prop where
  decided : ∀ {ds d span after}, StandsBehind tokens ds d span after →
    s'.rest.length ≤ after.length → Decided s'.symbols stop? ds d span
  refused : ∀ {name span}, stop? = some (.error ⟨.semantic (.tooLarge name), span⟩) →
    ∃ ds d, d.name = name ∧ StandsBehind tokens ds d span s'.rest ∧
      maxWidth < declsWidth ds + d.width

/-- What has been read and declared when the parser ends: tokens with whole declarations, which are
`LaidOut`, and other tokens behind them. -/
structure Extent (tokens : List (Located Token)) (ts : List Token) (ds : List Decl)
    (back : List (Located Token)) (s' : ParserState) : Prop where
  read : ∃ front, tokens = front ++ (back ++ s'.rest) ∧ front.map (·.value) = ts
  spells : Spells ts ds
  laid : ∃ used, LaidOut 0 ds s'.symbols used

section

variable {tokens back after : List (Located Token)} {ts : List Token} {ds es : List Decl} {d : Decl}
  {span : Span} {s' : ParserState} {stop? : Option Stop}

/-- A declaration that is `LaidOut` is `Decided`. -/
theorem Extent.decided_laid {more : List Decl} (h : Extent tokens ts (ds ++ d :: more) back s') :
    Decided s'.symbols stop? ds d span := by
  obtain ⟨used, hLaid⟩ := h.laid
  obtain ⟨type, hType, hFits, hSymbol⟩ := hLaid.symbol
  rw [Nat.zero_add] at hFits hSymbol
  have hBound := two_mul_maxWidth_lt
  refine ⟨type, hType, hType.productsFit, by omega, ?_⟩
  rw [if_neg (Nat.not_lt.mpr hFits)]
  exact .inl hSymbol

/-- A declaration that has been read is one of those that are `LaidOut`, or it stands in the tokens
behind them. -/
theorem Extent.locate (h : Extent tokens ts es back s')
    (hPlaced : StandsBehind tokens ds d span after) (hRead : s'.rest.length ≤ after.length) :
    (∃ more, es = ds ++ d :: more) ∨
      ∃ inner behind, back.map (·.value) = inner ++ (d.tokens ++ behind) ∧
        (inner = [] → behind = [] → ds = es ∧ d.Stands back span) := by
  obtain ⟨front, hTokens, rfl⟩ := h.read
  obtain ⟨front', own, hTokens', hSpells, hStands⟩ := hPlaced.split
  -- the tokens that have been read reach up to the end of the declaration
  obtain ⟨rest, hSplit⟩ : ∃ rest, front ++ back = front' ++ (own ++ rest) := by
    have hSame : (front ++ back) ++ s'.rest = (front' ++ own) ++ after := by
      rw [List.append_assoc, List.append_assoc, ← hTokens, hTokens']
    rcases List.append_eq_append_iff.mp hSame with ⟨rest, hFront, hRest⟩ | ⟨rest, hFront, -⟩
    · have hLength := congrArg List.length hRest
      rw [List.length_append] at hLength
      obtain rfl : rest = [] := List.eq_nil_of_length_eq_zero (by omega)
      exact ⟨[], by rw [List.append_nil, hFront, List.append_nil]⟩
    · exact ⟨rest, by rw [hFront, List.append_assoc]⟩
  have hValues := congrArg (List.map (·.value)) hSplit
  simp only [List.map_append, hStands.tokens] at hValues
  -- either it is among the whole declarations there, or it has to be in the tokens behind them
  rcases h.spells.locate hSpells hValues with hWithin | ⟨inner, hBack, hFront, hSame⟩
  · exact .inl hWithin
  refine .inr ⟨inner, _, hBack, fun hInner hRest => ⟨hSame hInner, ?_⟩⟩
  -- nothing is in front of the declaration and nothing behind it
  rw [List.map_eq_nil_iff] at hRest
  have hLength := congrArg List.length hFront
  rw [hInner, List.append_nil, List.length_map, List.length_map] at hLength
  rw [hRest, List.append_nil] at hSplit
  rw [(List.append_inj hSplit hLength.symm).2]
  exact hStands

/-- Where no declaration has been left undecided (`Unfinished`), all that have been read are
`Decided`. -/
theorem Extent.allots (h : Extent tokens ts es back s')
    (hUnfinished : Unfinished (back.map (·.value)))
    (hOther : ∀ name span, stop? ≠ some (.error ⟨.semantic (.tooLarge name), span⟩)) :
    Allots tokens stop? s' where
  decided hPlaced hRead := by
    rcases h.locate hPlaced hRead with ⟨more, rfl⟩ | ⟨inner, behind, hBack, -⟩
    · exact h.decided_laid
    · exact absurd hBack (hUnfinished _ _ _)
  refused hStop := absurd hStop (hOther _ _)

end

section Programs

variable {tokens : List (Located Token)} {ending : Option (Located LexError)}

/-- Where no token is left, no rule is broken. -/
theorem EndsIn.not_semantic {error : SemanticError} {span : Span}
    (h : EndsIn ending (.error ⟨.semantic error, span⟩)) : False := by
  cases ending with
  | some failure => cases h
  | none =>
    obtain ⟨_, _, -, hStop⟩ := h
    cases hStop

/-- A way from the start of a program (`Course`), and what has been read behind it, have this
`Extent`. -/
theorem Course.extent {s₁ s' : ParserState} {ts : List Token} {ds : List Decl}
    {back : List (Located Token)} (h : Course (.initial tokens ending) ts ds s₁)
    (hSpells : Spells ts ds) (hBack : s₁.rest = back ++ s'.rest) (hStill : Still s₁ s') :
    Extent tokens ts ds back s' := by
  obtain ⟨front, hTokens, hFront⟩ := h.read
  obtain ⟨xs, hSymbols, hLaid⟩ := h.laid
  have hTokens : tokens = front ++ s₁.rest := hTokens
  refine ⟨⟨front, by rw [hTokens, hBack], hFront⟩, hSpells, s₁.used, ?_⟩
  -- at the start nothing is declared
  rw [hStill.symbols, hSymbols]
  exact hLaid

/-- A declaration is `Refused` behind others, and all in front of it are declared. -/
theorem Refused.allots {s₁ s' : ParserState} {ts : List Token} {es : List Decl} {e : Decl}
    {type : Ty} {stop : Stop} (h : Refused s₁ e type stop s')
    (hCourse : Course (.initial tokens ending) ts es s₁) (hSpells : Spells ts es) :
    Allots tokens (some stop) s' := by
  obtain ⟨own, span', hRest, hStands, rfl⟩ := h.read
  have hExtent := hCourse.extent hSpells hRest h.still
  obtain ⟨xs, -, hLaid⟩ := hCourse.laid
  have hUsed : s₁.used = declsWidth es := by
    rw [hLaid.used_eq]
    exact Nat.zero_add _
  have hBound := two_mul_maxWidth_lt
  have hSum : declsWidth es + type.width < UInt32.size := by
    have hBefore : s₁.used ≤ maxWidth := hLaid.used_le (Nat.zero_le _)
    have hWidth := type.width_le
    omega
  refine ⟨fun {ds d span after} hPlaced hRead => ?_, fun {name span} hStop => ?_⟩
  -- a declaration that is not laid out can only be the one that is refused
  · rcases hExtent.locate hPlaced hRead with ⟨more, rfl⟩ | ⟨inner, behind, hBack, hSame⟩
    · exact hExtent.decided_laid
    · rw [hStands.tokens] at hBack
      obtain ⟨hInner, rfl, hBehind⟩ := Decl.tokens_inner hBack
      obtain ⟨rfl, hStands'⟩ := hSame hInner hBehind
      cases hStands.unique hStands'
      refine ⟨type, h.hasType, h.hasType.productsFit, hSum, ?_⟩
      rw [hUsed, refusal]
      split
      · rfl
      · exact .inr rfl
  · rw [hUsed, refusal] at hStop
    split at hStop
    · next hLarge =>
      cases hStop
      obtain ⟨front, hTokens, rfl⟩ := hExtent.read
      rw [h.hasType.width] at hLarge
      exact ⟨es, e, rfl, ⟨front, own, hTokens, hSpells, hStands⟩, hLarge⟩
    · cases hStop

theorem stops_allots {stop : Stop} {s' : ParserState}
    (hRun : program (fuelFor tokens.length) (.initial tokens ending) = .error stop s') :
    Allots tokens (some stop) s' := by
  obtain @⟨p, ts, ds, s₁, hLeads, hCourse, hStops⟩ := (program_stops _ _).of_error hRun
  have hSpells := hLeads.spells
  cases hStops with
  | refused hRefused => exact hRefused.allots hCourse hSpells
  | halt hHalt =>
    cases hHalt with
    | exhausted => exact absurd (outcome_of_run hRun) (readTokens_ne_exhausted tokens ending)
    | @found read t error _ hRest hBegins hFound hStill =>
      have hBack := hRest.trans (List.append_cons ..)
      refine (hCourse.extent hSpells hBack hStill).allots ?_ (by simp)
      -- the token that is refused might have ended a declaration, but no program goes on with it
      rw [List.map_append]
      refine hBegins.unfinished_concat hLeads ?_
      obtain ⟨front, hTokens, rfl⟩ := hCourse.read
      rw [hRest, ← List.append_assoc] at hTokens
      have hNot := (struck hTokens hRun
        (.inr ⟨⟨error, t.value, t.span, hFound, rfl⟩, Nat.le_refl _⟩)).1
      simpa using hNot
    | repeated hRest hNext hBegins hStill =>
      have hBack := hRest.trans (List.append_cons ..)
      refine (hCourse.extent hSpells hBack hStill).allots ?_ (by simp)
      rw [List.map_append]
      exact hBegins.unfinished
    | semantic hRest hBegins hOther hStill =>
      refine (hCourse.extent hSpells hRest hStill).allots hBegins.unfinished ?_
      -- the rule that is broken is not one about declarations
      rintro name span hStop
      cases hStop
      exact hOther trivial
    | @atEnd _ _ hEnd hRest hBegins hStill =>
      have hBack : s₁.rest = s₁.rest ++ s'.rest := by rw [hRest, List.append_nil]
      refine (hCourse.extent hSpells hBack hStill).allots hBegins.unfinished ?_
      rintro name span hStop
      cases hStop
      exact hEnd.not_semantic

/-- The symbols that are declared while a text is read, in order, as the `log` of the `Reading` has
them. -/
def Reading.symbols (r : Reading) : List Symbol := r.log.filterMap Event.symbol?

/-- What the log of a `Reading` declares is what the parser has declared when it ends. -/
theorem symbols_of_run {p : Program} {s' : ParserState}
    (h : program (fuelFor tokens.length) (.initial tokens ending) = .ok p s') :
    (readTokens tokens ending).symbols = s'.symbols := by
  rw [Reading.symbols, readTokens, h]
  rfl

/-- A program that is read: the declarations of its derivation are `LaidOut`, they `Tiles` the
storage, and its variables are the symbols that they create. -/
theorem tiles_of_read {p : Program} (h : (readTokens tokens ending).outcome = .ok p) :
    ∃ d : Clause .block, d.tokens = tokens.map (·.value) ∧ d.IsProgram p ∧
      Tiles d.decls (readTokens tokens ending).symbols p.width ∧
      ∀ x ∈ p.body.symbols, x ∈ (readTokens tokens ending).symbols := by
  obtain ⟨s', hRun⟩ := run_of_ok h
  obtain ⟨hRest, -, e, hCourse⟩ := (program_stops _ _).of_ok hRun
  obtain ⟨located, hLocated, hValues⟩ := hCourse.read
  obtain ⟨xs, hSymbols, hLaid⟩ := hCourse.laid
  have hLocated : tokens = located ++ s'.rest := hLocated
  rw [hRest, List.append_nil] at hLocated
  obtain ⟨-, d, hTokens, -, t, hMeans, hWidth⟩ := exists_derivation h
  obtain ⟨ys, hLaid', hAmong⟩ := hMeans.laidOut
  -- the declarations on the way are those of the derivation, since they stand in the same text
  have hDecls : e.decls = d.decls := by
    refine e.spells.unique ?_
    rw [← hValues, ← hLocated, ← hTokens]
    exact d.spells
  obtain ⟨rfl, -⟩ := hLaid.unique (hDecls ▸ hLaid')
  rw [symbols_of_run hRun, hSymbols]
  refine ⟨d, hTokens, ⟨t, hMeans, hWidth⟩, hWidth ▸ hLaid'.tiles, fun x hx => ?_⟩
  have hLeaf : .var x ∈ p.body.leaves := by
    obtain ⟨o, hLeaf, hSymbol⟩ := List.mem_filterMap.mp hx
    cases o with
    | var y => exact Option.some.inj hSymbol ▸ hLeaf
    | _ => cases hSymbol
  rcases hAmong x hLeaf with hDeclared | ⟨frame, hFrame, hMem⟩
  · exact hDeclared
  · -- outside of all blocks nothing is in force
    obtain rfl := List.mem_singleton.mp hFrame
    cases hMem

/-- **Storage is laid out in the order of the text.** For a program that is read, the declarations
in the text create symbols that fill its storage, one behind the other: the symbols that are
declared, among them all that its tree mentions. For any text, each declaration that has been read
is decided by the sum of the widths in front of it and its own: it is refused for lack of storage
exactly if this sum passes the bound, and nothing else is refused so. All products and sums on the
way fit into 32 bits; an array whose width does not is refused before there is such a type. -/
theorem storage_laid_out (tokens : List (Located Token)) (ending : Option (Located LexError)) :
    (∀ p, (readTokens tokens ending).outcome = .ok p →
      ∃ d : Clause .block, d.tokens = tokens.map (·.value) ∧ d.IsProgram p ∧
        Tiles d.decls (readTokens tokens ending).symbols p.width ∧
        ∀ x ∈ p.body.symbols, x ∈ (readTokens tokens ending).symbols) ∧
    (∀ p s', program (fuelFor tokens.length) (.initial tokens ending) = .ok p s' →
      Allots tokens none s') ∧
    (∀ stop s', program (fuelFor tokens.length) (.initial tokens ending) = .error stop s' →
      Allots tokens (some stop) s') ∧
    ∀ (n : Nat) (of : Ty), UInt32.size ≤ n * of.width → Ty.array? n of = none := by
  refine ⟨fun p h => tiles_of_read h, fun p s' hRun => ?_, fun stop s' hRun => stops_allots hRun,
    fun n of hWide => ?_⟩
  · obtain ⟨hRest, -, d, hCourse⟩ := (program_stops _ _).of_ok hRun
    have hExtent : Extent tokens _ _ [] s' := hCourse.extent d.spells rfl (.refl _)
    exact hExtent.allots undeclaring_nil.unfinished (by simp)
  · have hBound := two_mul_maxWidth_lt
    exact Ty.array?_eq_none_iff.mpr (by omega)

end Programs

/-- A block in which the first array leaves three bytes: `{ int [536870911] a; int b; }`. -/
def crowdedTokens : List (Located Token) :=
  ([.mark .openCurly, .scalar .int, .mark .openSquare, .intLiteral 536870911, .mark .closeSquare,
    .name "a", .mark .semicolon, .scalar .int, .name "b", .mark .semicolon,
    .mark .closeCurly] : List Token).map (⟨·, .first⟩)

/-- The declarations of the sample fill 21 bytes. In the crowded block the second declaration is
refused, since the sum of the widths passes the bound there. -/
theorem storage_laid_out_sample :
    (∃ (p : Program) (d : Clause .block), (readTokens sampleTokens none).outcome = .ok p ∧
      d.tokens = sampleTokens.map (·.value) ∧ d.IsProgram p ∧
      Tiles d.decls (readTokens sampleTokens none).symbols p.width ∧
      (∀ x ∈ p.body.symbols, x ∈ (readTokens sampleTokens none).symbols) ∧
      (readTokens sampleTokens none).symbols.map (·.offset) = [0, 16, 20]) ∧
    (readTokens crowdedTokens none).outcome =
      .error (.error ⟨.semantic (.tooLarge "b"), .first⟩) ∧
    ∃ ds d after, d.name = "b" ∧ StandsBehind crowdedTokens ds d .first after ∧
      maxWidth < declsWidth ds + d.width := by
  have hCrowded : (readTokens crowdedTokens none).outcome =
      .error (.error ⟨.semantic (.tooLarge "b"), .first⟩) :=
    Reading.outcome_of_failure? (by decide +kernel)
  refine ⟨?_, hCrowded, ?_⟩
  · obtain ⟨p, hRead⟩ := exists_sample
    obtain ⟨d, hTokens, hProgram, hTiles, hAmong⟩ := (storage_laid_out sampleTokens none).1 p hRead
    exact ⟨p, d, hRead, hTokens, hProgram, hTiles, hAmong, by decide +kernel⟩
  · obtain ⟨s', hRun⟩ := run_of_outcome hCrowded
    obtain ⟨ds, d, hName, hPlaced, hSum⟩ :=
      ((storage_laid_out crowdedTokens none).2.2.1 _ s' hRun).refused rfl
    exact ⟨ds, d, _, hName, hPlaced, hSum⟩

end JumpCode
