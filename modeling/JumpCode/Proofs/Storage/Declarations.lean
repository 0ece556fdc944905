import JumpCode.Proofs.Rules

/-!
# JumpCode — declarations in the order of the text

Storage knows no blocks: the declarations of a program lie one behind the other in the order of the
text, in whichever blocks they stand.

* `Clause.decls` — the declarations in a derivation;
* `LaidOut` — symbols that lie one behind the other, each declared by one of some declarations.
-/

namespace JumpCode

/-- All declarations in a derivation, in the order of the text, whatever block they stand in. -/
@[simp] def Clause.decls : {k : Kind} → Clause k → List Decl
  | _, block b => b.decls
  | _, ifThen _ body => body.decls
  | _, ifElse _ body otherwise => body.decls ++ otherwise.decls
  | _, whileLoop _ body => body.decls
  | _, doLoop body _ => body.decls
  | _, cons first others => first.decls ++ others.decls
  | _, braces decls items => decls ++ items.decls
  | _, _ => []

/-- From one amount of storage to the other, declarations create symbols: each by its name, of the
type that it gives (`Decl.HasType`), and right behind all storage that is taken before. None reaches
beyond what can be addressed (`maxWidth`). -/
inductive LaidOut : Nat → List Decl → List Symbol → Nat → Prop
  | nil {used : Nat} : LaidOut used [] [] used
  | cons {used used' : Nat} {d : Decl} {ds : List Decl} {type : Ty} {xs : List Symbol}
      (hType : d.HasType type) (hFits : used + type.width ≤ maxWidth)
      (hRest : LaidOut (used + type.width) ds xs used') :
      LaidOut used (d :: ds) (⟨d.name, type, used⟩ :: xs) used'

namespace LaidOut

variable {used used' used'' : Nat} {ds es : List Decl} {xs ys : List Symbol}

theorem append (h : LaidOut used ds xs used') (h' : LaidOut used' es ys used'') :
    LaidOut used (ds ++ es) (xs ++ ys) used'' := by
  induction h with
  | nil => exact h'
  | cons hType hFits _ ih => exact .cons hType hFits (ih h')

/-- A declaration gives one type at most, so that there is one way to lay out declarations
(`LaidOut`). -/
theorem unique (h : LaidOut used ds xs used') (h' : LaidOut used ds ys used'') :
    xs = ys ∧ used' = used'' := by
  induction h generalizing ys with
  | nil =>
    cases h'
    exact ⟨rfl, rfl⟩
  | @cons used used' d ds type xs hType _ _ ih =>
    cases h' with
    | @cons _ _ _ _ type' ys hType' _ hRest =>
      obtain ⟨base, lengths, hAddressable⟩ := type
      obtain ⟨base', lengths', hAddressable'⟩ := type'
      obtain ⟨rfl, rfl⟩ := hType
      obtain ⟨rfl, rfl⟩ := hType'
      obtain ⟨rfl, hUsed⟩ := ih hRest
      exact ⟨rfl, hUsed⟩

end LaidOut

/-- Declarations that obey the rules (`Declares`) create the symbols that they add to the scope. -/
theorem Declares.laidOut {Γ Γ' : Scope} {used used' : Nat} {ds : List Decl}
    (h : Declares Γ used ds Γ' used') :
    ∃ xs, LaidOut used ds xs used' ∧ Γ' = { Γ with frame := xs.reverse ++ Γ.frame } := by
  induction h with
  | nil => exact ⟨[], .nil, rfl⟩
  | cons hType hFits _ _ ih =>
    obtain ⟨xs, hRest, rfl⟩ := ih
    exact ⟨_, .cons hType hFits hRest, by simp⟩

/-! ## Declarations in a row of tokens -/

/-- No declaration begins among these tokens: none of them names a `Scalar`. -/
def Undeclaring (ts : List Token) : Prop := ∀ b, Token.scalar b ∉ ts

@[simp] theorem undeclaring_nil : Undeclaring [] := by simp [Undeclaring]

@[simp] theorem undeclaring_cons {t : Token} {ts : List Token} :
    Undeclaring (t :: ts) ↔ (∀ b, Token.scalar b ≠ t) ∧ Undeclaring ts := by
  simp [Undeclaring, forall_and]

@[simp] theorem undeclaring_append {ts us : List Token} :
    Undeclaring (ts ++ us) ↔ Undeclaring ts ∧ Undeclaring us := by
  simp [Undeclaring, forall_and]

/-- Expressions declare nothing: their tokens are `Undeclaring`. -/
theorem Phrase.undeclaring {r : Rank} (x : Phrase r) : Undeclaring x.tokens := by
  induction x <;> simp_all [tokens, parenthesized, bracketed]

theorem dimsTokens_undeclaring (ns : List Int) : Undeclaring (dimsTokens ns) := by
  simp [Undeclaring, dimsTokens, bracketed]

/-- What a declaration consists of: the `Scalar` comes first, and nowhere else. -/
theorem Decl.tokens_eq (d : Decl) :
    ∃ rest, d.tokens = .scalar d.base :: rest ∧ Undeclaring rest :=
  ⟨_, rfl, by simp [dimsTokens_undeclaring]⟩

/-- Dimensions (`dimsTokens`) end where no bracket follows. -/
theorem dimsTokens_cancel {ns ms : List Int} {ts us : List Token}
    (hts : ts.head? ≠ some (.mark .openSquare)) (hus : us.head? ≠ some (.mark .openSquare))
    (h : dimsTokens ns ++ ts = dimsTokens ms ++ us) : ns = ms ∧ ts = us := by
  induction ns generalizing ms with
  | nil =>
    cases ms with
    | nil => exact ⟨rfl, h⟩
    | cons m ms => exact absurd (congrArg List.head? h) hts
  | cons n ns ih =>
    cases ms with
    | nil => exact absurd (congrArg List.head? h).symm hus
    | cons m ms =>
      have hCons (k : Int) (ks : List Int) (rest : List Token) : dimsTokens (k :: ks) ++ rest =
          .mark .openSquare :: .intLiteral k :: .mark .closeSquare :: (dimsTokens ks ++ rest) := rfl
      rw [hCons, hCons] at h
      obtain ⟨-, h⟩ := List.cons.inj h
      obtain ⟨hLength, h⟩ := List.cons.inj h
      obtain ⟨-, h⟩ := List.cons.inj h
      obtain ⟨rfl, hRest⟩ := ih h
      cases hLength
      exact ⟨rfl, hRest⟩

/-- A declaration ends with its semicolon: no other one begins in the same way. -/
theorem Decl.tokens_cancel {d e : Decl} {ts us : List Token} (h : d.tokens ++ ts = e.tokens ++ us) :
    d = e ∧ ts = us := by
  obtain ⟨base, before, name, after, hSides⟩ := d
  obtain ⟨base', before', name', after', hSides'⟩ := e
  simp only [tokens, List.cons_append, List.append_assoc] at h
  obtain ⟨hBase, hRest⟩ := List.cons.inj h
  obtain ⟨hBefore, hFromName⟩ := dimsTokens_cancel (by simp) (by simp) hRest
  obtain ⟨hName, hBehind⟩ := List.cons.inj hFromName
  obtain ⟨hAfter, hEnd⟩ := dimsTokens_cancel (by simp) (by simp) hBehind
  cases hBase
  cases hBefore
  cases hName
  cases hAfter
  exact ⟨rfl, (List.cons.inj hEnd).2⟩

theorem Decl.scalar_first {d : Decl} {b : Scalar} {inner rest : List Token}
    (h : d.tokens = inner ++ .scalar b :: rest) : inner = [] := by
  cases inner with
  | nil => rfl
  | cons t inner =>
    obtain ⟨tail, hTokens, hTail⟩ := d.tokens_eq
    rw [hTokens] at h
    obtain ⟨-, rfl⟩ := List.cons.inj h
    exact absurd (by simp) (hTail b)

/-- Inside of a declaration there is no other one. -/
theorem Decl.tokens_inner {d e : Decl} {inner after : List Token}
    (h : d.tokens = inner ++ (e.tokens ++ after)) : inner = [] ∧ d = e ∧ after = [] := by
  obtain rfl : inner = [] := scalar_first h
  rw [List.nil_append, ← List.append_nil d.tokens] at h
  obtain ⟨rfl, hAfter⟩ := tokens_cancel h
  exact ⟨rfl, rfl, hAfter.symm⟩

/-- These declarations stand in a row of tokens, in the order of the text: each of them as a whole,
and none begins in what is between them (`Undeclaring`). -/
inductive Spells : List Token → List Decl → Prop
  | nil : Spells [] []
  | other {t : Token} {ts : List Token} {ds : List Decl} (hOther : ∀ b, Token.scalar b ≠ t)
      (h : Spells ts ds) : Spells (t :: ts) ds
  | decl (d : Decl) {ts : List Token} {ds : List Decl} (h : Spells ts ds) :
      Spells (d.tokens ++ ts) (d :: ds)

namespace Spells

variable {ts us : List Token} {ds es : List Decl}

theorem append (h : Spells ts ds) (h' : Spells us es) : Spells (ts ++ us) (ds ++ es) := by
  induction h with
  | nil => exact h'
  | other hOther _ ih => exact .other hOther ih
  | decl d _ ih =>
    rw [List.append_assoc]
    exact .decl d ih

theorem ofUndeclaring (h : Undeclaring ts) : Spells ts [] := by
  induction ts with
  | nil => exact .nil
  | cons t ts ih =>
    rw [undeclaring_cons] at h
    exact .other h.1 (ih h.2)

theorem ofDecls (ds : List Decl) : Spells (ds.flatMap Decl.tokens) ds := by
  induction ds with
  | nil => exact .nil
  | cons d ds ih => exact .decl d ih

/-- Tokens in front of which nothing is declared. -/
theorem cons_append (us : List Token) (h : Spells ts ds) (hus : Undeclaring us) :
    Spells (us ++ ts) ds :=
  (ofUndeclaring hus).append h

theorem eq_nil (h : Spells ts ds) (hts : ts = []) : ds = [] := by
  cases h with
  | nil => rfl
  | other => cases hts
  | decl d => simp [Decl.tokens] at hts

/-- A declaration that begins with a token is not what another token begins. -/
theorem head_ne {t : Token} {d : Decl} {rest rest' : List Token} (hOther : ∀ b, Token.scalar b ≠ t)
    (h : t :: rest = d.tokens ++ rest') : False := hOther d.base (List.cons.inj h).1.symm

/-- The declarations in some tokens are determined by them: `Spells` reads them off. -/
theorem unique (h : Spells ts ds) (h' : Spells ts es) : ds = es := by
  induction h generalizing es with
  | nil => exact (h'.eq_nil rfl).symm
  | @other t ts _ hOther _ ih =>
    generalize hTokens : t :: ts = us at h'
    cases h' with
    | nil => cases hTokens
    | other _ h' =>
      obtain ⟨rfl, rfl⟩ := List.cons.inj hTokens
      exact ih h'
    | decl e _ => exact (head_ne hOther hTokens).elim
  | @decl d ts _ _ ih =>
    generalize hTokens : d.tokens ++ ts = us at h'
    cases h' with
    | nil => simp [Decl.tokens] at hTokens
    | other hOther _ => exact (head_ne hOther hTokens.symm).elim
    | decl e h' =>
      obtain ⟨rfl, rfl⟩ := Decl.tokens_cancel hTokens
      rw [ih h']

/-- **A declaration behind others is found among those in the tokens**, or it stands, as a whole or
in part, behind the tokens. -/
theorem locate {front after : List Token} {d : Decl} (h : Spells ts es) (hFront : Spells front ds)
    (hSplit : ts ++ us = front ++ (d.tokens ++ after)) :
    (∃ more, es = ds ++ d :: more) ∨
      ∃ inner, us = inner ++ (d.tokens ++ after) ∧ front = ts ++ inner ∧
        (inner = [] → ds = es) := by
  -- both sides are read from the left, and a declaration ends in one way only
  induction h generalizing front ds with
  | nil => exact .inr ⟨front, hSplit, rfl, hFront.eq_nil⟩
  | other hOther _ ih =>
    cases hFront with
    | nil => exact (head_ne hOther hSplit).elim
    | other _ hFront =>
      obtain ⟨rfl, hRest⟩ := List.cons.inj hSplit
      rcases ih hFront hRest with hWithin | ⟨inner, hus, rfl, hSame⟩
      · exact .inl hWithin
      · exact .inr ⟨inner, hus, rfl, hSame⟩
    | decl e _ =>
      rw [List.append_assoc] at hSplit
      exact (head_ne hOther hSplit).elim
  | decl e _ ih =>
    rw [List.append_assoc] at hSplit
    cases hFront with
    | nil =>
      obtain ⟨rfl, -⟩ := Decl.tokens_cancel hSplit
      exact .inl ⟨_, rfl⟩
    | other hOther _ => exact (head_ne hOther hSplit.symm).elim
    | decl e' hFront =>
      rw [List.append_assoc] at hSplit
      obtain ⟨rfl, hRest⟩ := Decl.tokens_cancel hSplit
      rcases ih hFront hRest with ⟨more, rfl⟩ | ⟨inner, hus, rfl, hSame⟩
      · exact .inl ⟨more, rfl⟩
      · exact .inr ⟨inner, hus, (List.append_assoc ..).symm, fun h => by rw [hSame h]⟩

end Spells

/-- The declarations in a derivation (`Clause.decls`) are those in its tokens. -/
theorem Clause.spells {k : Kind} (x : Clause k) : Spells x.tokens x.decls := by
  -- declarations stand in blocks alone; around the parts of a clause are tokens that declare
  -- nothing
  induction x with
  | block b ih => exact ih
  | nil => exact .nil
  | cons first others ihFirst ihOthers => exact ihFirst.append ihOthers
  | braces ds items ih =>
    have hClose : Undeclaring [.mark .closeCurly] := by simp
    -- the block opens, declares, goes on with its statements, and closes
    have hInside := ((Spells.ofDecls ds).append ih).append (.ofUndeclaring hClose)
    rw [List.append_nil, List.append_assoc] at hInside
    exact .other (by simp) hInside
  | ifThen test body ih =>
    exact .cons_append (.keyword .ifWord :: parenthesized test.tokens) ih
      (by simp [parenthesized, test.undeclaring])
  | ifElse test body otherwise ihBody ihOther =>
    have hBoth := ihBody.append (.other (t := .keyword .elseWord) (by simp) ihOther)
    exact .cons_append (.keyword .ifWord :: parenthesized test.tokens) hBoth
      (by simp [parenthesized, test.undeclaring])
  | whileLoop test body ih =>
    exact .cons_append (.keyword .whileWord :: parenthesized test.tokens) ih
      (by simp [parenthesized, test.undeclaring])
  | doLoop body test ih =>
    have hTail : Undeclaring (.keyword .whileWord :: (parenthesized test.tokens ++
        [.mark .semicolon])) := by simp [parenthesized, test.undeclaring]
    have hInside := ih.append (.ofUndeclaring hTail)
    rw [List.append_nil] at hInside
    exact .other (by simp) hInside
  | empty => exact .ofUndeclaring (by simp [tokens])
  | leave => exact .ofUndeclaring (by simp [tokens])
  | set target value => exact .ofUndeclaring (by simp [tokens, value.undeclaring])
  | store target value =>
    exact .ofUndeclaring (by simp [tokens, target.undeclaring, value.undeclaring])

end JumpCode
