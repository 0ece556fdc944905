import JumpCode.Proofs.Rules

/-!
# JumpCode — the rules determine the tree

A derivation stands for one tree at most: under the same declarations, inside of the same loop and
behind the same storage and loops, two trees for it are the same tree.

* `Phrase.Means.unique` — expressions;
* `Declares.unique` — the scope and storage that declarations lead to;
* `Clause.Means.unique` — statements, with what they take up.
-/

namespace JumpCode

theorem Binary.unique {op : BinaryOp} {a b e e' : Expr} (h : Binary op a b e)
    (h' : Binary op a b e') : e = e' := by
  -- operators are functions where they do not refuse
  rw [← binary_eq_ok_iff] at h h'
  exact Except.ok.inj (h.symm.trans h')

theorem Unary.unique {op : UnaryOp} {a e e' : Expr} (h : Unary op a e) (h' : Unary op a e') :
    e = e' := by
  rw [← unary_eq_ok_iff] at h h'
  exact Except.ok.inj (h.symm.trans h')

theorem Phrase.Means.unique {Γ : Scope} {r : Rank} {x : Phrase r} {a b : Expr}
    (h : x.Means Γ a) (h' : x.Means Γ b) : a = b := by
  -- the derivation fixes the rule, so that only names, types and operators may vary
  induction h generalizing b with
  | pass _ ih => cases h' with | pass hx => exact ih hx
  | binary _ _ hOp ihx ihy =>
    cases h' with
    | binary hx hy hOp' =>
      cases ihx hx
      cases ihy hy
      exact hOp.unique hOp'
  | unary _ hOp ih =>
    cases h' with
    | unary hx hOp' =>
      cases ih hx
      exact hOp.unique hOp'
  | paren _ ih => cases h' with | paren hx => exact ih hx
  | int => cases h'; rfl
  | real => cases h'; rfl
  | truth => cases h'; rfl
  | name hName =>
    cases h' with
    | name hName' => rw [Option.some.inj (hName.symm.trans hName')]
  | access _ ih => cases h' with | access hx => exact ih hx
  | element hName _ hArray hTerm ih =>
    cases h' with
    | element hName' hIndex hArray' hTerm' =>
      cases Option.some.inj (hName.symm.trans hName')
      cases Option.some.inj (hArray.symm.trans hArray')
      cases ih hIndex
      rw [hTerm.unique hTerm']
  | next _ _ hArray hTerm hSum ihx ih =>
    cases h' with
    | next hx hIndex hArray' hTerm' hSum' =>
      -- the array, the index so far and its type are those of the element in front
      cases ihx hx
      cases ih hIndex
      cases Option.some.inj (hArray.symm.trans hArray')
      cases hTerm.unique hTerm'
      rw [hSum.unique hSum']

theorem Ty.eq_of_lengths {t u : Ty} (hBase : t.base = u.base) (hLengths : t.lengths = u.lengths) :
    t = u := by
  cases t
  cases u
  cases hBase
  cases hLengths
  rfl

theorem Decl.HasType.unique {d : Decl} {t u : Ty} (h : d.HasType t) (h' : d.HasType u) : t = u :=
  Ty.eq_of_lengths (h.1.trans h'.1.symm) (h.2.trans h'.2.symm)

theorem Declares.unique {Γ Γ₁ Γ₂ : Scope} {used u₁ u₂ : Nat} {ds : List Decl}
    (h : Declares Γ used ds Γ₁ u₁) (h' : Declares Γ used ds Γ₂ u₂) : Γ₁ = Γ₂ ∧ u₁ = u₂ := by
  induction h with
  | nil => cases h'; exact ⟨rfl, rfl⟩
  | cons hType _ _ _ ih =>
    cases h' with
    | cons hType' _ _ hRest =>
      cases hType.unique hType'
      exact ih hRest

theorem Clause.Means.unique {Γ : Scope} {loop : Option LoopExit} {k : Kind} {x : Clause k}
    {t t₁ t₂ : Tally} {s s' : k.Tree} (h : x.Means Γ loop t s t₁) (h' : x.Means Γ loop t s' t₂) :
    s = s' ∧ t₁ = t₂ := by
  -- each part starts from the tally that the one in front leaves
  induction h generalizing t₂ with
  | empty => cases h'; exact ⟨rfl, rfl⟩
  | block _ ih => cases h' with | block hBlock => exact ih hBlock
  | set hName hValue _ =>
    cases h' with
    | set hName' hValue' _ =>
      cases Option.some.inj (hName.symm.trans hName')
      cases hValue.unique hValue'
      exact ⟨rfl, rfl⟩
  | store hTarget hValue _ =>
    cases h' with
    | store hTarget' hValue' _ =>
      cases hTarget.unique hTarget'
      cases hValue.unique hValue'
      exact ⟨rfl, rfl⟩
  | ifThen hTest _ _ ih =>
    cases h' with
    | ifThen hTest' _ hBody =>
      cases hTest.unique hTest'
      obtain ⟨rfl, rfl⟩ := ih hBody
      exact ⟨rfl, rfl⟩
  | ifElse hTest _ _ _ ih ih' =>
    cases h' with
    | ifElse hTest' _ hBody hOtherwise =>
      cases hTest.unique hTest'
      obtain ⟨rfl, rfl⟩ := ih hBody
      obtain ⟨rfl, rfl⟩ := ih' hOtherwise
      exact ⟨rfl, rfl⟩
  | whileLoop hTest _ _ ih =>
    cases h' with
    | whileLoop hTest' _ hBody =>
      cases hTest.unique hTest'
      obtain ⟨rfl, rfl⟩ := ih hBody
      exact ⟨rfl, rfl⟩
  | doLoop _ hTest _ ih =>
    cases h' with
    | doLoop hBody hTest' _ =>
      cases hTest.unique hTest'
      obtain ⟨rfl, rfl⟩ := ih hBody
      exact ⟨rfl, rfl⟩
  | leave => cases h'; exact ⟨rfl, rfl⟩
  | nil => cases h'; exact ⟨rfl, rfl⟩
  | cons _ _ ih ih' =>
    cases h' with
    | cons hFirst hOthers =>
      obtain ⟨rfl, rfl⟩ := ih hFirst
      obtain ⟨rfl, rfl⟩ := ih' hOthers
      exact ⟨rfl, rfl⟩
  | braces hDecls _ ih =>
    cases h' with
    | braces hDecls' hItems =>
      obtain ⟨rfl, rfl⟩ := hDecls.unique hDecls'
      obtain ⟨rfl, rfl⟩ := ih hItems
      exact ⟨rfl, rfl⟩

end JumpCode
