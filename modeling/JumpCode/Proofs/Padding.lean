import JumpCode.Proofs.Names.Resolution

/-!
# JumpCode — padding

A derivation is padded with empty statements, with empty blocks, and with braces around statements.
Padding takes up no storage and meets no loops, brings nothing into force and hides nothing, and
closes an `if` that could have had an `else` rather than opening one; so what a padded derivation
stands for is what it stood for before.

* `Clause.Padded` — one derivation is another one with padding;
* `Clause.Padded.tokens` — the tokens that it adds;
* `Clause.Padded.nearestElse` — every `else` stays with its `if`;
* `Clause.Padded.means` — the same tree, storage and loops;
* `Clause.Means.compact` — no sequence in a tree has less than two items, or an empty one.
-/

namespace JumpCode

/-! ## Padded derivations -/

/-- A derivation is another one with padding: anywhere among the statements of a block `;` and `{ }`
may be inserted, and any statement may be enclosed in braces. The braces are a block as well, among
the statements of which there may be more padding. The rules up to `braces` are those of a `Clause`;
the last three add to it. -/
inductive Clause.Padded : {k : Kind} → Clause k → Clause k → Prop
  | empty : Padded .empty .empty
  | block {b b' : Clause .block} (hBlock : Padded b b') : Padded (.block b) (.block b')
  | set {text : String} {value : Phrase .bool} : Padded (.set text value) (.set text value)
  | store {target : Phrase .element} {value : Phrase .bool} :
      Padded (.store target value) (.store target value)
  | ifThen {test : Phrase .bool} {body body' : Clause .stmt} (hBody : Padded body body') :
      Padded (.ifThen test body) (.ifThen test body')
  | ifElse {test : Phrase .bool} {body body' otherwise otherwise' : Clause .stmt}
      (hBody : Padded body body') (hOtherwise : Padded otherwise otherwise') :
      Padded (.ifElse test body otherwise) (.ifElse test body' otherwise')
  | whileLoop {test : Phrase .bool} {body body' : Clause .stmt} (hBody : Padded body body') :
      Padded (.whileLoop test body) (.whileLoop test body')
  | doLoop {test : Phrase .bool} {body body' : Clause .stmt} (hBody : Padded body body') :
      Padded (.doLoop body test) (.doLoop body' test)
  | leave : Padded .leave .leave
  | nil : Padded .nil .nil
  | cons {first first' : Clause .stmt} {others others' : Clause .stmts}
      (hFirst : Padded first first') (hOthers : Padded others others') :
      Padded (.cons first others) (.cons first' others')
  | braces {ds : List Decl} {items items' : Clause .stmts} (hItems : Padded items items') :
      Padded (.braces ds items) (.braces ds items')
  /-- A `;` in front of statements, or behind the last. -/
  | insertEmpty {items items' : Clause .stmts} (hItems : Padded items items') :
      Padded items (.cons .empty items')
  /-- A pair of braces in front of statements, or behind the last. -/
  | insertBraces {inside items items' : Clause .stmts} (hInside : Padded .nil inside)
      (hItems : Padded items items') : Padded items (.cons (.block (.braces [] inside)) items')
  /-- Braces around a statement. -/
  | enclose {s : Clause .stmt} {inside : Clause .stmts} (hInside : Padded (.cons s .nil) inside) :
      Padded s (.block (.braces [] inside))

namespace Clause.Padded

variable {k : Kind} {x y : Clause k}

/-- No padding at all is padding: every `Clause` is `Padded` to itself. -/
theorem refl (x : Clause k) : x.Padded x := by
  induction x with
  | empty => exact .empty
  | block _ ih => exact .block ih
  | set => exact .set
  | store => exact .store
  | ifThen _ _ ih => exact .ifThen ih
  | ifElse _ _ _ ih ih' => exact .ifElse ih ih'
  | whileLoop _ _ ih => exact .whileLoop ih
  | doLoop _ _ ih => exact .doLoop ih
  | leave => exact .leave
  | nil => exact .nil
  | cons _ _ ih ih' => exact .cons ih ih'
  | braces _ _ ih => exact .braces ih

end Clause.Padded

/-! ## What padding adds -/

/-- A list is another one with elements inserted of which `P` holds. The others are kept in their
order. -/
inductive Inserts {α : Type} (P : α → Prop) : List α → List α → Prop
  | nil : Inserts P [] []
  | keep {l l' : List α} (a : α) (hMore : Inserts P l l') : Inserts P (a :: l) (a :: l')
  | add {l l' : List α} {a : α} (ha : P a) (hMore : Inserts P l l') : Inserts P l (a :: l')

namespace Inserts

variable {α : Type} {P : α → Prop} {a a' b b' : List α}

theorem refl (l : List α) : Inserts P l l := by
  induction l with
  | nil => exact .nil
  | cons a l ih => exact .keep a ih

theorem append (h : Inserts P a a') (h' : Inserts P b b') : Inserts P (a ++ b) (a' ++ b') := by
  induction h with
  | nil => exact h'
  | keep x _ ih => exact .keep x ih
  | add hx _ ih => exact .add hx ih

/-- Behind elements that stay. -/
theorem behind (l : List α) (h : Inserts P b b') : Inserts P (l ++ b) (l ++ b') :=
  (refl l).append h

/-- Between two of the elements that may be inserted. -/
theorem enclose {x y : α} (hx : P x) (hy : P y) (h : Inserts P a a') :
    Inserts P a (x :: (a' ++ [y])) := by
  have hClosed : Inserts P (a ++ []) (a' ++ [y]) := h.append (.add hy .nil)
  rw [List.append_nil] at hClosed
  exact .add hx hClosed

end Inserts

/-- The tokens that padding consists of: `;` and the two braces. -/
inductive Token.Pads : Token → Prop
  | semicolon : Pads (.mark .semicolon)
  | openCurly : Pads (.mark .openCurly)
  | closeCurly : Pads (.mark .closeCurly)

namespace Clause.Padded

variable {k : Kind} {x y : Clause k}

/-- Padding a derivation pads its tokens: `Inserts` holds of them, with tokens of `Token.Pads`. -/
theorem tokens (h : x.Padded y) : Inserts Token.Pads x.tokens y.tokens := by
  induction h with
  | empty => exact .refl _
  | block _ ih => exact ih
  | set => exact .refl _
  | store => exact .refl _
  | ifThen _ ih => exact .keep _ (.behind _ ih)
  | ifElse _ _ ih ih' => exact .keep _ (.behind _ (ih.append (.keep _ ih')))
  | whileLoop _ ih => exact .keep _ (.behind _ ih)
  | doLoop _ ih => exact .keep _ (ih.append (.refl _))
  | leave => exact .refl _
  | nil => exact .nil
  | cons _ _ ih ih' => exact ih.append ih'
  | braces _ ih => exact .keep _ (.behind _ (ih.append (.refl _)))
  | insertEmpty _ ih => exact .add .semicolon ih
  | insertBraces _ _ ih ih' => exact (ih.enclose .openCurly .closeCurly).append ih'
  | enclose _ ih =>
    have hInside := ih.enclose .openCurly .closeCurly
    simp only [Clause.tokens, List.append_nil] at hInside
    exact hInside

/-! ## Nearest else -/

/-- Padding opens no `if`: a padded derivation that `IsOpen` was open before. It may close one, by
braces around it, but nothing can follow padding that could not follow what was there. -/
theorem isOpen (h : x.Padded y) (hOpen : y.IsOpen) : x.IsOpen := by
  induction h with
  -- what ends in braces or `;` is closed, and so whatever padding has been put around
  | ifThen => trivial
  | ifElse _ _ _ ih => exact ih hOpen
  | whileLoop _ ih => exact ih hOpen
  | _ => cases hOpen

/-- With padding every `else` still belongs to the nearest `if` (`Clause.NearestElse`): by `isOpen`
no first branch is open that was not. -/
theorem nearestElse (h : x.Padded y) (hNearest : x.NearestElse) : y.NearestElse := by
  induction h with
  | block _ ih => exact ih hNearest
  | ifThen _ ih => exact ih hNearest
  | ifElse hBody _ ih ih' =>
    exact ⟨fun hOpen => hNearest.1 (hBody.isOpen hOpen), ih hNearest.2.1, ih' hNearest.2.2⟩
  | whileLoop _ ih => exact ih hNearest
  | doLoop _ ih => exact ih hNearest
  | cons _ _ ih ih' => exact ⟨ih hNearest.1, ih' hNearest.2⟩
  | braces _ ih => exact ih hNearest
  | insertEmpty _ ih => exact ⟨trivial, ih hNearest⟩
  | insertBraces _ _ ih ih' => exact ⟨ih trivial, ih' hNearest⟩
  | enclose _ ih => exact ih ⟨hNearest, trivial⟩
  | _ => trivial

end Clause.Padded

/-! ## Scopes that agree -/

/-- Two scopes have the same declarations in force: `Scope.lookup?` finds the same in both. -/
def Scope.Agrees (Γ Δ : Scope) : Prop := ∀ name, Γ.lookup? name = Δ.lookup? name

namespace Scope.Agrees

variable {Γ Δ : Scope}

/-- A block without declarations brings nothing into force. -/
theorem enter_right (h : Γ.Agrees Δ) : Γ.Agrees Δ.enter :=
  fun name => (h name).trans (Scope.lookup?_enter Δ name).symm

theorem enter (h : Γ.Agrees Δ) : Γ.enter.Agrees Δ.enter :=
  fun name => (Scope.lookup?_enter Γ name).trans (h.enter_right name)

theorem declare (h : Γ.Agrees Δ) (x : Symbol) :
    Scope.Agrees { Γ with frame := x :: Γ.frame } { Δ with frame := x :: Δ.frame } := by
  intro name
  rw [Scope.lookup?_cons, Scope.lookup?_cons, h name]

/-- Expressions stand for the same trees. -/
theorem phrase (h : Γ.Agrees Δ) {r : Rank} {x : Phrase r} {a : Expr} (hx : x.Means Γ a) :
    x.Means Δ a := by
  induction hx with
  | pass _ ih => exact .pass ih
  | binary _ _ hOp ihx ihy => exact .binary ihx ihy hOp
  | unary _ hOp ih => exact .unary ih hOp
  | paren _ ih => exact .paren ih
  | int => exact .int
  | real => exact .real
  | truth => exact .truth
  | name hName => exact .name ((h _).symm.trans hName)
  | access _ ih => exact .access ih
  | element hName _ hArray hTerm ih => exact .element ((h _).symm.trans hName) ih hArray hTerm
  | next _ _ hArray hTerm hSum ihx ih => exact .next ihx ih hArray hTerm hSum

/-- Declarations that fit into one block fit into another one that has the same so far. -/
theorem declares (h : Γ.Agrees Δ) (hFrame : Γ.frame = Δ.frame) {Γ' : Scope} {used used' : Nat}
    {ds : List Decl} (hDecls : Declares Γ used ds Γ' used') :
    ∃ Δ', Declares Δ used ds Δ' used' ∧ Γ'.Agrees Δ' := by
  induction hDecls generalizing Δ with
  | nil => exact ⟨Δ, .nil, h⟩
  | cons hType hFits hNew _ ih =>
    obtain ⟨Δ', hRest, hAgrees⟩ := ih (h.declare _) (congrArg (_ :: ·) hFrame)
    exact ⟨Δ', .cons hType hFits (hFrame ▸ hNew) hRest, hAgrees⟩

end Scope.Agrees

/-! ## The trees of padded derivations -/

/-- Trees that are the same in a sequence: they are equal, or they are so in a row without the empty
statements. -/
def Kind.Same : (k : Kind) → k.Tree → k.Tree → Prop
  | .stmt, s, s' => s = s'
  | .stmts, ss, ss' => ss.filter (!·.isNull) = ss'.filter (!·.isNull)
  | .block, s, s' => s = s'

/-- A sequence has no empty statements, so that these do not matter: what is `Kind.Same` makes the
same `Stmt.sequence`. -/
theorem Stmt.sequence_congr {ss ss' : List Stmt} (h : Kind.stmts.Same ss ss') :
    Stmt.sequence ss = Stmt.sequence ss' := by
  unfold Stmt.sequence
  rw [show ss.filter (!·.isNull) = ss'.filter (!·.isNull) from h]

theorem Stmt.sequence_singleton (s : Stmt) : Stmt.sequence [s] = s := by
  cases s <;> rfl

/-- **Padding changes nothing.** In scopes that agree, a padded derivation stands for the same tree
(`Kind.Same`) and takes up the same storage and loops. The induction is on `Clause.Padded`. -/
theorem Clause.Padded.means {k : Kind} {x y : Clause k} (h : x.Padded y) {Γ Δ : Scope}
    (hScope : Γ.Agrees Δ) {loop : Option LoopExit} {t t' : Tally} {s : k.Tree}
    (hx : x.Means Γ loop t s t') : ∃ s', y.Means Δ loop t s' t' ∧ k.Same s s' := by
  -- along the padding: the blocks that it adds declare nothing, so the scopes still agree in them
  induction h generalizing Γ Δ loop t t' with
  | empty =>
    cases hx with
    | empty => exact ⟨_, .empty, rfl⟩
  | block _ ih =>
    cases hx with
    | block hBlock =>
      obtain ⟨_, hy, rfl⟩ := ih hScope hBlock
      exact ⟨_, .block hy, rfl⟩
  | set =>
    cases hx with
    | set hName hValue hSuits =>
      exact ⟨_, .set ((hScope _).symm.trans hName) (hScope.phrase hValue) hSuits, rfl⟩
  | store =>
    cases hx with
    | store hTarget hValue hSuits =>
      exact ⟨_, .store (hScope.phrase hTarget) (hScope.phrase hValue) hSuits, rfl⟩
  | ifThen _ ih =>
    cases hx with
    | ifThen hTest hBool hBody =>
      obtain ⟨_, hy, rfl⟩ := ih hScope hBody
      exact ⟨_, .ifThen (hScope.phrase hTest) hBool hy, rfl⟩
  | ifElse _ _ ih ih' =>
    cases hx with
    | ifElse hTest hBool hBody hOtherwise =>
      obtain ⟨_, hy, rfl⟩ := ih hScope hBody
      obtain ⟨_, hy', rfl⟩ := ih' hScope hOtherwise
      exact ⟨_, .ifElse (hScope.phrase hTest) hBool hy hy', rfl⟩
  | whileLoop _ ih =>
    cases hx with
    | whileLoop hTest hBool hBody =>
      obtain ⟨_, hy, rfl⟩ := ih hScope hBody
      exact ⟨_, .whileLoop (hScope.phrase hTest) hBool hy, rfl⟩
  | doLoop _ ih =>
    cases hx with
    | doLoop hBody hTest hBool =>
      obtain ⟨_, hy, rfl⟩ := ih hScope hBody
      exact ⟨_, .doLoop hy (hScope.phrase hTest) hBool, rfl⟩
  | leave =>
    cases hx with
    | leave => exact ⟨_, .leave, rfl⟩
  | nil =>
    cases hx with
    | nil => exact ⟨_, .nil, rfl⟩
  | cons _ _ ih ih' =>
    cases hx with
    | cons hFirst hOthers =>
      obtain ⟨_, hy, rfl⟩ := ih hScope hFirst
      obtain ⟨ss', hy', hSame⟩ := ih' hScope hOthers
      exact ⟨_ :: ss', .cons hy hy', by simp only [Kind.Same, List.filter_cons, hSame.symm]⟩
  | braces _ ih =>
    cases hx with
    | braces hDecls hItems =>
      -- the rows differ in empty statements, which the sequence of the block leaves out
      obtain ⟨Δ', hDecls', hAgrees⟩ := hScope.enter.declares rfl hDecls
      obtain ⟨ss', hy, hSame⟩ := ih hAgrees hItems
      exact ⟨_, .braces hDecls' hy, Stmt.sequence_congr hSame⟩
  | insertEmpty _ ih =>
    obtain ⟨ss', hy, hSame⟩ := ih hScope hx
    exact ⟨_ :: ss', .cons .empty hy, hSame⟩
  | insertBraces _ _ ih ih' =>
    obtain ⟨ss', hy, hSame⟩ := ih' hScope hx
    -- what stands inside of the braces comes to nothing
    obtain ⟨inside, hInside, hNone⟩ := ih hScope.enter_right .nil
    have hNull : Stmt.sequence inside = .null := (Stmt.sequence_congr hNone).symm
    refine ⟨_ :: ss', .cons (.block (.braces .nil hInside)) hy, ?_⟩
    rw [hNull]
    exact hSame
  | enclose _ ih =>
    -- a sequence of one statement is this statement
    obtain ⟨inside, hInside, hSame⟩ := ih hScope.enter_right (.cons hx .nil)
    have hOne := Stmt.sequence_congr hSame
    rw [Stmt.sequence_singleton] at hOne
    exact ⟨_, .block (.braces .nil hInside), hOne⟩

/-! ## Sequences -/

/-- Every sequence in a `Stmt` has at least two items, none of which is empty. -/
inductive Stmt.Compact : Stmt → Prop
  | null : Compact .null
  | seq {items : List Stmt} (hTwo : 2 ≤ items.length) (hSome : ∀ s ∈ items, s ≠ .null)
      (hItems : ∀ s ∈ items, Compact s) : Compact (.seq items)
  | ifThen {c : Expr} {s : Stmt} (hBody : Compact s) : Compact (.ifThen c s)
  | ifElse {c : Expr} {s s' : Stmt} (hBody : Compact s) (hOtherwise : Compact s') :
      Compact (.ifElse c s s')
  | whileLoop {exit : LoopExit} {c : Expr} {s : Stmt} (hBody : Compact s) :
      Compact (.whileLoop exit c s)
  | doLoop {exit : LoopExit} {c : Expr} {s : Stmt} (hBody : Compact s) : Compact (.doLoop exit s c)
  | breakTo {exit : LoopExit} : Compact (.breakTo exit)
  | set {x : Symbol} {a : Expr} : Compact (.set x a)
  | store {target : Access} {a : Expr} : Compact (.store target a)

theorem Stmt.Compact.sequence {ss : List Stmt} (h : ∀ s ∈ ss, s.Compact) :
    (Stmt.sequence ss).Compact := by
  have hKept : ∀ s ∈ ss.filter (!·.isNull), s ∈ ss := fun s hs => (List.mem_filter.mp hs).1
  have hSome : ∀ s ∈ ss.filter (!·.isNull), s ≠ .null := by
    rintro _ hs rfl
    cases (List.mem_filter.mp hs).2
  unfold Stmt.sequence
  generalize ss.filter (!·.isNull) = kept at hKept hSome
  -- none, one, or a sequence of what is kept
  rcases kept with _ | ⟨s, _ | ⟨s', kept⟩⟩
  · exact .null
  · exact h s (hKept s (List.mem_singleton_self s))
  · exact .seq (Nat.le_add_left 2 kept.length) hSome fun u hu => h u (hKept u hu)

/-- What a derivation stands for has compact sequences only (`Stmt.Compact`). -/
def Kind.Compact : (k : Kind) → k.Tree → Prop
  | .stmt, s => s.Compact
  | .stmts, ss => ∀ s ∈ ss, s.Compact
  | .block, s => s.Compact

/-- **The sequences of a tree are compact**: those of a block are made without the empty statements,
and a single one is no sequence (`Stmt.sequence`). -/
theorem Clause.Means.compact {Γ : Scope} {loop : Option LoopExit} {k : Kind} {x : Clause k}
    {t t' : Tally} {s : k.Tree} (h : x.Means Γ loop t s t') : k.Compact s := by
  induction h with
  | empty => exact .null
  | block _ ih => exact ih
  | set => exact .set
  | store => exact .store
  | ifThen _ _ _ ih => exact .ifThen ih
  | ifElse _ _ _ _ ih ih' => exact .ifElse ih ih'
  | whileLoop _ _ _ ih => exact .whileLoop ih
  | doLoop _ _ _ ih => exact .doLoop ih
  | leave => exact .breakTo
  | nil => exact List.forall_mem_nil _
  | cons _ _ ih ih' => exact List.forall_mem_cons.mpr ⟨ih, ih'⟩
  | braces _ _ ih => exact Stmt.Compact.sequence ih

end JumpCode
