import JumpCode.Proofs.Names.Resolution
import JumpCode.Proofs.Storage.Declarations

/-!
# JumpCode — the layout of storage

Declarations that are laid out one behind the other share no byte and leave none between them. All
numbers that come up on the way fit into 32 bits: widths are products of lengths, each of which is
kept below the bound, and no offset passes it either.

* `Symbol.Holds` — the bytes of a symbol;
* `Ty.ProductsFit` — the multiplications by which a width is computed;
* `Tiles` — symbols that fill an amount of storage;
* `LaidOut.tiles` — symbols that are laid out fill what they take.
-/

namespace JumpCode

/-! ## Numbers of 32 bits -/

theorem two_mul_maxWidth_lt : 2 * maxWidth < UInt32.size := by decide

theorem lengthOf_lt (value : Int) : lengthOf value < UInt32.size := by
  unfold lengthOf UInt32.size
  omega

/-- The multiplications by which the width of a `Ty` is computed, from the innermost dimension
outwards, stay within 32 bits: both factors and the product. -/
def Ty.ProductsFit (t : Ty) : Prop :=
  ∀ outer n inner, t.lengths = outer ++ n :: inner →
    n < UInt32.size ∧ storage t.base inner < UInt32.size ∧
      n * storage t.base inner < UInt32.size

theorem Addressable.inner {base : Scalar} {outer inner : List Nat}
    (h : Addressable base (outer ++ inner)) : Addressable base inner := by
  induction outer with
  | nil => exact h
  | cons n outer ih => exact ih h.2

/-- If the lengths are words, so are the products (`Ty.ProductsFit`): what stands under a dimension
is a type as well, and so is the whole. -/
theorem Ty.productsFit {t : Ty} (h : ∀ n ∈ t.lengths, n < UInt32.size) : t.ProductsFit := by
  intro outer n inner hLengths
  -- the dimensions from this one on are a type, and so are those behind it
  have hWhole : Addressable t.base (n :: inner) := Addressable.inner (hLengths ▸ t.addressable)
  have hProduct := Ty.width_le ⟨t.base, n :: inner, hWhole⟩
  have hInner := Ty.width_le ⟨t.base, inner, hWhole.2⟩
  have hBound := two_mul_maxWidth_lt
  refine ⟨h n (by simp [hLengths]), ?_, ?_⟩
  · have hStorage : storage t.base inner ≤ maxWidth := hInner
    omega
  · have hStorage : n * storage t.base inner ≤ maxWidth := hProduct
    omega

theorem Decl.HasType.productsFit {d : Decl} {type : Ty} (h : d.HasType type) :
    type.ProductsFit := by
  refine Ty.productsFit fun n hMem => ?_
  rw [h.2] at hMem
  obtain ⟨value, -, rfl⟩ := List.mem_map.mp hMem
  exact lengthOf_lt value

/-! ## Symbols in storage -/

/-- A byte of storage belongs to a `Symbol`: it lies from its offset on, within the width of its
type. -/
def Symbol.Holds (x : Symbol) (byte : Nat) : Prop :=
  x.offset ≤ byte ∧ byte < x.offset + x.type.width

namespace LaidOut

variable {used used' : Nat} {ds es : List Decl} {xs : List Symbol}

theorem used_eq (h : LaidOut used ds xs used') : used' = used + declsWidth ds := by
  induction h with
  | nil => rfl
  | cons hType _ _ ih =>
    rw [ih, hType.width, declsWidth, Nat.add_assoc]

/-- If what was taken before is within the bound, so is what is taken behind: `LaidOut` asks for it
at each step. -/
theorem used_le (h : LaidOut used ds xs used') (hUsed : used ≤ maxWidth) : used' ≤ maxWidth := by
  induction h with
  | nil => exact hUsed
  | cons _ hFits _ ih => exact ih hFits

/-- Declarations in front of others are `LaidOut` in front of them. -/
theorem split (h : LaidOut used (ds ++ es) xs used') :
    ∃ ys zs, xs = ys ++ zs ∧ LaidOut used ds ys (used + declsWidth ds) ∧
      LaidOut (used + declsWidth ds) es zs used' := by
  induction ds generalizing used xs with
  | nil => exact ⟨[], xs, rfl, .nil, h⟩
  | cons d ds ih =>
    cases h with
    | cons hType hFits hRest =>
      obtain ⟨ys, zs, rfl, hFront, hBack⟩ := ih hRest
      rw [hType.width, Nat.add_assoc] at hFront hBack
      refine ⟨_ :: ys, zs, rfl, .cons hType hFits ?_, hBack⟩
      rw [hType.width]
      exact hFront

theorem length (h : LaidOut used ds xs used') : xs.length = ds.length := by
  induction h with
  | nil => rfl
  | cons _ _ _ ih => simp [ih]

/-- A declaration behind others creates a symbol behind theirs, at the sum of their widths
(`declsWidth`). -/
theorem symbol {d : Decl} {more : List Decl} (h : LaidOut used (ds ++ d :: more) xs used') :
    ∃ type, d.HasType type ∧ used + declsWidth ds + type.width ≤ maxWidth ∧
      xs[ds.length]? = some ⟨d.name, type, used + declsWidth ds⟩ := by
  obtain ⟨ys, zs, rfl, hFront, hBack⟩ := h.split
  cases hBack with
  | cons hType hFits _ =>
    refine ⟨_, hType, hFits, ?_⟩
    rw [← hFront.length, List.getElem?_append_right (Nat.le_refl _), Nat.sub_self]
    rfl

theorem declared (h : LaidOut used ds xs used') :
    List.Forall₂ (fun d x => x.name = d.name ∧ d.HasType x.type) ds xs := by
  induction h with
  | nil => exact .nil
  | cons hType _ _ ih => exact .cons ⟨rfl, hType⟩ ih

/-- Each symbol has a declared type and ends within the bound. -/
theorem of_mem (h : LaidOut used ds xs used') {x : Symbol} (hx : x ∈ xs) :
    (∃ d : Decl, d.HasType x.type) ∧ x.offset + x.type.width ≤ maxWidth := by
  induction h with
  | nil => cases hx
  | cons hType hFits _ ih =>
    rcases List.mem_cons.mp hx with rfl | hx
    · exact ⟨⟨_, hType⟩, hFits⟩
    · exact ih hx

/-- A byte belongs to one of the symbols (`Symbol.Holds`) exactly if it is taken by them. -/
theorem holds_iff (h : LaidOut used ds xs used') (byte : Nat) :
    (∃ x ∈ xs, x.Holds byte) ↔ used ≤ byte ∧ byte < used' := by
  induction h with
  | nil => simp
  | @cons used used' d ds type xs _ _ hRest ih =>
    have hUsed := hRest.used_eq
    rw [List.exists_mem_cons_iff, ih]
    show (used ≤ byte ∧ byte < used + type.width) ∨ _ ↔ _
    omega

/-- Each symbol ends where the next one begins, or before. -/
theorem pairwise (h : LaidOut used ds xs used') :
    xs.Pairwise fun x y => x.offset + x.type.width ≤ y.offset := by
  -- whatever is laid out begins behind what was taken before
  have hFrom {used ds xs used'} (h : LaidOut used ds xs used') : ∀ x ∈ xs, used ≤ x.offset := by
    induction h with
    | nil => simp
    | cons _ _ _ ih =>
      intro x hx
      rcases List.mem_cons.mp hx with rfl | hx
      · exact Nat.le_refl _
      · exact Nat.le_trans (Nat.le_add_right ..) (ih x hx)
  induction h with
  | nil => exact .nil
  | cons _ _ hRest ih => exact .cons (hFrom hRest) ih

end LaidOut

/-! ## Symbols that fill storage -/

/-- Declarations create symbols that fill so many bytes, one behind the other in the order of the
text, and all numbers that come up fit into 32 bits (`Ty.ProductsFit`). -/
structure Tiles (ds : List Decl) (xs : List Symbol) (width : Nat) : Prop where
  declared : List.Forall₂ (fun d x => x.name = d.name ∧ d.HasType x.type) ds xs
  /-- The storage of a symbol begins behind all that is declared before. -/
  offset : ∀ i x, xs[i]? = some x → x.offset = declsWidth (ds.take i)
  width_eq : width = declsWidth ds
  width_le : width ≤ maxWidth
  disjoint : xs.Pairwise fun x y => ∀ byte, ¬ (x.Holds byte ∧ y.Holds byte)
  covered : ∀ byte, (∃ x ∈ xs, x.Holds byte) ↔ byte < width
  /-- Two symbols begin at the same byte only if all from the first up to the second are empty. -/
  shared : ∀ front x between y back, xs = front ++ x :: (between ++ y :: back) →
    x.offset = y.offset → ∀ z ∈ x :: between, z.type.width = 0
  sums : ∀ x ∈ xs, x.offset + x.type.width < UInt32.size
  products : ∀ x ∈ xs, x.type.ProductsFit

/-- **Symbols that are laid out fill what they take**: from `LaidOut` follows all that `Tiles` says.
-/
theorem LaidOut.tiles {ds : List Decl} {xs : List Symbol} {width : Nat}
    (h : LaidOut 0 ds xs width) : Tiles ds xs width where
  declared := h.declared
  offset := by
    intro i x hx
    -- the symbol was created by the declaration in the same place
    have hLength : i < ds.length := by
      rw [← h.length]
      exact (List.getElem?_eq_some_iff.mp hx).1
    have hSplit : ds = ds.take i ++ ds[i] :: ds.drop (i + 1) := by simp
    rw [hSplit] at h
    obtain ⟨type, -, -, hSymbol⟩ := h.symbol
    rw [List.length_take, Nat.min_eq_left (Nat.le_of_lt hLength)] at hSymbol
    cases hx.symm.trans hSymbol
    exact Nat.zero_add _
  width_eq := by rw [h.used_eq, Nat.zero_add]
  width_le := h.used_le (Nat.zero_le _)
  disjoint := by
    refine h.pairwise.imp fun hBehind byte => ?_
    unfold Symbol.Holds
    omega
  covered byte := by simp [h.holds_iff byte]
  shared := by
    rintro front x between y back rfl hSame z hz
    -- all between the two lie behind the first and in front of the second
    have hPairs := (List.pairwise_append.mp h.pairwise).2.1
    obtain ⟨hFirst, hOthers⟩ := List.pairwise_cons.mp hPairs
    have hLast := hFirst y (by simp)
    rcases List.mem_cons.mp hz with rfl | hz
    · omega
    · -- what is in between lies between two equal offsets
      have hBefore := hFirst z (by simp [hz])
      have hBehind := (List.pairwise_append.mp hOthers).2.2 z hz y (by simp)
      omega
  sums x hx := by
    have hFits := (h.of_mem hx).2
    have hBound := two_mul_maxWidth_lt
    omega
  products x hx := by
    obtain ⟨d, hType⟩ := (h.of_mem hx).1
    exact hType.productsFit

/-! ## The variables of a tree -/

/-- Each variable among the leaves of a tree is one of these symbols, or it is in force around
(`Scope.Has`). -/
def Among (Γ : Scope) (xs : List Symbol) (leaves : List Operand) : Prop :=
  ∀ y, .var y ∈ leaves → y ∈ xs ∨ Γ.Has y

theorem Among.append {Γ : Scope} {xs ys : List Symbol} {leaves leaves' : List Operand}
    (h : Among Γ xs leaves) (h' : Among Γ ys leaves') : Among Γ (xs ++ ys) (leaves ++ leaves') := by
  intro y hy
  rcases List.mem_append.mp hy with hy | hy
  · exact (h y hy).imp_left (List.mem_append_left ys)
  · exact (h' y hy).imp_left (List.mem_append_right xs)

theorem Phrase.Means.among {Γ : Scope} {r : Rank} {x : Phrase r} {a : Expr} (h : x.Means Γ a) :
    Among Γ [] a.leaves :=
  fun _ hy => .inr (h.leaves _ hy)

/-- **The variables of a tree have their storage.** The declarations in a derivation are laid out,
and each variable in the tree is one of the symbols that they create, or was in force before. -/
theorem Clause.Means.laidOut {Γ : Scope} {loop : Option LoopExit} {k : Kind} {x : Clause k}
    {t t' : Tally} {s : k.Tree} (h : x.Means Γ loop t s t') :
    ∃ xs, LaidOut t.used x.decls xs t'.used ∧ Among Γ xs (k.toStmt s).leaves := by
  induction h with
  | empty | leave | nil => exact ⟨[], .nil, fun y hy => by cases hy⟩
  | block _ ih => exact ih
  | set hName hValue _ =>
    refine ⟨[], .nil, fun y hy => ?_⟩
    rcases List.mem_cons.mp hy with hSame | hy
    · obtain rfl := Operand.var.inj hSame
      exact .inr (Scope.has_of_lookup? hName)
    · exact hValue.among y hy
  | store hTarget hValue _ => exact ⟨[], .nil, hTarget.among.append hValue.among⟩
  | ifThen hTest _ _ ih | whileLoop hTest _ _ ih =>
    obtain ⟨xs, hLaid, hBody⟩ := ih
    exact ⟨xs, hLaid, hTest.among.append hBody⟩
  | doLoop _ hTest _ ih =>
    obtain ⟨xs, hLaid, hBody⟩ := ih
    have hAll := hBody.append hTest.among
    rw [List.append_nil] at hAll
    exact ⟨xs, hLaid, hAll⟩
  | ifElse hTest _ _ _ ih ih' =>
    obtain ⟨xs, hLaid, hBody⟩ := ih
    obtain ⟨ys, hLaid', hOtherwise⟩ := ih'
    exact ⟨xs ++ ys, hLaid.append hLaid', hTest.among.append (hBody.append hOtherwise)⟩
  | cons _ _ ih ih' =>
    obtain ⟨xs, hLaid, hFirst⟩ := ih
    obtain ⟨ys, hLaid', hOthers⟩ := ih'
    exact ⟨xs ++ ys, hLaid.append hLaid', hFirst.append hOthers⟩
  | @braces Γ _ _ _ _ _ _ _ items hDecls _ ih =>
    obtain ⟨xs, hLaid, hItems⟩ := ih
    obtain ⟨ys, hOwn, rfl⟩ := hDecls.laidOut
    -- the block lays its own declarations out before those inside of it
    refine ⟨ys ++ xs, hOwn.append hLaid, fun y hy => ?_⟩
    replace hy : .var y ∈ (Stmt.sequence items).leaves := hy
    rw [Stmt.leaves_sequence] at hy
    rcases hItems y hy with hOwn | ⟨frame, hFrame, hMem⟩
    · exact .inl (List.mem_append_right ys hOwn)
    · -- what is in force inside is declared by the block, or in force around it
      rcases List.mem_cons.mp hFrame with rfl | hFrame
      · refine .inl (List.mem_append_left xs ?_)
        simpa [Scope.enter] using hMem
      · exact .inr ⟨frame, hFrame, hMem⟩

end JumpCode
