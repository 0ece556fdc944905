import JumpCode.Proofs.Breaks
import JumpCode.Proofs.Code.Flow
import JumpCode.Proofs.Simulation.Stmt

/-!
# JumpCode — the code that each statement has of its own

In the code of a statement the statements inside of it have their own places. What is left is its
own: the code of the expressions that it evaluates, in one piece. No other code uses the temporaries
of such a region, and none jumps into it.

* `Stmt.regions` — the regions of all statements in a statement;
* `Stmt.HasRegions`, `Stmt.Layout.regions` — where they stand in the code, and what they have to
  themselves.
-/

namespace JumpCode

open Emission

/-! ## Regions -/

/-- The code of a `Stmt` by its places: `start` is the place of the label before it, and from `own`
up to `stop` it evaluates its own expressions. -/
structure Region where
  stmt : Stmt
  start : Nat
  own : Nat
  stop : Nat

/-- A place is in the `Region`: behind `own`, or there, and before `stop`. -/
def Region.Has (r : Region) (k : Nat) : Prop := r.own ≤ k ∧ k < r.stop

instance (r : Region) (k : Nat) : Decidable (r.Has k) := inferInstanceAs (Decidable (_ ∧ _))

mutual

/-- The `Region`s of all statements in a statement, in the order of their code, if the label before
it is at `place`. Null statements and sequences have no code of their own. It counts labels and code
as `Stmt.Layout` lays them out. -/
def Stmt.regions : Stmt → (leave : Option Label) → (start after : Label) → Supply → (place : Nat) →
    List Region
  | .null, _, _, _, _, _ => []
  | .seq items, leave, start, after, s, place => Stmt.regionsAll items leave start after s place
  | .ifThen c x, leave, _, after, s, place =>
    let test := (c.emitJumps .fall (.label after)).run s.skipLabel
    let inside := place + 1 + test.code.length
    ⟨.ifThen c x, place, place + 1, inside⟩ :: x.regions leave s.nextLabel after test.supply inside
  | .ifElse c x y, leave, _, after, s, place =>
    let test := (c.emitJumps .fall (.label s.skipLabel.nextLabel)).run s.skipLabel.skipLabel
    let onTrue := place + 1 + test.code.length
    let body := (x.emitInside leave s.nextLabel after).run test.supply
    -- behind the body there is a jump, and then a label
    let onFalse := onTrue + 1 + body.code.length + 1
    ⟨.ifElse c x y, place, place + 1, onTrue⟩ :: (x.regions leave s.nextLabel after test.supply onTrue ++
      y.regions leave s.skipLabel.nextLabel after body.supply onFalse)
  | .whileLoop exit c x, _, start, after, s, place =>
    let test := (c.emitJumps .fall (.label after)).run s
    let inside := place + 1 + test.code.length
    ⟨.whileLoop exit c x, place, place + 1, inside⟩ ::
      x.regions (some after) test.supply.nextLabel start test.supply.skipLabel inside
  | .doLoop exit x c, _, start, after, s, place =>
    let body := (x.emitInside (some after) start s.nextLabel).run s.skipLabel
    let own := place + 1 + body.code.length + 1
    let test := (c.emitJumps (.label start) .fall).run body.supply
    x.regions (some after) start s.nextLabel s.skipLabel place ++
      [⟨.doLoop exit x c, place, own, own + test.code.length⟩]
  | .breakTo exit, _, _, _, _, place => [⟨.breakTo exit, place, place + 1, place + 2⟩]
  | .set x a, _, _, _, s, place =>
    [⟨.set x a, place, place + 1, place + 1 + (a.emitValue.run s).code.length + 1⟩]
  | .store target a, _, _, _, s, place =>
    let index := target.index.emitOperand.run s
    let value := a.emitOperand.run index.supply
    [⟨.store target a, place, place + 1, place + 1 + index.code.length + value.code.length + 1⟩]

/-- The `Region`s of all statements in statements that come one after the other, each behind the
label at its start. -/
def Stmt.regionsAll : List Stmt → (leave : Option Label) → (start after : Label) → Supply →
    (place : Nat) → List Region
  | [], _, _, _, _, _ => []
  | [x], leave, start, after, s, place => x.regions leave start after s place
  | x :: y :: rest, leave, start, after, s, place =>
    let first := (x.emitInside leave start s.nextLabel).run s.skipLabel
    x.regions leave start s.nextLabel s.skipLabel place ++
      Stmt.regionsAll (y :: rest) leave s.nextLabel after first.supply
        (place + 1 + first.code.length)

end

/-- The label where a statement starts is where its `Region` says, the code of the statement comes
behind the label (`Placed`), and what is its own is a part of it. -/
inductive Region.Stands (whole : List Instruction) (r : Region) : Prop
  | intro (leave : Option Label) (start after : Label) (s s' : Supply) (code : List Instruction)
      (behind : Nat) (hLayout : r.stmt.Layout leave start after s code s')
      (hPlaced : Placed whole leave start after code (r.start + 1) behind) (hOwn : r.start < r.own)
      (hStop : r.stop ≤ behind) : Stands whole r

/-- The `Region`s of all statements in a program, by their places in its code: the label where the
program starts has place 0. -/
def Program.regions (p : Program) (s : Supply) : List Region :=
  p.body.regions none s.nextLabel s.skipLabel.nextLabel s.skipLabel.skipLabel 0

/-! ## Ranges of labels and temporaries -/

/-- A temporary has been reserved between two `Supply`s, the second one included. -/
def Reserved (t : Nat) (s s' : Supply) : Prop := s.temps < t ∧ t ≤ s'.temps

/-- A piece of code marks only labels, and uses only temporaries, that have been reserved between
two supplies: `Label.Between` and `Reserved` hold of them. -/
def Keeps (s s' : Supply) (code : List Instruction) : Prop :=
  ∀ i ∈ code, (∀ l, i = .label l → l.Between s s') ∧ ∀ t, i.Uses t → Reserved t s s'

/-- A piece of code neither jumps to labels nor uses temporaries that have been reserved between two
supplies. So it has nothing to do with code that `Keeps` to these. -/
def Spares (s s' : Supply) (code : List Instruction) : Prop :=
  ∀ i ∈ code, (∀ l, i.target? = some l → ¬ l.Between s s') ∧ ∀ t, i.Uses t → ¬ Reserved t s s'

section

variable {s s₁ s' v v' : Supply} {code code' : List Instruction} {outside outside' : Label → Prop}

@[simp] theorem spares_nil : Spares s s' [] := by simp [Spares]

@[simp] theorem spares_append :
    Spares s s' (code ++ code') ↔ Spares s s' code ∧ Spares s s' code' := by
  unfold Spares
  exact List.forall_mem_append

@[simp] theorem spares_label {l : Label} :
    Spares s s' (.label l :: code) ↔ Spares s s' code := by
  simp [Spares, Instruction.Uses, Instruction.target?]

@[simp] theorem spares_jump {l : Label} :
    Spares s s' (.jump l :: code) ↔ ¬ l.Between s s' ∧ Spares s s' code := by
  simp [Spares, Instruction.Uses, Instruction.target?]

theorem spares_self : Spares s s code := by
  intro i _
  unfold Label.Between Reserved
  exact ⟨fun l _ => by omega, fun t _ => by omega⟩

theorem keeps_of (hLabels : LabelsOn outside [] s code s')
    (hTemps : TempsOn outside' s.temps s code s') : Keeps s s' code := by
  intro i hi
  refine ⟨?_, ?_⟩
  · rintro l rfl
    exact hLabels.label_mem_iff.mp hi
  · rintro t (hRead | hWrite)
    · exact hTemps.reads i hi _ hRead t rfl
    · exact hTemps.writes i hi t hWrite

/-- Code has nothing to do with what is reserved before or after it, if it does not jump there: by
`LabelsOn` and `TempsOn` all that it uses has been reserved with it. -/
theorem spares_of (hLabels : LabelsOn outside [] s code s')
    (hTemps : TempsOn outside' s.temps s code s') (hOutside : ∀ l, outside l → ¬ l.Between v v')
    (hApart : s'.Before v ∨ v'.Before s) : Spares v v' code := by
  intro i hi
  unfold Label.Between Reserved at *
  refine ⟨fun l hTarget => ?_, fun t hUse => ?_⟩
  · rcases hLabels.targets i hi l hTarget with ⟨hLow, hHigh⟩ | hOut
    · rcases hApart with ⟨h, -⟩ | ⟨h, -⟩ <;> omega
    · exact hOutside l hOut
  · obtain ⟨hLow, hHigh⟩ := (keeps_of hLabels hTemps i hi).2 t hUse
    rcases hApart with ⟨-, h⟩ | ⟨-, h⟩ <;> omega

theorem Keeps.mono (h : Keeps s s' code) (hLow : v.Before s) (hHigh : s'.Before v') :
    Keeps v v' code := by
  intro i hi
  obtain ⟨hLabels, hTemps⟩ := h i hi
  unfold Label.Between Reserved at *
  refine ⟨fun l hl => ?_, fun t ht => ?_⟩
  · have := hLabels l hl
    exact ⟨Nat.lt_of_le_of_lt hLow.labels this.1, Nat.le_trans this.2 hHigh.labels⟩
  · have := hTemps t ht
    exact ⟨Nat.lt_of_le_of_lt hLow.temps this.1, Nat.le_trans this.2 hHigh.temps⟩

theorem Label.not_between_of_le {l : Label} (h : l.number ≤ s.labels) : ¬ l.Between s s' :=
  fun hBetween => Nat.not_lt.mpr h hBetween.1

theorem Label.not_between_of_lt {l : Label} (h : s'.labels < l.number) : ¬ l.Between s s' :=
  fun hBetween => Nat.not_le.mpr h hBetween.2

/-! ## Code that has nothing to do with a piece -/

/-- Code neither jumps into the piece `own` nor uses a temporary that the piece uses. -/
def Shuns (code own : List Instruction) : Prop :=
  ∀ i ∈ code, (∀ l, i.target? = some l → .label l ∉ own) ∧
    ∀ t, i.Uses t → ∀ i' ∈ own, ¬ i'.Uses t

theorem shuns_append {own : List Instruction} :
    Shuns (code ++ code') own ↔ Shuns code own ∧ Shuns code' own := by
  unfold Shuns
  exact List.forall_mem_append

theorem Shuns.of_spares {own : List Instruction} (h : Spares s s' code) (hKeeps : Keeps s s' own) :
    Shuns code own := by
  intro i hi
  obtain ⟨hTargets, hTemps⟩ := h i hi
  refine ⟨fun l hTarget hMem => ?_, fun t hUse i' hi' hUse' => ?_⟩
  · exact hTargets l hTarget ((hKeeps _ hMem).1 l rfl)
  · exact hTemps t hUse ((hKeeps i' hi').2 t hUse')

theorem Shuns.part {lead own : List Instruction} (h : Shuns code (lead ++ own)) :
    Shuns code own := by
  intro i hi
  obtain ⟨hTargets, hTemps⟩ := h i hi
  exact ⟨fun l hTarget hMem => hTargets l hTarget (List.mem_append_right _ hMem),
    fun t hUse i' hi' => hTemps t hUse i' (List.mem_append_right _ hi')⟩

end

/-! ## Regions in their places -/

/-- A `Region` stands in a piece of code that begins at `base`. The code of its statement leads up
to the code that it has of its own, and this reads only what it has written (`Flows`). The rest of
the piece `Shuns` it. -/
inductive Region.On (s s' : Supply) (code : List Instruction) (base : Nat) (r : Region) : Prop
  | intro (front lead own back : List Instruction) (hCode : code = front ++ (lead ++ (own ++ back)))
      (hStart : r.start + 1 = base + front.length)
      (hOwn : r.own = base + front.length + lead.length) (hStop : r.stop = r.own + own.length)
      (hFlows : ∃ δ, Flows δ ∅ own) (hKeeps : Keeps s s' (lead ++ own))
      (hOthers : Shuns (front ++ (lead ++ back)) own)
      (hAround : Shuns (front ++ back) (lead ++ own)) : On s s' code base r

namespace Region.On

variable {s s' v v' : Supply} {code code' : List Instruction} {base : Nat} {r : Region}

theorem mono (h : r.On s s' code base) (hLow : v.Before s) (hHigh : s'.Before v') :
    r.On v v' code base := by
  obtain ⟨front, lead, own, back, hCode, hStart, hOwn, hStop, hFlows, hKeeps, hOthers, hAround⟩ := h
  exact ⟨front, lead, own, back, hCode, hStart, hOwn, hStop, hFlows, hKeeps.mono hLow hHigh,
    hOthers, hAround⟩

theorem append (h : r.On s s' code base) (hSpares : Spares s s' code') :
    r.On s s' (code ++ code') base := by
  obtain ⟨front, lead, own, back, hCode, hStart, hOwn, hStop, hFlows, hKeeps, hOthers, hAround⟩ := h
  have hShuns := Shuns.of_spares hSpares hKeeps
  refine ⟨front, lead, own, back ++ code', by simp [hCode], hStart, hOwn, hStop, hFlows, hKeeps,
    ?_, ?_⟩
  · simp only [shuns_append] at hOthers ⊢
    exact ⟨hOthers.1, hOthers.2.1, hOthers.2.2, hShuns.part⟩
  · simp only [shuns_append] at hAround ⊢
    exact ⟨hAround.1, hAround.2, hShuns⟩

theorem prepend (h : r.On s s' code (base + code'.length)) (hSpares : Spares s s' code') :
    r.On s s' (code' ++ code) base := by
  obtain ⟨front, lead, own, back, hCode, hStart, hOwn, hStop, hFlows, hKeeps, hOthers, hAround⟩ := h
  have hShuns := Shuns.of_spares hSpares hKeeps
  refine ⟨code' ++ front, lead, own, back, by simp [hCode], ?_, ?_, hStop, hFlows, hKeeps, ?_, ?_⟩
  · rw [hStart, List.length_append, Nat.add_assoc]
  · rw [hOwn, List.length_append, Nat.add_assoc base]
  · simp only [shuns_append] at hOthers ⊢
    exact ⟨⟨hShuns.part, hOthers.1⟩, hOthers.2⟩
  · simp only [shuns_append] at hAround ⊢
    exact ⟨⟨hShuns, hAround.1⟩, hAround.2⟩

theorem bounds (h : r.On s s' code base) :
    base ≤ r.own ∧ r.own ≤ r.stop ∧ r.stop ≤ base + code.length := by
  obtain ⟨front, lead, own, back, rfl, hStart, hOwn, hStop, -⟩ := h
  simp only [List.length_append]
  omega

end Region.On

/-- Regions stand in a piece of code that begins at `base`, one behind the other, and only they use
temporaries: a place where an instruction uses one is in some `Region`. -/
structure RegionsOn (s s' : Supply) (regions : List Region) (code : List Instruction) (base : Nat) :
    Prop where
  each (r : Region) (hRegion : r ∈ regions) : r.On s s' code base
  order : regions.Pairwise fun r r' => r.stop ≤ r'.own
  covers (k : Nat) (i : Instruction) (hCode : code[k]? = some i) (t : Nat) (hUse : i.Uses t) :
    ∃ r ∈ regions, r.Has (base + k)

namespace RegionsOn

variable {s s' v v' w w' : Supply} {regions regions' : List Region} {code code' : List Instruction}
  {base place : Nat}

theorem mono (h : RegionsOn s s' regions code base) (hLow : v.Before s) (hHigh : s'.Before v') :
    RegionsOn v v' regions code base where
  each r hr := (h.each r hr).mono hLow hHigh
  order := h.order
  covers := h.covers

theorem append (h : RegionsOn v v' regions code base)
    (h' : RegionsOn w w' regions' code' (base + code.length)) (hLow : v.Before w)
    (hHigh : v'.Before w') (hBehind : Spares v v' code') (hAhead : Spares w w' code) :
    RegionsOn v w' (regions ++ regions') (code ++ code') base where
  each r hr := by
    rcases List.mem_append.mp hr with hr | hr
    · exact ((h.each r hr).append hBehind).mono (.refl v) hHigh
    · exact ((h'.each r hr).prepend hAhead).mono hLow (.refl w')
  order := by
    refine List.pairwise_append.mpr ⟨h.order, h'.order, fun r hr r' hr' => ?_⟩
    have hBounds := (h.each r hr).bounds
    have hBounds' := (h'.each r' hr').bounds
    omega
  covers k i hCode t hUse := by
    by_cases hFirst : k < code.length
    · rw [List.getElem?_append_left hFirst] at hCode
      obtain ⟨r, hr, hHas⟩ := h.covers k i hCode t hUse
      exact ⟨r, List.mem_append_left _ hr, hHas⟩
    · rw [List.getElem?_append_right (Nat.not_lt.mp hFirst)] at hCode
      obtain ⟨r, hr, hHas⟩ := h'.covers _ i hCode t hUse
      have hPlace : base + code.length + (k - code.length) = base + k := by omega
      rw [hPlace] at hHas
      exact ⟨r, List.mem_append_right _ hr, hHas⟩

/-- Instructions that use no temporary are in no region: labels and jumps, which link the parts of a
statement. -/
theorem link {i : Instruction} (h : ∀ t, ¬ i.Uses t) : RegionsOn s s [] [i] base where
  each r hr := by cases hr
  order := .nil
  covers k j hCode t hUse := by
    obtain rfl : j = i := by simpa using List.mem_of_getElem? hCode
    exact absurd hUse (h t)

theorem cons {i : Instruction} (h : RegionsOn s s' regions code (base + 1))
    (hBefore : s.Before s') (hUse : ∀ t, ¬ i.Uses t) (hSpares : Spares s s' [i]) :
    RegionsOn s s' regions (i :: code) base :=
  (link hUse).append h (.refl s) hBefore spares_self hSpares

theorem concat {i : Instruction} (h : RegionsOn s s' regions code base)
    (hBefore : s.Before s') (hUse : ∀ t, ¬ i.Uses t) (hSpares : Spares s s' [i]) :
    RegionsOn s s' regions (code ++ [i]) base := by
  simpa using h.append (link hUse) hBefore (.refl s') hSpares spares_self

theorem label {l : Label} (h : RegionsOn s s' regions code (base + 1)) (hBefore : s.Before s') :
    RegionsOn s s' regions (.label l :: code) base :=
  h.cons hBefore (by simp [Instruction.Uses]) (by simp)

/-- A statement whose code is its own has one `Region`, all of its code. -/
theorem own {x : Stmt} {stop : Nat} (hFlows : ∃ δ, Flows δ ∅ code) (hKeeps : Keeps s s' code)
    (hStop : stop = place + 1 + code.length) :
    RegionsOn s s' [⟨x, place, place + 1, stop⟩] code (place + 1) where
  each r hr := by
    obtain rfl := List.mem_singleton.mp hr
    exact ⟨[], [], code, [], by simp, rfl, rfl, hStop, hFlows, hKeeps, by simp [Shuns],
      by simp [Shuns]⟩
  order := List.pairwise_singleton _ _
  covers k i hCode t hUse := by
    obtain ⟨hLt, -⟩ := List.getElem?_eq_some_iff.mp hCode
    refine ⟨_, List.mem_singleton.mpr rfl, ?_, ?_⟩
    · exact Nat.le_add_right _ _
    · exact hStop ▸ Nat.add_lt_add_left hLt _

/-- A loop whose condition comes behind its body: the code of the body leads up to its own. The
regions of the body come first, so that `RegionsOn` has them in the order of the code. -/
theorem behind {x : Stmt} {body test : List Instruction} {l : Label} {stop : Nat}
    (h : RegionsOn v v' regions body (place + 1)) (hFlows : ∃ δ, Flows δ ∅ test)
    (hKeeps : Keeps s s' (body ++ .label l :: test)) (hTest : Keeps w w' test)
    (hBehind : Spares v v' test) (hAhead : Spares w w' body) (hLow : s.Before v)
    (hHigh : v'.Before s') (hStop : stop = place + 1 + body.length + 1 + test.length) :
    RegionsOn s s' (regions ++ [⟨x, place, place + 1 + body.length + 1, stop⟩])
      (body ++ .label l :: test) (place + 1) where
  each r hr := by
    rcases List.mem_append.mp hr with hr | hr
    · exact ((h.each r hr).append (spares_label.mpr hBehind)).mono hLow hHigh
    · obtain rfl := List.mem_singleton.mp hr
      refine ⟨[], body ++ [.label l], test, [], by simp, rfl, by simp [Nat.add_assoc], hStop,
        hFlows, by simpa using hKeeps, ?_, by simp [Shuns]⟩
      refine Shuns.of_spares ?_ hTest
      simpa using hAhead
  order := by
    refine List.pairwise_append.mpr ⟨h.order, List.pairwise_singleton _ _, fun r hr r' hr' => ?_⟩
    obtain rfl := List.mem_singleton.mp hr'
    have hBounds := (h.each r hr).bounds
    dsimp only
    omega
  covers k i hCode t hUse := by
    by_cases hFirst : k < body.length
    · rw [List.getElem?_append_left hFirst] at hCode
      obtain ⟨r, hr, hHas⟩ := h.covers k i hCode t hUse
      exact ⟨r, List.mem_append_left _ hr, hHas⟩
    · rw [List.getElem?_append_right (Nat.not_lt.mp hFirst)] at hCode
      have hLt := (List.getElem?_eq_some_iff.mp hCode).1
      refine ⟨_, List.mem_append_right _ (List.mem_singleton.mpr rfl), ?_⟩
      -- the label between body and condition uses nothing
      have hPast : k ≠ body.length := by
        rintro rfl
        obtain rfl : Instruction.label l = i := by simpa using hCode
        simp [Instruction.Uses] at hUse
      simp only [List.length_cons] at hLt
      unfold Region.Has
      dsimp only
      omega

end RegionsOn

/-! ## Statements -/

theorem Stmt.Layout.before {x : Stmt} {leave : Option Label} {start after : Label} {s s' : Supply}
    {code : List Instruction} (h : x.Layout leave start after s code s') : s.Before s' :=
  ⟨h.labels.le, h.temps.le⟩

theorem Stmt.Layout.keeps {x : Stmt} {leave : Option Label} {start after : Label} {s s' : Supply}
    {code : List Instruction} (h : x.Layout leave start after s code s') : Keeps s s' code :=
  keeps_of h.labels h.temps

theorem Stmt.Layout.spares {x : Stmt} {leave : Option Label} {start after : Label}
    {s s' v v' : Supply} {code : List Instruction} (h : x.Layout leave start after s code s')
    (hSurrounding : ∀ l, Surrounding leave start after l → ¬ l.Between v v')
    (hApart : s'.Before v ∨ v'.Before s) : Spares v v' code :=
  spares_of h.labels h.temps hSurrounding hApart

section Tests

variable {c : Expr} {onTrue onFalse : Target} {s s' v v' : Supply} {code : List Instruction}

theorem Expr.before_jumps (h : (c.emitJumps onTrue onFalse).run s = ⟨(), s', code⟩) :
    s.Before s' := ⟨((c.labels.jumps onTrue onFalse).of_run h).le, (Expr.temps_jumps h).le⟩

theorem Expr.keeps_jumps (h : (c.emitJumps onTrue onFalse).run s = ⟨(), s', code⟩) :
    Keeps s s' code := keeps_of ((c.labels.jumps onTrue onFalse).of_run h) (Expr.temps_jumps h)

theorem Expr.spares_jumps (h : (c.emitJumps onTrue onFalse).run s = ⟨(), s', code⟩)
    (hTargets : ∀ l, Target.Either onTrue onFalse l → ¬ l.Between v v')
    (hApart : s'.Before v ∨ v'.Before s) : Spares v v' code :=
  spares_of ((c.labels.jumps onTrue onFalse).of_run h) (Expr.temps_jumps h) hTargets hApart

end Tests

namespace Surrounding

variable {P : Label → Prop} {leave : Option Label} {start after n : Label}

/-! What holds of the labels around a statement, and of one that it reserves, holds of the labels
around its parts. -/

theorem ahead (h : ∀ l, Surrounding leave start after l → P l) (hNew : P n) :
    ∀ l, Surrounding leave start n l → P l :=
  Surrounding.all (h _ (.inl rfl)) hNew fun l hl => h l (.inr (.inr hl))

theorem behind (h : ∀ l, Surrounding leave start after l → P l) (hNew : P n) :
    ∀ l, Surrounding leave n after l → P l :=
  Surrounding.all hNew (h _ (.inr (.inl rfl))) fun l hl => h l (.inr (.inr hl))

theorem turn (h : ∀ l, Surrounding leave start after l → P l) (hNew : P n) :
    ∀ l, Surrounding (some after) n start l → P l :=
  Surrounding.all hNew (h _ (.inl rfl)) (Surrounding.breaks (h _ (.inr (.inl rfl))))

theorem firstTurn (h : ∀ l, Surrounding leave start after l → P l) (hNew : P n) :
    ∀ l, Surrounding (some after) start n l → P l :=
  Surrounding.all (h _ (.inl rfl)) hNew (Surrounding.breaks (h _ (.inr (.inl rfl))))

end Surrounding

/-- A condition that is left for `target` where it fails, and behind it the label and the code of
what it guards: the code of the condition is all that the statement has of its own. This is what
`if` and `while` have in common. -/
theorem RegionsOn.guarded {x : Stmt} {c : Expr} {target l : Label} {s s₁ w s' : Supply}
    {regions : List Region} {test code : List Instruction} {place : Nat}
    (h : RegionsOn w s' regions code (place + 1 + test.length + 1))
    (hTest : (c.emitJumps .fall (.label target)).run s = ⟨(), s₁, test⟩)
    (hTarget : target.number ≤ s.labels) (hLow : s₁.Before w) (hHigh : w.Before s')
    (hSpares : Spares s s₁ code) :
    RegionsOn s s' (⟨x, place, place + 1, place + 1 + test.length⟩ :: regions)
      (test ++ .label l :: code) (place + 1) := by
  have hTargets : ∀ l, Target.Either .fall (.label target) l → l.number ≤ s.labels :=
    Target.Either.of_fails hTarget
  have hBefore := (Expr.before_jumps hTest).trans hLow
  have hOwn : RegionsOn s s₁ [⟨x, place, place + 1, place + 1 + test.length⟩] test (place + 1) :=
    .own (Expr.flows_jumps hTest hTargets) (Expr.keeps_jumps hTest) rfl
  -- the condition jumps only to `target`, which is older than all that is reserved behind it
  have hApart : Spares w s' test := Expr.spares_jumps hTest
    (fun l hl => Label.not_between_of_le (Nat.le_trans (hTargets l hl) hBefore.labels)) (.inl hLow)
  exact hOwn.append (h.label hHigh) hBefore (hLow.trans hHigh) (spares_label.mpr hSpares) hApart

/-- The `Stmt.regions` of a statement stand in its code (`RegionsOn`), wherever this begins, if the
labels around the statement have been reserved before it. -/
def Stmt.HasRegions (leave : Option Label) (start after : Label) (s : Supply) (x : Stmt)
    (code : List Instruction) (s' : Supply) : Prop :=
  (∀ l, Surrounding leave start after l → l.number ≤ s.labels) →
    ∀ place, RegionsOn s s' (x.regions leave start after s place) code (place + 1)

section Forms

variable {leave : Option Label} {start after : Label} {s s₁ s₂ s' : Supply} {c : Expr} {x y : Stmt}
  {items : List Stmt} {exit : LoopExit} {first others test body otherwise : List Instruction}

namespace Stmt.HasRegions

/-- The label between two parts is reserved first, and belongs to both of them. -/
theorem seq_cons (hFirst : x.Layout leave start s.nextLabel s.skipLabel first s₁)
    (hOthers : (Stmt.seq (y :: items)).Layout leave s.nextLabel after s₁ others s')
    (hX : x.HasRegions leave start s.nextLabel s.skipLabel first s₁)
    (hItems : (Stmt.seq (y :: items)).HasRegions leave s.nextLabel after s₁ others s') :
    (Stmt.seq (x :: y :: items)).HasRegions leave start after s
      (first ++ .label s.nextLabel :: others) s' := by
  intro hAround place
  have hSkip := fun l hl => Nat.le_succ_of_le (hAround l hl)
  have hAhead := Surrounding.ahead hSkip (Nat.le_refl s.skipLabel.labels)
  have hBehind := Surrounding.behind hSkip (Nat.le_refl s.skipLabel.labels)
  have hLe := hFirst.before.labels
  have hFront := hX hAhead place
  have hRest := hItems (fun l hl => Nat.le_trans (hBehind l hl) hLe) (place + 1 + first.length)
  rw [Stmt.regions, Stmt.regionsAll, hFirst.run_emitInside]
  rw [Stmt.regions] at hRest
  refine (hFront.append (hRest.label hOthers.before) hFirst.before hOthers.before ?_ ?_).mono
    s.before_skipLabel (.refl s')
  · exact spares_label.mpr (hOthers.spares
      (fun l hl => Label.not_between_of_le (hBehind l hl)) (.inr (.refl s₁)))
  · exact hFirst.spares
      (fun l hl => Label.not_between_of_le (Nat.le_trans (hAhead l hl) hLe)) (.inl (.refl s₁))

theorem ifThen (hTest : (c.emitJumps .fall (.label after)).run s.skipLabel = ⟨(), s₁, test⟩)
    (hBody : x.Layout leave s.nextLabel after s₁ body s')
    (hX : x.HasRegions leave s.nextLabel after s₁ body s') :
    (Stmt.ifThen c x).HasRegions leave start after s (test ++ .label s.nextLabel :: body) s' := by
  intro hAround place
  have hSkip := fun l hl => Nat.le_succ_of_le (hAround l hl)
  have hBehind := Surrounding.behind hSkip (Nat.le_refl s.skipLabel.labels)
  have hLe := (Expr.before_jumps hTest).labels
  have hInside := hX (fun l hl => Nat.le_trans (hBehind l hl) hLe) (place + 1 + test.length)
  have hApart : Spares s.skipLabel s₁ body :=
    hBody.spares (fun l hl => Label.not_between_of_le (hBehind l hl)) (.inr (.refl s₁))
  rw [Stmt.regions, hTest]
  exact (hInside.guarded hTest (hSkip after (.inr (.inl rfl))) (.refl s₁) hBody.before
    hApart).mono s.before_skipLabel (.refl s')

/-- Two branches with a jump between them: what they reserve is younger than the labels around them,
and apart from each other, since the second `Supply` begins where the first ends. -/
theorem branches {l : Label} (place : Nat) (hBody : x.Layout leave start after s₁ body s₂)
    (hOtherwise : y.Layout leave l after s₂ otherwise s')
    (hX : x.HasRegions leave start after s₁ body s₂)
    (hY : y.HasRegions leave l after s₂ otherwise s')
    (hAroundX : ∀ n, Surrounding leave start after n → n.number ≤ s₁.labels)
    (hAroundY : ∀ n, Surrounding leave l after n → n.number ≤ s₁.labels) :
    RegionsOn s₁ s' (x.regions leave start after s₁ place ++
        y.regions leave l after s₂ (place + 1 + body.length + 1))
      (body ++ .jump after :: .label l :: otherwise) (place + 1) := by
  have hLe := hBody.before.labels
  have hAfter : after.number ≤ s₁.labels := hAroundX after (.inr (.inl rfl))
  have hFirst := hX hAroundX place
  have hSecond := hY (fun n hn => Nat.le_trans (hAroundY n hn) hLe) (place + 1 + body.length + 1)
  have hRest : RegionsOn s₂ s' _ (.jump after :: .label l :: otherwise)
      (place + 1 + body.length) :=
    (hSecond.label hOtherwise.before).cons hOtherwise.before (by simp [Instruction.Uses])
      (by simpa using Label.not_between_of_le (Nat.le_trans hAfter hLe))
  refine hFirst.append hRest hBody.before hOtherwise.before ?_ ?_
  · simp only [spares_jump, spares_label]
    exact ⟨Label.not_between_of_le hAfter,
      hOtherwise.spares (fun n hn => Label.not_between_of_le (hAroundY n hn)) (.inr (.refl s₂))⟩
  · exact hBody.spares
      (fun n hn => Label.not_between_of_le (Nat.le_trans (hAroundX n hn) hLe)) (.inl (.refl s₂))

theorem ifElse
    (hTest : (c.emitJumps .fall (.label s.skipLabel.nextLabel)).run s.skipLabel.skipLabel =
      ⟨(), s₁, test⟩)
    (hBody : x.Layout leave s.nextLabel after s₁ body s₂)
    (hOtherwise : y.Layout leave s.skipLabel.nextLabel after s₂ otherwise s')
    (hX : x.HasRegions leave s.nextLabel after s₁ body s₂)
    (hY : y.HasRegions leave s.skipLabel.nextLabel after s₂ otherwise s') :
    (Stmt.ifElse c x y).HasRegions leave start after s
      (test ++ .label s.nextLabel :: (body ++ .jump after ::
        .label s.skipLabel.nextLabel :: otherwise)) s' := by
  intro hAround place
  have hSkip := fun l hl => Nat.le_add_right_of_le (hAround l hl) (k := 2)
  have hAroundX := Surrounding.behind hSkip (Nat.le_succ s.skipLabel.labels)
  have hAroundY := Surrounding.behind hSkip (Nat.le_refl s.skipLabel.skipLabel.labels)
  have hLe := (Expr.before_jumps hTest).labels
  have hBranches := branches (place + 1 + test.length) hBody hOtherwise hX hY
    (fun l hl => Nat.le_trans (hAroundX l hl) hLe) (fun l hl => Nat.le_trans (hAroundY l hl) hLe)
  rw [Stmt.regions, hTest, hBody.run_emitInside]
  refine (hBranches.guarded hTest (Nat.le_refl _) (.refl s₁)
    (hBody.before.trans hOtherwise.before) ?_).mono
      (s.before_skipLabel.trans s.skipLabel.before_skipLabel) (.refl s')
  simp only [spares_label, spares_append, spares_jump]
  exact ⟨hBody.spares (fun l hl => Label.not_between_of_le (hAroundX l hl)) (.inr (.refl s₁)),
    Label.not_between_of_le (hSkip after (.inr (.inl rfl))),
    hOtherwise.spares (fun l hl => Label.not_between_of_le (hAroundY l hl)) (.inr hBody.before)⟩

/-- The label of the body of a loop is reserved behind the condition. -/
theorem whileLoop (hTest : (c.emitJumps .fall (.label after)).run s = ⟨(), s₁, test⟩)
    (hBody : x.Layout (some after) s₁.nextLabel start s₁.skipLabel body s')
    (hX : x.HasRegions (some after) s₁.nextLabel start s₁.skipLabel body s') :
    (Stmt.whileLoop exit c x).HasRegions leave start after s
      (test ++ .label s₁.nextLabel :: (body ++ [.jump start])) s' := by
  intro hAround place
  have hLe : s.labels ≤ s₁.skipLabel.labels := Nat.le_succ_of_le (Expr.before_jumps hTest).labels
  have hStart : start.number ≤ s.labels := hAround _ (.inl rfl)
  have hInside := hX (Surrounding.turn (fun l hl => Nat.le_trans (hAround l hl) hLe)
    (Nat.le_refl _)) (place + 1 + test.length)
  have hTurn := hInside.concat (i := .jump start) hBody.before (by simp [Instruction.Uses])
    (by simpa using Label.not_between_of_le (Nat.le_trans hStart hLe))
  rw [Stmt.regions, hTest]
  refine hTurn.guarded hTest (hAround after (.inr (.inl rfl))) s₁.before_skipLabel hBody.before ?_
  simp only [spares_append, spares_jump, spares_nil, and_true]
  exact ⟨hBody.spares (Surrounding.turn (fun l hl => Label.not_between_of_le (hAround l hl))
    (Label.not_between_of_lt (Nat.lt_succ_self _))) (.inr s₁.before_skipLabel),
    Label.not_between_of_le hStart⟩

/-- Where the body comes first, its code leads up to the region of the loop. -/
theorem doLoop (hBody : x.Layout (some after) start s.nextLabel s.skipLabel body s₁)
    (hTest : (c.emitJumps (.label start) .fall).run s₁ = ⟨(), s', test⟩)
    (hX : x.HasRegions (some after) start s.nextLabel s.skipLabel body s₁) :
    (Stmt.doLoop exit x c).HasRegions leave start after s (body ++ .label s.nextLabel :: test)
      s' := by
  intro hAround place
  have hSkip := fun l hl => Nat.le_succ_of_le (hAround l hl)
  have hFirst := Surrounding.firstTurn hSkip (Nat.le_refl s.skipLabel.labels)
  have hTargets : ∀ l, Target.Either (.label start) .fall l → l.number ≤ s.labels :=
    Target.Either.of_succeeds (hAround start (.inl rfl))
  have hLe : s.labels + 1 ≤ s₁.labels := hBody.before.labels
  have hWhole : (Stmt.doLoop exit x c).Layout leave start after s _ s' := .doLoop hBody hTest
  have hFlows := Expr.flows_jumps hTest fun l hl => Nat.le_trans (hTargets l hl) (by omega)
  rw [Stmt.regions, hBody.run_emitInside, hTest]
  refine (hX hFirst place).behind hFlows hWhole.keeps (Expr.keeps_jumps hTest) ?_ ?_
    s.before_skipLabel (Expr.before_jumps hTest) rfl
  · exact Expr.spares_jumps hTest (fun l hl => Label.not_between_of_le
      (Nat.le_succ_of_le (hTargets l hl))) (.inr (.refl s₁))
  · exact hBody.spares (fun l hl => Label.not_between_of_le (Nat.le_trans (hFirst l hl) hLe))
      (.inl (.refl s₁))

theorem breakTo {l : Label} :
    (Stmt.breakTo exit).HasRegions (some l) start after s [.jump l] s := by
  intro _ place
  have hWhole : (Stmt.breakTo exit).Layout (some l) start after s _ s := .breakTo
  rw [Stmt.regions]
  exact .own ⟨fun _ => ∅, ⟨by simp, by simp⟩, trivial⟩ hWhole.keeps rfl

theorem set {z : Symbol} {a : Expr} {value : Rvalue} {code : List Instruction}
    (hValue : a.emitValue.run s = ⟨value, s', code⟩) :
    (Stmt.set z a).HasRegions leave start after s (code ++ [.assign (.var z) value]) s' := by
  intro _ place
  have hWhole : (Stmt.set z a).Layout leave start after s _ s' := .set hValue
  rw [Stmt.regions, hValue]
  exact .own (Expr.flows_set hValue) hWhole.keeps (by simp [Nat.add_assoc])

theorem store {target : Access} {a : Expr} {offset value : Operand}
    {code code' : List Instruction} (hIndex : target.index.emitOperand.run s = ⟨offset, s₁, code⟩)
    (hValue : a.emitOperand.run s₁ = ⟨value, s', code'⟩) :
    (Stmt.store target a).HasRegions leave start after s
      (code ++ (code' ++ [.store target.array offset value])) s' := by
  intro _ place
  have hWhole : (Stmt.store target a).Layout leave start after s _ s' := .store hIndex hValue
  rw [Stmt.regions, hIndex, hValue]
  exact .own (Access.flows_store hIndex hValue) hWhole.keeps (by simp [Nat.add_assoc])

end Stmt.HasRegions

end Forms

/-- **Regions of statements.** The regions of all statements in a statement stand in its code, if
the labels around it have been reserved before it. The induction is on `Stmt.Layout`, with one law
of `Stmt.HasRegions` for each form. -/
theorem Stmt.Layout.regions {x : Stmt} {leave : Option Label} {start after : Label} {s s' : Supply}
    {code : List Instruction} (h : x.Layout leave start after s code s') :
    x.HasRegions leave start after s code s' := by
  induction h with
  | null => exact fun _ _ => ⟨by simp [Stmt.regions], by simp [Stmt.regions], by simp⟩
  | seq_nil =>
    intro _ place
    rw [Stmt.regions, Stmt.regionsAll]
    exact ⟨by simp, .nil, by simp⟩
  | seq_one _ ih =>
    intro hAround place
    rw [Stmt.regions, Stmt.regionsAll]
    exact ih hAround place
  | seq_cons hFirst hOthers ihFirst ihOthers => exact .seq_cons hFirst hOthers ihFirst ihOthers
  | ifThen hTest hBody ih => exact .ifThen hTest hBody ih
  | ifElse hTest hBody hOtherwise ih ih' => exact .ifElse hTest hBody hOtherwise ih ih'
  | whileLoop hTest hBody ih => exact .whileLoop hTest hBody ih
  | doLoop hBody hTest ih => exact .doLoop hBody hTest ih
  | breakTo => exact .breakTo
  | set hValue => exact .set hValue
  | store hIndex hValue => exact .store hIndex hValue

/-- **Places of regions.** Where the code of a statement has its place (`Placed`), so have the
regions of all statements in it (`Region.Stands`). -/
theorem Stmt.Layout.regions_stand {x : Stmt} {leave : Option Label} {start after : Label}
    {s s' : Supply} {code whole : List Instruction} {place behind : Nat}
    (h : x.Layout leave start after s code s')
    (hPlaced : Placed whole leave start after code (place + 1) behind) :
    ∀ r ∈ x.regions leave start after s place, r.Stands whole := by
  induction h generalizing place behind with
  | null => simp [Stmt.regions]
  | seq_nil => simp [Stmt.regions, Stmt.regionsAll]
  | seq_one _ ih =>
    rw [Stmt.regions, Stmt.regionsAll]
    exact ih hPlaced
  | seq_cons hFirst hOthers ihFirst ihOthers =>
    have hRest := ihOthers hPlaced.tail
    rw [Stmt.regions] at hRest
    rw [Stmt.regions, Stmt.regionsAll, hFirst.run_emitInside]
    exact List.forall_mem_append.mpr ⟨ihFirst hPlaced.init, hRest⟩
  | ifThen hTest hBody ih =>
    rw [Stmt.regions, hTest]
    refine List.forall_mem_cons.mpr
      ⟨⟨_, _, _, _, _, _, _, .ifThen hTest hBody, hPlaced, Nat.lt_succ_self _, ?_⟩, ih hPlaced.tail⟩
    simp [hPlaced.length]
  | ifElse hTest hBody hOtherwise ih ih' =>
    rw [Stmt.regions, hTest, hBody.run_emitInside]
    refine List.forall_mem_cons.mpr ⟨⟨_, _, _, _, _, _, _, .ifElse hTest hBody hOtherwise, hPlaced,
      Nat.lt_succ_self _, ?_⟩, List.forall_mem_append.mpr ⟨ih hPlaced.inner, ih' hPlaced.otherwise⟩⟩
    simp [hPlaced.length]
  | @whileLoop leave start after s s₁ s' exit c x test body hTest hBody ih =>
    rw [Stmt.regions, hTest]
    refine List.forall_mem_cons.mpr ⟨⟨_, _, _, _, _, _, _, .whileLoop hTest hBody, hPlaced,
      Nat.lt_succ_self _, ?_⟩, ih hPlaced.turn⟩
    simp [hPlaced.length]
  | @doLoop leave start after s s₁ s' exit c x body test hBody hTest ih =>
    -- the code of the loop begins with that of its body: `own` is behind it
    rw [Stmt.regions, hBody.run_emitInside, hTest]
    refine List.forall_mem_append.mpr ⟨ih hPlaced.loop.init, List.forall_mem_singleton.mpr
      ⟨_, _, _, _, _, _, _, .doLoop hBody hTest, hPlaced, ?_, ?_⟩⟩
    · dsimp only
      omega
    · simp [hPlaced.length]
      omega
  | @breakTo l start after s exit =>
    rw [Stmt.regions]
    refine List.forall_mem_singleton.mpr
      ⟨_, _, _, s, s, _, _, .breakTo, hPlaced, Nat.lt_succ_self _, ?_⟩
    simp [hPlaced.length]
  | set hValue =>
    rw [Stmt.regions, hValue]
    refine List.forall_mem_singleton.mpr
      ⟨_, _, _, _, _, _, _, .set hValue, hPlaced, Nat.lt_succ_self _, ?_⟩
    simp [hPlaced.length, Nat.add_assoc]
  | store hIndex hValue =>
    rw [Stmt.regions, hIndex, hValue]
    refine List.forall_mem_singleton.mpr
      ⟨_, _, _, _, _, _, _, .store hIndex hValue, hPlaced, Nat.lt_succ_self _, ?_⟩
    simp [hPlaced.length, Nat.add_assoc]

end JumpCode
