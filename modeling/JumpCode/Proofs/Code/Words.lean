import JumpCode.Proofs.Code.Renumbering

/-!
# JumpCode — code on counters of 32 bits

A `WordSupply` draws the numbers that a `Supply` draws, as far as they go into 32 bits. Emission
looks at no number that it draws, so that it never takes another course when they wrap around: it
comes to the same instructions, in which every number has lost what is beyond 32 bits. As long as no
count gets that far, nothing is lost, and whatever is said of code on a `Supply` is said of the code
that is emitted with a `WordSupply` too.

* `Companion.wrapped`, `Companion.exact` — a `WordSupply` goes along with a `Supply`, up to what is
  lost always and without a loss as long as the counts fit;
* `Expr.run_inWords` — the code of expressions, where the counts fit;
* `Program.emitWith_wrapped`, `Program.emitWith_inWords` — the code of programs, in both ways;
* `Source.emitInto_inWords` — the same for a source that is emitted any number of times.
-/

namespace JumpCode

open Emission LoopEmission

/-! ## Counts in 32 bits -/

/-- The counts of a `Supply`, without what goes beyond 32 bits. -/
def Supply.inWords (s : Supply) : WordSupply := ⟨UInt32.ofNat s.labels, UInt32.ofNat s.temps⟩

/-- The `Supply` that has reserved as many names as the counters of a `WordSupply` say. -/
def WordSupply.toSupply (s : WordSupply) : Supply := ⟨s.labels.toNat, s.temps.toNat⟩

@[simp] theorem WordSupply.inWords_toSupply (s : WordSupply) : s.toSupply.inWords = s := by
  simp [toSupply, Supply.inWords]

/-- No more names have been reserved than counters of 32 bits can count. Then `Supply.inWords` loses
nothing. -/
structure Supply.Fits (s : Supply) : Prop where
  labels : s.labels < UInt32.size
  temps : s.temps < UInt32.size

theorem Supply.Fits.of_before {s s' : Supply} (hBefore : s.Before s') (h : s'.Fits) : s.Fits :=
  ⟨Nat.lt_of_le_of_lt hBefore.labels h.labels, Nat.lt_of_le_of_lt hBefore.temps h.temps⟩

/-! ## What is drawn -/

/-- Numbers without what goes beyond 32 bits, as a `WordSupply` draws them. -/
def Renumbering.wrapped : Renumbering := ⟨(· % UInt32.size), (· % UInt32.size)⟩

/-- The numbers as they are: the `Renumbering` that changes none. -/
def Renumbering.same : Renumbering := ⟨id, id⟩

/-- One more, in 32 bits: the word behind the word of `n` is that of `n + 1`. -/
theorem toNat_ofNat_add_one (n : Nat) :
    (UInt32.ofNat n + 1).toNat = (n + 1) % UInt32.size ∧
      UInt32.ofNat n + 1 = UInt32.ofNat (n + 1) := by
  have hNext : UInt32.ofNat n + 1 = UInt32.ofNat (n + 1) := (UInt32.ofNat_add n 1).symm
  exact ⟨by rw [hNext, UInt32.toNat_ofNat'], hNext⟩

theorem Supply.label_inWords (s : Supply) : Counters.label s.inWords =
    ((s.labels + 1) % UInt32.size, Supply.inWords ⟨s.labels + 1, s.temps⟩) := by
  obtain ⟨hNumber, hNext⟩ := toNat_ofNat_add_one s.labels
  show ((UInt32.ofNat s.labels + 1).toNat, (⟨UInt32.ofNat s.labels + 1, _⟩ : WordSupply)) = _
  rw [hNumber, hNext]
  rfl

theorem Supply.temp_inWords (s : Supply) : Counters.temp s.inWords =
    ((s.temps + 1) % UInt32.size, Supply.inWords ⟨s.labels, s.temps + 1⟩) := by
  obtain ⟨hNumber, hNext⟩ := toNat_ofNat_add_one s.temps
  show ((UInt32.ofNat s.temps + 1).toNat, (⟨_, UInt32.ofNat s.temps + 1⟩ : WordSupply)) = _
  rw [hNumber, hNext]
  rfl

/-- Counters of 32 bits always go along with a supply, up to what its numbers lose
(`Renumbering.wrapped`). -/
def Companion.wrapped : Companion WordSupply where
  numbers := .wrapped
  counters := Supply.inWords
  Within _ := True
  within_of_before _ _ := trivial
  label {s} _ := s.label_inWords
  temp {s} _ := s.temp_inWords

/-- Counters of 32 bits draw the very numbers of a supply, as long as its counts fit
(`Supply.Fits`). -/
def Companion.exact : Companion WordSupply where
  numbers := .same
  counters := Supply.inWords
  Within := Supply.Fits
  within_of_before := .of_before
  label {s} h := by
    rw [s.label_inWords, Nat.mod_eq_of_lt h.labels]
    rfl
  temp {s} h := by
    rw [s.temp_inWords, Nat.mod_eq_of_lt h.temps]
    rfl

/-! ## Numbers as they are -/

@[simp] theorem Label.renumber_same (l : Label) : l.renumber .same = l := rfl

@[simp] theorem Target.renumber_same (t : Target) : t.renumber .same = t := by cases t <;> rfl

@[simp] theorem Operand.renumber_same (o : Operand) : o.renumber .same = o := by cases o <;> rfl

@[simp] theorem Rvalue.renumber_same (v : Rvalue) : v.renumber .same = v := by
  cases v <;> simp [renumber]

@[simp] theorem Test.renumber_same (t : Test) : t.renumber .same = t := by
  cases t <;> simp [renumber]

@[simp] theorem Instruction.renumber_same (i : Instruction) : i.renumber .same = i := by
  cases i <;> simp [renumber]

theorem Instruction.map_renumber_same (code : List Instruction) :
    code.map (.renumber .same) = code :=
  (List.map_congr_left fun i _ => i.renumber_same).trans (List.map_id' code)

theorem Exits.renumber_same (exits : Exits) : exits.renumber .same = exits :=
  List.map_id' exits

theorem LoopEmission.act_same (result : Except UnboundExit Unit × Exits) :
    LoopEmission.act .same id result = result := by
  obtain ⟨outcome, exits⟩ := result
  rw [act, Exits.renumber_same]
  cases outcome <;> rfl

/-! ## Emissions -/

/-- What an emission on a `Supply` comes to, with its counters in 32 bits; value and code stay as
they are. -/
def Emitted.inWords {α : Type} (emitted : Emitted α) : Emitted α WordSupply :=
  ⟨emitted.value, emitted.supply.inWords, emitted.code⟩

/-- **Expressions come to the same code on counters of 32 bits**, in each of the three forms, if all
that they reserve can be counted there: `Expr.renumbers` with `Companion.exact`. -/
theorem Expr.run_inWords (e : Expr) (s : Supply) :
    (∀ onTrue onFalse : Target, ((e.emitJumps onTrue onFalse).run s).supply.Fits →
      (e.emitJumps onTrue onFalse).run s.inWords =
        ((e.emitJumps onTrue onFalse).run s).inWords) ∧
    ((e.emitValue.run s).supply.Fits → e.emitValue.run s.inWords = (e.emitValue.run s).inWords) ∧
    ((e.emitOperand.run s).supply.Fits →
      e.emitOperand.run s.inWords = (e.emitOperand.run s).inWords) := by
  have hExact := e.renumbers (k := .exact)
  refine ⟨fun onTrue onFalse hFits => ?_, fun hFits => ?_, fun hFits => ?_⟩
  · have hRun := (hExact.jumps onTrue onFalse).run s hFits
    simp only [Companion.exact, Target.renumber_same, Instruction.map_renumber_same] at hRun
    exact hRun
  · have hRun := hExact.value.run s hFits
    simp only [Companion.exact, Rvalue.renumber_same, Instruction.map_renumber_same] at hRun
    exact hRun
  · have hRun := hExact.operand.run s hFits
    simp only [Companion.exact, Operand.renumber_same, Instruction.map_renumber_same] at hRun
    exact hRun

/-! ## Emitters -/

/-- An `Emitter` whose counters have 32 bits, with the same code in front. -/
def Emitter.inWords (e : Emitter) : Emitter WordSupply := ⟨e.supply.inWords, e.code⟩

/-- **Programs come to the same code up to what numbers lose**, from any exits and behind any code,
on counters of 32 bits that may wrap around: each label and temporary has its number as
`Renumbering.wrapped` has it. -/
theorem Program.emitWith_wrapped (p : Program) (exits : Exits) (s : Supply) :
    let counted := p.emitWith exits (.ofSupply s)
    let emitted := p.emitWith (exits.renumber .wrapped) (.ofSupply s.inWords)
    emitted.1 = LoopEmission.act .wrapped id counted.1 ∧
      emitted.2.supply = counted.2.supply.inWords ∧
      emitted.2.code = counted.2.code.map (.renumber .wrapped) := by
  have hRun := (p.renumbers (k := .wrapped) exits).run s trivial
  simp only [Companion.wrapped] at hRun
  simp only [emitWith, Emitter.run, Emitter.ofSupply, List.nil_append]
  rw [hRun]
  exact ⟨rfl, rfl, rfl⟩

/-- **Programs come to the same code on counters of 32 bits**, if all that is reserved can be
counted there. -/
theorem Program.emitWith_inWords (p : Program) (exits : Exits) (e : Emitter)
    (hFits : (p.emitWith exits e).2.supply.Fits) :
    p.emitWith exits e.inWords = ((p.emitWith exits e).1, (p.emitWith exits e).2.inWords) := by
  have hRun := (p.renumbers (k := .exact) exits).run e.supply hFits
  simp only [Companion.exact, Exits.renumber_same, LoopEmission.act_same,
    Instruction.map_renumber_same] at hRun
  rw [emitWith, Emitter.run, Emitter.inWords, hRun]
  rfl

/-- An emission only adds to what has been reserved (`Supply.Before`). -/
theorem Program.before_emitWith (p : Program) (exits : Exits) (e : Emitter) :
    e.supply.Before (p.emitWith exits e).2.supply :=
  (p.renumbers (k := .exact) exits).grows e.supply

theorem Program.before_emitTimes {p : Program} {times : Nat} {exits exits' : Exits} {e e' : Emitter}
    (h : p.emitTimes times exits e = .ok (exits', e')) : e.supply.Before e'.supply := by
  induction times generalizing exits e with
  | zero =>
    cases h
    exact .refl _
  | succ times ih =>
    rw [emitTimes] at h
    split at h
    · next exits₁ e₁ hFirst =>
      have hBefore := p.before_emitWith exits e
      rw [hFirst] at hBefore
      exact hBefore.trans (ih h)
    · cases h

theorem Program.emitTimes_inWords {p : Program} {times : Nat} {exits exits' : Exits}
    {e e' : Emitter} (h : p.emitTimes times exits e = .ok (exits', e')) (hFits : e'.supply.Fits) :
    p.emitTimes times exits e.inWords = .ok (exits', e'.inWords) := by
  induction times generalizing exits e with
  | zero =>
    cases h
    rfl
  | succ times ih =>
    rw [emitTimes] at h ⊢
    split at h
    · next exits₁ e₁ hFirst =>
      -- the counts after the first emission fit, since later ones only add to them
      have hFirstFits : (p.emitWith exits e).2.supply.Fits := by
        rw [hFirst]
        exact .of_before (before_emitTimes h) hFits
      rw [p.emitWith_inWords exits e hFirstFits, hFirst]
      exact ih h
    · cases h

/-- **Sources come to the same code on counters of 32 bits**, emitted any number of times behind any
code, if all that is reserved in the end can be counted there. -/
theorem Source.emitInto_inWords {source : Source} {times : Nat} {e e' : Emitter}
    (h : source.emitInto times e = .ok e') (hFits : e'.supply.Fits) :
    source.emitInto times e.inWords = .ok e'.inWords := by
  unfold emitInto at h ⊢
  split at h
  · cases h
  · next p hRead =>
    split at h
    · next exits' e₁ hTimes =>
      cases h
      rw [Program.emitTimes_inWords hTimes hFits]
    · cases h

end JumpCode
