import JumpCode.Emission
import JumpCode.Proofs.Semantics.Operations

/-!
# JumpCode — pieces of code in their place

What a piece of code does is said of it where it stands, as a part of the whole code. Places of
labels are the only thing that a piece needs to know about the code around it, and they are
definite where no label is marked twice.

* `MarksOnce.jump` — a jump goes to the place of its label, wherever that has been found;
* `Carries.bind` — pieces that carry out computations are put in a row like the computations.
-/

namespace JumpCode

/-! ## Places -/

/-- A piece of code stands in the whole code from this place on. What is proved of a piece is proved
where it stands, for a jump may leave it. -/
def CodeAt (whole : List Instruction) (k : Nat) (code : List Instruction) : Prop :=
  ∃ before behind, whole = before ++ (code ++ behind) ∧ k = before.length

/-- A `Label` marks this place. -/
def Label.At (whole : List Instruction) (l : Label) (k : Nat) : Prop := whole[k]? = some (.label l)

/-- A `Label` marks some place. -/
def Label.Marked (whole : List Instruction) (l : Label) : Prop := ∃ k, l.At whole k

/-- No `Label` is marked twice, so that `Config.jump` has one place to go. -/
def MarksOnce (whole : List Instruction) : Prop :=
  ∀ l, whole.count (Instruction.label l) ≤ 1

section Places

variable {whole code code' : List Instruction} {i : Instruction} {l : Label} {k k' : Nat}

namespace CodeAt

theorem left (h : CodeAt whole k (code ++ code')) : CodeAt whole k code := by
  obtain ⟨before, behind, rfl, rfl⟩ := h
  exact ⟨before, code' ++ behind, by rw [List.append_assoc], rfl⟩

theorem right (h : CodeAt whole k (code ++ code')) (hPlace : k' = k + code.length) :
    CodeAt whole k' code' := by
  obtain ⟨before, behind, rfl, rfl⟩ := h
  refine ⟨before ++ code, behind, ?_, ?_⟩
  · rw [List.append_assoc, List.append_assoc]
  · rw [hPlace, List.length_append]

theorem tail (h : CodeAt whole k (i :: code)) : CodeAt whole (k + 1) code := by
  have hFirst : CodeAt whole k ([i] ++ code) := h
  exact hFirst.right rfl

theorem head (h : CodeAt whole k (i :: code)) : whole[k]? = some i := by
  obtain ⟨before, behind, rfl, rfl⟩ := h
  rw [List.getElem?_append_right (Nat.le_refl _), Nat.sub_self]
  rfl

end CodeAt

theorem Label.At.mem (h : l.At whole k) : Instruction.label l ∈ whole := List.mem_of_getElem? h

/-- Under `MarksOnce` a label marks one place at most. -/
theorem MarksOnce.place_unique (hOnce : MarksOnce whole) (h : l.At whole k) (h' : l.At whole k') :
    k = k' := by
  unfold Label.At at h h'
  induction whole generalizing k k' with
  | nil => cases h
  | cons i rest ih =>
    have hRest : MarksOnce rest := fun l => Nat.le_trans (List.count_le_count_cons ..) (hOnce l)
    -- where the first place is marked, no later one is
    have hFirst : ∀ j : Nat, i = .label l → rest[j]? ≠ some (.label l) := by
      rintro j rfl hLater
      have hPos := List.count_pos_iff.mpr (List.mem_of_getElem? hLater)
      have hCount := hOnce l
      rw [List.count_cons_self] at hCount
      omega
    cases k with
    | zero =>
      cases k' with
      | zero => rfl
      | succ j => exact absurd h' (hFirst j (Option.some.inj h))
    | succ j =>
      cases k' with
      | zero => exact absurd h (hFirst j (Option.some.inj h'))
      | succ j' => rw [ih hRest h h']

end Places

/-! ## Steps at a place -/

section Moves

variable {Value Failure : Type} {I : Interpretation Value Failure}
  {whole : List Instruction} {c : Config Value} {l : Label} {k : Nat}

theorem MarksOnce.jump (hOnce : MarksOnce whole) (h : l.At whole k) :
    (c.jump whole l : Move Value Failure) = .next { c with pc := k } := by
  have hLt : whole.idxOf (.label l) < whole.length := List.idxOf_lt_length_of_mem h.mem
  -- the machine looks for the first place, and there is no other
  have hAt : l.At whole (whole.idxOf (.label l)) := by
    rw [Label.At, List.getElem?_eq_getElem hLt, List.getElem_idxOf hLt]
  rw [Config.jump, if_pos h.mem, hOnce.place_unique hAt h]

variable [DecidableEq Value]

theorem Config.move_label (h : l.At whole c.pc) : c.move I whole = .next c.skip := by
  rw [move, h]

theorem MarksOnce.move_jump (hOnce : MarksOnce whole) (h : whole[c.pc]? = some (.jump l))
    (hAt : l.At whole k) : c.move I whole = .next { c with pc := k } := by
  rw [Config.move, h]
  exact hOnce.jump hAt

theorem Config.move_assign {target : Operand} {value : Rvalue} {v : Value}
    (h : whole[c.pc]? = some (.assign target value))
    (hValue : value.eval I c.memory c.temps = .ok v) :
    c.move I whole = .next (c.assign target v).skip := by
  rw [move, h]
  simp only [hValue]

theorem Config.move_assign_error {target : Operand} {value : Rvalue} {f : Failure}
    (h : whole[c.pc]? = some (.assign target value))
    (hValue : value.eval I c.memory c.temps = .error f) : c.move I whole = .fail f := by
  rw [move, h]
  simp only [hValue]

theorem Config.move_store {array : Symbol} {offset value : Operand} {i v : Value}
    (h : whole[c.pc]? = some (.store array offset value))
    (hOffset : offset.eval I c.memory c.temps = i) (hValue : value.eval I c.memory c.temps = v) :
    c.move I whole = .next { c with memory := c.memory.put array i v }.skip := by
  rw [move, h]
  simp only [hOffset, hValue]

/-- At the end of the code the machine halts. -/
theorem Config.move_end (h : c.pc = whole.length) : c.move I whole = .halt := by
  rw [move, h, List.getElem?_eq_none (Nat.le_refl _)]

theorem Config.move_branch_ne {test : Test} {b : Bool}
    (h : whole[c.pc]? = some (.branch test b l)) (hTest : test.eval I c.memory c.temps ≠ b) :
    c.move I whole = .next c.skip := by
  rw [move, h]
  simp only [if_neg hTest]

end Moves

/-! ## Pending jumps -/

section Pending

variable {Value Failure : Type} (I : Interpretation Value Failure) (whole : List Instruction)

/-- The label to which the machine is just going to jump: a jump does, and a branch whose test comes
out as wanted. -/
def Config.pending? (c : Config Value) : Option Label :=
  match whole[c.pc]? with
  | some (.jump l) => some l
  | some (.branch test polarity l) =>
    if test.eval I c.memory c.temps = polarity then some l else none
  | _ => none

variable {I whole} {c : Config Value} {l : Label} {k : Nat}

theorem Config.pending_jump (h : whole[c.pc]? = some (.jump l)) : c.pending? I whole = some l := by
  rw [pending?, h]

theorem Config.pending_branch {test : Test} {b : Bool}
    (h : whole[c.pc]? = some (.branch test b l)) (hTest : test.eval I c.memory c.temps = b) :
    c.pending? I whole = some l := by
  rw [pending?, h]
  simp only [hTest, if_true]

/-- A jump that is pending (`Config.pending?`) stands at a jump, or at a branch that is taken. -/
theorem Config.pending_cases (h : c.pending? I whole = some l) :
    whole[c.pc]? = some (.jump l) ∨
      ∃ test b, whole[c.pc]? = some (.branch test b l) ∧ test.eval I c.memory c.temps = b := by
  unfold pending? at h
  split at h
  · next hJump => exact .inl (Option.some.inj h ▸ hJump)
  · next test polarity l' hBranch =>
    by_cases hTest : test.eval I c.memory c.temps = polarity
    · rw [if_pos hTest] at h
      exact .inr ⟨test, polarity, Option.some.inj h ▸ hBranch, hTest⟩
    · rw [if_neg hTest] at h
      cases h
  · cases h

/-- No `Operation` is performed by a jump. -/
theorem Config.operations_pending (h : c.pending? I whole = some l) :
    c.operations I whole = [] := by
  rcases pending_cases h with hJump | ⟨test, b, hBranch, -⟩
  · exact operations_eq_nil I hJump fun _ _ hSame => by cases hSame
  · exact operations_eq_nil I hBranch fun _ _ hSame => by cases hSame

variable [DecidableEq Value]

theorem Config.move_pending (h : c.pending? I whole = some l) :
    c.move I whole = c.jump whole l := by
  rcases pending_cases h with hJump | ⟨test, b, hBranch, hTest⟩
  · rw [move, hJump]
  · rw [move, hBranch]
    simp only [hTest, if_true]

/-- A pending jump goes to the place of its label (`Label.At`). -/
theorem MarksOnce.passes_pending (hOnce : MarksOnce whole) (h : c.pending? I whole = some l)
    (hAt : l.At whole k) {P : Config Value → Prop} (hNext : P { c with pc := k }) :
    Passes I whole c P :=
  .step ((Config.move_pending h).trans (hOnce.jump hAt)) (Config.operations_pending h)
    (.refl hNext)

end Pending

/-! ## Computations -/

section Computations

variable {Value Failure : Type} [DecidableEq Value] (I : Interpretation Value Failure)
  (whole : List Instruction)

/-- The machine stands at an operator that fails: `Config.move` says so. -/
def Config.Fails (f : Failure) (m : Memory Value) (c : Config Value) : Prop :=
  c.memory = m ∧ c.move I whole = .fail f

/-- The machine computes this value and comes (`Leads`) to a configuration of a kind that goes with
it, or it comes to an operator that fails in this way (`Config.Fails`). -/
def Computes {α : Type} (c : Config Value) (r : Except Failure α)
    (P : α → Config Value → Prop) : Prop :=
  Leads I whole c fun c' =>
    match r with
    | .ok a => P a c'
    | .error f => c'.Fails I whole f c.memory

variable {I whole} {α β : Type} {c c₁ : Config Value} {r : Except Failure α}
  {P : α → Config Value → Prop} {Q : β → Config Value → Prop}

namespace Computes

/-- A computation goes on with the value of its first part, in the same memory. -/
theorem bind {g : α → Except Failure β} (h : Computes I whole c r P)
    (hNext : ∀ a c', P a c' → c'.memory = c.memory ∧ Computes I whole c' (g a) Q) :
    Computes I whole c (r >>= g) Q := by
  cases r with
  | error f => exact h
  | ok a =>
    refine Leads.bind h fun c' hP => ?_
    obtain ⟨hMemory, hRest⟩ := hNext a c' hP
    -- a failure later on is reported in the memory of the beginning, which is the same
    rw [Computes, hMemory] at hRest
    exact hRest

/-- The value of a computation is changed without a step. -/
theorem map {g : α → β} (h : Computes I whole c r P) (hPQ : ∀ a c', P a c' → Q (g a) c') :
    Computes I whole c (do return g (← r)) Q := by
  cases r with
  | error f => exact h
  | ok a => exact Leads.mono h (hPQ a)

/-- With the value the machine goes on from there (`Leads`). -/
theorem andThen {P' : α → Config Value → Prop} (h : Computes I whole c r P)
    (hNext : ∀ a c', P a c' → Leads I whole c' (P' a)) : Computes I whole c r P' := by
  cases r with
  | error f => exact h
  | ok a => exact Leads.bind h (hNext a)

theorem mono {P' : α → Config Value → Prop} (h : Computes I whole c r P)
    (hPP : ∀ a c', P a c' → P' a c') : Computes I whole c r P' :=
  h.andThen fun a c' hP => .refl (hPP a c' hP)

end Computes

end Computations

/-! ## Computations with their operations -/

section Operations

variable {Value Failure : Type} [DecidableEq Value] (I : Interpretation Value Failure)
  (whole : List Instruction)

/-- The machine performs (`Performs`) the operations of a computation in their order and comes to a
configuration of a kind that goes with its value; or it performs all but the last one, at which it
stands and which fails. -/
def Carries {α : Type} (c : Config Value) (p : Performed Value Failure α)
    (P : α → Config Value → Prop) : Prop :=
  match p.result with
  | .ok a => ∃ c', Performs I whole p.operations c c' ∧ P a c'
  | .error f => ∃ before c', Performs I whole before c c' ∧
      p.operations = before ++ c'.operations I whole ∧ c'.Fails I whole f c.memory

variable {I whole} {α β : Type} {c c₁ : Config Value} {p : Performed Value Failure α}
  {P : α → Config Value → Prop} {Q : β → Config Value → Prop}

namespace Carries

theorem pure {a : α} (h : P a c) : Carries I whole c (Pure.pure a) P := ⟨c, .refl, h⟩

/-- The machine may go on for a while without an operation (`Passes`). -/
theorem passes {a : α} (h : Passes I whole c (P a)) : Carries I whole c (Pure.pure a) P := h

/-- A computation goes on with the value of its first part, in the same memory. -/
theorem bind {f : α → Performed Value Failure β} (h : Carries I whole c p P)
    (hNext : ∀ a c', P a c' → c'.memory = c.memory ∧ Carries I whole c' (f a) Q) :
    Carries I whole c (p >>= f) Q := by
  obtain ⟨operations, result⟩ := p
  cases result with
  | error failure => exact h
  | ok a =>
    obtain ⟨c₁, hFirst, hP⟩ := h
    obtain ⟨hMemory, hRest⟩ := hNext a c₁ hP
    rw [Performed.bind_ok]
    -- the operations of the second part come behind those of the first, whether it fails or not
    generalize f a = second at hRest
    obtain ⟨operations', result'⟩ := second
    cases result' with
    | ok b =>
      obtain ⟨c', hSecond, hQ⟩ := hRest
      exact ⟨c', hFirst.trans hSecond, hQ⟩
    | error failure =>
      obtain ⟨before, c', hSecond, hLast, hFails⟩ := hRest
      refine ⟨operations ++ before, c', hFirst.trans hSecond, ?_, hMemory ▸ hFails⟩
      rw [List.append_assoc]
      exact congrArg (operations ++ ·) hLast

/-- The value of a computation is changed without a step. -/
theorem map {g : α → β} (h : Carries I whole c p P) (hPQ : ∀ a c', P a c' → Q (g a) c') :
    Carries I whole c (do return g (← p)) Q := by
  obtain ⟨operations, result⟩ := p
  cases result with
  | error failure => exact h
  | ok a =>
    obtain ⟨c', hPerforms, hP⟩ := h
    refine ⟨c', ?_, hPQ a c' hP⟩
    show Performs I whole (operations ++ []) c c'
    rwa [List.append_nil]

/-- With the value the machine goes on from there, without another operation. -/
theorem andThen {P' : α → Config Value → Prop} (h : Carries I whole c p P)
    (hNext : ∀ a c', P a c' → Passes I whole c' (P' a)) : Carries I whole c p P' := by
  obtain ⟨operations, result⟩ := p
  cases result with
  | error failure => exact h
  | ok a =>
    obtain ⟨c₁, hPerforms, hP⟩ := h
    obtain ⟨c', hPasses, hP'⟩ := hNext a c₁ hP
    refine ⟨c', ?_, hP'⟩
    have hBoth := hPerforms.trans hPasses
    rwa [List.append_nil] at hBoth

theorem mono {P' : α → Config Value → Prop} (h : Carries I whole c p P)
    (hPP : ∀ a c', P a c' → P' a c') : Carries I whole c p P' :=
  h.andThen fun a c' hP => .refl (hPP a c' hP)

/-- An assignment carries out what its value takes (`Rvalue.perform`). -/
theorem assign {target : Operand} {value : Rvalue}
    (h : whole[c.pc]? = some (.assign target value)) :
    Carries I whole c (value.perform I c.memory c.temps) fun v c' =>
      c' = (c.assign target v).skip := by
  have hResult := value.result_perform I c.memory c.temps
  have hOperations := Config.operations_assign (I := I) h
  generalize value.perform I c.memory c.temps = p at hResult hOperations
  obtain ⟨operations, result⟩ := p
  cases result with
  | error failure =>
    exact ⟨[], c, .refl, hOperations.symm, rfl, Config.move_assign_error h hResult.symm⟩
  | ok v =>
    have hStep : Performs I whole (c.operations I whole ++ []) c (c.assign target v).skip :=
      .step (Config.move_assign h hResult.symm) .refl
    rw [hOperations, List.append_nil] at hStep
    exact ⟨_, hStep, rfl⟩

/-- **Operations aside, the machine computes the value**: `Carries` says more than `Computes`. -/
theorem computes (h : Carries I whole c p P) : Computes I whole c p.result P := by
  obtain ⟨operations, result⟩ := p
  cases result with
  | ok a =>
    obtain ⟨c', hPerforms, hP⟩ := h
    obtain ⟨n, hSteps⟩ := hPerforms.steps
    exact ⟨n, c', hSteps, hP⟩
  | error failure =>
    obtain ⟨before, c', hPerforms, -, hFails⟩ := h
    obtain ⟨n, hSteps⟩ := hPerforms.steps
    exact ⟨n, c', hSteps, hFails⟩

end Carries

end Operations

end JumpCode
