import JumpCode.Proofs.Code.Labels
import JumpCode.Proofs.Simulation.Stmt

/-!
# JumpCode — code means what its program means

From the first instruction of the code of a program, with any memory and whatever in the
temporaries, the machine does what the statement of the program does: it reaches the end of the
code in the memory in which the statement is done, it comes to an operator that fails where one in
the statement does, and it runs forever if the statement has no outcome.

* `code_means_tree` — for every program, interpretation and memory.
-/

namespace JumpCode

/-- The code of a `Program`, emitted from bound `Exits` and a `Supply`. -/
def Program.codeFrom (p : Program) (exits : Exits) (s : Supply) : List Instruction :=
  ((p.emit.emission exits).run s).code

/-- The machine before its first step: at the first instruction, with any `Memory` and temporaries.
-/
def Config.initial {Value : Type} (m : Memory Value) (temps : Nat → Value) : Config Value :=
  ⟨0, m, temps⟩

/-- The machine is at the end of the code, with this `Memory`. -/
def Config.AtEnd {Value : Type} (code : List Instruction) (m : Memory Value) (c : Config Value) :
    Prop := c.pc = code.length ∧ c.memory = m

section

variable {Value Failure : Type} [DecidableEq Value] {I : Interpretation Value Failure}
  {code : List Instruction} {m : Memory Value} {p : Program} {s s' : Supply}

theorem LabelsOn.marksOnce {outside : Label → Prop} (h : LabelsOn outside [] s code s') :
    MarksOnce code := by
  intro l
  -- what is reserved is marked once, and nothing else at all
  rw [h.marks l, List.count_nil, Nat.add_zero, Label.share]
  split <;> omega

theorem Program.CodeOn.marksOnce (h : p.CodeOn s code s') : MarksOnce code := h.labels.marksOnce

/-- The statement of a program is `Placed` between the two labels of its code. -/
theorem Program.CodeOn.placed (h : p.CodeOn s code s') :
    ∃ body behind,
      p.body.Layout none s.nextLabel s.skipLabel.nextLabel s.skipLabel.skipLabel body s' ∧
      Placed code none s.nextLabel s.skipLabel.nextLabel body 1 behind ∧
      s.skipLabel.nextLabel.At code behind ∧ behind + 1 = code.length := by
  obtain ⟨body, rfl, hLayout⟩ := h
  have hWhole : CodeAt (.label s.nextLabel :: (body ++ [.label s.skipLabel.nextLabel])) 0
      (.label s.nextLabel :: (body ++ [.label s.skipLabel.nextLabel])) :=
    ⟨[], [], (List.append_nil _).symm, rfl⟩
  have hAfter := (hWhole.tail.right rfl).head
  refine ⟨body, 1 + body.length, hLayout, ⟨hWhole.tail.left, rfl, ⟨0, hWhole.head, rfl⟩,
    ⟨_, hAfter⟩, fun _ hNone => by cases hNone⟩, hAfter, ?_⟩
  rw [List.length_cons, List.length_append, List.length_singleton]
  omega

/-- How a run of the machine ends that carries out a run of a statement: at the end of the code
(`Config.AtEnd`), or at an operator that fails (`Config.Fails`). No break leaves a program. -/
def Outcome.Ends (I : Interpretation Value Failure) (code : List Instruction) :
    Outcome Value Failure → Config Value → Prop
  | .done m, c => c.AtEnd code m
  | .left _, _ => False
  | .failed f m, c => c.Fails I code f m

theorem Outcome.Ends.final {o : Outcome Value Failure} {c : Config Value} (h : o.Ends I code c) :
    c.Final I code := by
  intro c' hMove
  cases o with
  | done m =>
    rw [Config.move_end h.1] at hMove
    cases hMove
  | left m => exact h
  | failed f m =>
    rw [h.2] at hMove
    cases hMove

/-- The machine ends in one way alone (`Outcome.Ends`). -/
theorem Outcome.Ends.unique {o o' : Outcome Value Failure} {c : Config Value} (h : o.Ends I code c)
    (h' : o'.Ends I code c) : o = o' := by
  -- at the end of the code the machine halts, and at an operator that fails it does not
  cases o with
  | left m => exact h.elim
  | done m =>
    cases o' with
    | left m => exact h'.elim
    | done m' => rw [← h.2, ← h'.2]
    | failed f m' =>
      have hMove := h'.2
      rw [Config.move_end h.1] at hMove
      cases hMove
  | failed f m =>
    cases o' with
    | left m => exact h'.elim
    | done m' =>
      have hMove := h.2
      rw [Config.move_end h'.1] at hMove
      cases hMove
    | failed f' m' =>
      cases h.2.symm.trans h'.2
      rw [← h.1, ← h'.1]

/-- The machine ends as the statement of the program does: `Stmt.Runs.simulated` for the whole code.
-/
theorem Program.CodeOn.leads (h : p.CodeOn s code s') {o : Outcome Value Failure}
    (hRuns : p.body.Runs I m o) (temps : Nat → Value) :
    Leads I code (.initial m temps) (o.Ends I code) := by
  obtain ⟨body, behind, hLayout, hPlaced, hMark, hLength⟩ := h.placed
  have hEnters := hPlaced.enter (I := I) (c := .initial m temps) (m := m) rfl rfl
  refine hEnters.leads.bind fun c₁ hStarts => ?_
  refine (hRuns.simulated h.marksOnce hLayout hStarts).bind fun c hReached => ?_
  cases o with
  | done m' =>
    -- the label at the end is passed over
    obtain ⟨hMemory, hPlace⟩ := hReached
    have hPc : c.pc = behind := by
      rcases hPlace with hPc | hAt
      · exact hPc
      · exact h.marksOnce.place_unique hAt hMark
    subst hPc
    exact .step (Config.move_label hMark) (.refl ⟨hLength, hMemory⟩)
  | left m' =>
    obtain ⟨_, l, hNone, _⟩ := hReached
    -- around the statement there is no loop to be left
    cases hNone
  | failed f m' => exact .refl hReached

/-- A machine that stops ends as the statement of the program does: `Stmt.endsWithin` for the whole
code. -/
theorem Program.CodeOn.runs_of_stops (h : p.CodeOn s code s') {n : Nat} {temps : Nat → Value}
    (hStops : Stops I code n (.initial m temps)) : ∃ o, p.body.Runs I m o := by
  obtain ⟨body, behind, hLayout, hPlaced, _, _⟩ := h.placed
  have hEnters := hPlaced.enter (I := I) (c := .initial m temps) (m := m) rfl rfl
  obtain ⟨k, c₁, _, hStarts, hStops₁⟩ := hStops.advances hEnters
  exact p.body.endsWithin h.marksOnce _ hLayout hStarts hStops₁

/-- The statement of a program has an `Outcome` if and only if the machine ends that way. -/
theorem Program.CodeOn.runs_iff (h : p.CodeOn s code s') (o : Outcome Value Failure)
    (temps : Nat → Value) :
    p.body.Runs I m o ↔ Leads I code (.initial m temps) (o.Ends I code) := by
  refine ⟨fun hRuns => h.leads hRuns temps, ?_⟩
  rintro ⟨n, c, hSteps, hEnds⟩
  obtain ⟨o', hRuns⟩ := h.runs_of_stops ⟨n, c, Nat.le_refl n, hSteps, hEnds.final⟩
  obtain ⟨n', c', hSteps', hEnds'⟩ := h.leads hRuns temps
  -- the machine stops in one place alone, so both runs end there
  cases hSteps.final_unique hEnds.final hSteps' hEnds'.final
  cases hEnds.unique hEnds'
  exact hRuns

/-- The statement of a program has no `Outcome` if and only if the machine runs forever. -/
theorem Program.CodeOn.no_runs_iff (h : p.CodeOn s code s') (temps : Nat → Value) :
    (∀ o, ¬ p.body.Runs I m o) ↔ ∀ n, ∃ c, Steps I code n (.initial m temps) c := by
  constructor
  · intro hNone n
    have hEither : Stops I code n (.initial m temps) ∨ ∃ c, Steps I code n (.initial m temps) c :=
      stops_or_steps n _
    rcases hEither with hStops | hSteps
    · obtain ⟨o, hRuns⟩ := h.runs_of_stops hStops
      exact absurd hRuns (hNone o)
    · exact hSteps
  · intro hForever o hRuns
    obtain ⟨n, c, hSteps, hEnds⟩ := h.leads hRuns temps
    obtain ⟨c', hLonger⟩ := hForever (n + 1)
    have hLe := hLonger.le_of_final hSteps hEnds.final
    -- beyond the end there is no further step
    omega

end

/-! ## Programs that have been read -/

/-- **Code means what its program means.** Emission of a program that has been read succeeds, from
whatever exits and supply. With any meaning of constants and operators, in any memory and whatever
the temporaries hold, the code reaches its end in a memory if and only if the statement is done in
this memory; it fails in a way and a memory if and only if the statement does; and it runs forever
if and only if the statement has no outcome. No break leaves the statement. -/
theorem code_means_tree {tokens : List (Located Token)} {ending : Option (Located LexError)}
    {p : Program} (hRead : (readTokens tokens ending).outcome = .ok p) (exits : Exits) (s : Supply)
    {Value Failure : Type} [DecidableEq Value] (I : Interpretation Value Failure)
    (m : Memory Value) (temps : Nat → Value) :
    ((p.emit.emission exits).run s).value.1 = .ok () ∧
    (∀ m', p.body.Runs I m (.done m') ↔
      Leads I (p.codeFrom exits s) (.initial m temps) (·.AtEnd (p.codeFrom exits s) m')) ∧
    (∀ f m', p.body.Runs I m (.failed f m') ↔
      Leads I (p.codeFrom exits s) (.initial m temps) (·.Fails I (p.codeFrom exits s) f m')) ∧
    ((∀ o, ¬ p.body.Runs I m o) ↔
      ∀ n, ∃ c, Steps I (p.codeFrom exits s) n (.initial m temps) c) ∧
    ∀ m', ¬ p.body.Runs I m (.left m') := by
  obtain ⟨exits', s', code, hEmits, hCode⟩ := p.emits_of_read hRead exits s
  unfold Emits at hEmits
  rw [Program.codeFrom, hEmits]
  refine ⟨rfl, fun m' => hCode.runs_iff (.done m') temps,
    fun f m' => hCode.runs_iff (.failed f m') temps, hCode.no_runs_iff temps, fun m' hRuns => ?_⟩
  obtain ⟨_, _, _, hEnds⟩ := hCode.leads hRuns temps
  exact hEnds

/-- Integer arithmetic, in which division by zero fails. Reals do not occur in it, and truth values
are 0 and 1. It is an `Interpretation` to run code by. -/
def Interpretation.integers : Interpretation Int Unit where
  constant
    | .int n => n
    | .real _ => 0
    | .bool b => if b then 1 else 0
  arith
    | .add, a, b => .ok (a + b)
    | .sub, a, b => .ok (a - b)
    | .mul, a, b => .ok (a * b)
    | .div, a, b => if b = 0 then .error () else .ok (a.tdiv b)
  negate a := .ok (-a)
  compare
    | .equal, a, b => a == b
    | .notEqual, a, b => a != b
    | .less, a, b => a < b
    | .lessOrEqual, a, b => a ≤ b
    | .greater, a, b => b < a
    | .greaterOrEqual, a, b => b ≤ a
  truth a := a != 0
  truth_bool b := by cases b <;> rfl

/-- There is a program with loops, truth values and an array whose code means what it means. -/
theorem code_means_tree_sample : ∃ p, (readTokens sampleTokens none).outcome = .ok p ∧
    (∀ m', p.body.Runs Interpretation.integers ⟨fun _ => 0, fun _ _ => 0⟩ (.done m') ↔
      Leads Interpretation.integers (p.codeFrom [] .fresh)
        (.initial ⟨fun _ => 0, fun _ _ => 0⟩ fun _ => 0) (·.AtEnd (p.codeFrom [] .fresh) m')) ∧
    ∀ f m', p.body.Runs Interpretation.integers ⟨fun _ => 0, fun _ _ => 0⟩ (.failed f m') ↔
      Leads Interpretation.integers (p.codeFrom [] .fresh)
        (.initial ⟨fun _ => 0, fun _ _ => 0⟩ fun _ => 0)
        (·.Fails Interpretation.integers (p.codeFrom [] .fresh) f m') := by
  obtain ⟨p, hRead⟩ := exists_sample
  have h := code_means_tree hRead [] .fresh Interpretation.integers ⟨fun _ => 0, fun _ _ => 0⟩
    fun _ => 0
  exact ⟨p, hRead, h.2.1, h.2.2.1⟩

end JumpCode
