import JumpCode.Proofs.Code.Walk

/-!
# JumpCode — walks through the code of a truth value

The code that computes a logical expression decides it by jumps, and then assigns one of the two
truth values to the same temporary. There are two assignments, and every walk through the code makes
exactly one of them.

* `Expr.decides` — for the code of every logical expression, wherever it stands.
-/

namespace JumpCode

open Emission

/-- Two assignments of the truth values, at `onTrue` and `onFalse`, write the temporary `t`, and
nothing else does. They are in the code from `a` up to `b`, into which control comes at its start
(`Entered`) and which it leaves at its end, and every `Walk` through this code makes one of them,
and only once. -/
structure Decides (whole : List Instruction) (t a b onTrue onFalse : Nat) : Prop where
  setsTrue : whole[onTrue]? = some (.assign (.temp t) (.use (.const (.bool true))))
  setsFalse : whole[onFalse]? = some (.assign (.temp t) (.use (.const (.bool false))))
  only (k : Nat) (hWrites : Writes whole t k) : k = onTrue ∨ k = onFalse
  entered : Entered whole a b
  stays (k k' : Nat) (hGoes : Goes whole k k') (hLow : a ≤ k) (hHigh : k < b) : a ≤ k' ∧ k' ≤ b
  once (past : List Nat) (hWalk : Walk whole a b past) (hInside : ∀ j ∈ past, a ≤ j ∧ j < b) :
    past.count onTrue + past.count onFalse = 1

section

variable {whole jumps : List Instruction} {onFalse after : Label} {t a k k' : Nat} {past : List Nat}

/-- Where control may go in the code that assigns a truth value: from the jumps it comes to one of
the two assignments, and from each of these to the end. The places are those of `decision`. -/
theorem Goes.in_decision (hGoes : Goes whole k k') (hOnce : MarksOnce whole)
    (hCode : CodeAt whole a (jumps ++ decision t onFalse after))
    (hJumps : ∀ i ∈ jumps, ∀ l, i.target? = some l → .label l ∈ jumps ∨ l = onFalse)
    (hLow : a ≤ k) (hHigh : k < a + jumps.length + 5) :
    (k < a + jumps.length ∧ a ≤ k' ∧ (k' ≤ a + jumps.length ∨ k' = a + jumps.length + 2)) ∨
    (k = a + jumps.length ∧ k' = a + jumps.length + 1) ∨
    (k = a + jumps.length + 1 ∧ k' = a + jumps.length + 4) ∨
    (k = a + jumps.length + 2 ∧ k' = a + jumps.length + 3) ∨
    (k = a + jumps.length + 3 ∧ k' = a + jumps.length + 4) ∨
    (k = a + jumps.length + 4 ∧ k' = a + jumps.length + 5) := by
  have hEnd : CodeAt whole (a + jumps.length) (decision t onFalse after) := hCode.right rfl
  by_cases hInside : k < a + jumps.length
  · refine .inl ⟨hInside, ?_⟩
    cases hGoes with
    -- falling on stays within the jumps or comes to the first assignment
    | next _ _ => omega
    | @jump _ i l hAt hTarget hLabel =>
      -- a label has one place, so a jump lands among the jumps or at the second assignment
      obtain ⟨n, rfl⟩ := Nat.exists_eq_add_of_le hLow
      rw [hCode.left.getElem? (by omega)] at hAt
      rcases hJumps _ (List.mem_of_getElem? hAt) _ hTarget with hOwn | rfl
      · obtain ⟨n', hn', hAt'⟩ := List.getElem_of_mem hOwn
        have hPlace : l.At whole (a + n') := by
          rw [Label.At, hCode.left.getElem? hn', List.getElem?_eq_getElem hn', hAt']
        obtain rfl := hOnce.place_unique hLabel hPlace
        omega
      · obtain rfl := hOnce.place_unique hLabel hEnd.tail.tail.head
        omega
  · -- each of the five instructions behind the jumps has a single way on
    obtain rfl | rfl | rfl | rfl | rfl : k = a + jumps.length ∨ k = a + jumps.length + 1 ∨
        k = a + jumps.length + 1 + 1 ∨ k = a + jumps.length + 1 + 1 + 1 ∨
        k = a + jumps.length + 1 + 1 + 1 + 1 := by omega
    · have := hGoes.from_assign hEnd.head
      omega
    · have := hOnce.place_unique (hGoes.from_jump hEnd.tail.head) hEnd.tail.tail.tail.tail.head
      omega
    · have := hGoes.from_label hEnd.tail.tail.head
      omega
    · have := hGoes.from_assign hEnd.tail.tail.tail.head
      omega
    · have := hGoes.from_label hEnd.tail.tail.tail.tail.head
      omega

/-- On a `Walk` in the code that assigns a truth value, one of the two assignments has been made if
control is behind them, and none of them before. The induction is on the walk; each step is one of
`Goes.in_decision`. -/
theorem Walk.count_decision (hWalk : Walk whole a k past) (hOnce : MarksOnce whole)
    (hCode : CodeAt whole a (jumps ++ decision t onFalse after))
    (hJumps : ∀ i ∈ jumps, ∀ l, i.target? = some l → .label l ∈ jumps ∨ l = onFalse)
    (hPast : ∀ j ∈ past, a ≤ j ∧ j < a + jumps.length + 5) :
    past.count (a + jumps.length) + past.count (a + jumps.length + 3) =
      if k = a + jumps.length + 1 ∨ a + jumps.length + 4 ≤ k then 1 else 0 := by
  induction hWalk with
  | start =>
    rw [if_neg (by omega)]
    rfl
  | @step k k' past _ hGoes ih =>
    obtain ⟨hLow, hHigh⟩ := hPast k List.mem_cons_self
    have hBefore := ih fun j hj => hPast j (List.mem_cons_of_mem _ hj)
    have hWays := hGoes.in_decision hOnce hCode hJumps hLow hHigh
    -- the step has changed at most one of the counts: `hWays` says which
    simp only [List.count_cons, beq_iff_eq]
    split at hBefore <;> split <;> split <;> split <;> omega

/-- The code that assigns a truth value writes its temporary at the two assignments of `decision`,
if the jumps before them do not write it. -/
theorem Writes.in_decision (h : Writes whole t k)
    (hCode : CodeAt whole a (jumps ++ decision t onFalse after))
    (hJumps : ∀ i ∈ jumps, i.written? ≠ some t) (hLow : a ≤ k)
    (hHigh : k < a + jumps.length + 5) : k = a + jumps.length ∨ k = a + jumps.length + 3 := by
  obtain ⟨i, hAt, hWritten⟩ := h
  have hEnd : CodeAt whole (a + jumps.length) (decision t onFalse after) := hCode.right rfl
  obtain ⟨n, rfl⟩ := Nat.exists_eq_add_of_le hLow
  by_cases hInside : n < jumps.length
  · rw [hCode.left.getElem? hInside] at hAt
    exact absurd hWritten (hJumps i (List.mem_of_getElem? hAt))
  · -- the other three instructions are a jump and labels
    obtain rfl | rfl | rfl | rfl | rfl : n = jumps.length ∨ n = jumps.length + 1 ∨
        n = jumps.length + 2 ∨ n = jumps.length + 3 ∨ n = jumps.length + 4 := by omega
    · exact .inl rfl
    · obtain rfl := Option.some.inj (hEnd.tail.head.symm.trans hAt)
      cases hWritten
    · obtain rfl := Option.some.inj (hEnd.tail.tail.head.symm.trans hAt)
      cases hWritten
    · exact .inr rfl
    · obtain rfl := Option.some.inj (hEnd.tail.tail.tail.tail.head.symm.trans hAt)
      cases hWritten

/-- Code that stands between other code which does not write a temporary writes it in its place. -/
theorem Writes.inside {front piece back : List Instruction} (h : Writes whole t k)
    (hCode : whole = front ++ (piece ++ back))
    (hOthers : ∀ i ∈ front ++ back, i.written? ≠ some t) :
    front.length ≤ k ∧ k < front.length + piece.length := by
  obtain ⟨i, hAt, hWritten⟩ := h
  by_contra hPlace
  exact hOthers i (mem_of_outside hCode hPlace hAt) hWritten

end

/-- **The code of a logical expression decides it**: `Decides` holds wherever the code stands, if
what is around it is `Instruction.Apart`. -/
theorem Expr.decides {e : Expr} {v v' : Supply} {t : Nat}
    {whole front piece back : List Instruction} (hLogical : e.isLogical = true)
    (hRun : e.emitValue.run v = ⟨.use (.temp t), v', piece⟩) (hOnce : MarksOnce whole)
    (hCode : whole = front ++ (piece ++ back)) (hOthers : ∀ i ∈ front ++ back, i.Apart t v v') :
    ∃ onTrue onFalse,
      Decides whole t front.length (front.length + piece.length) onTrue onFalse := by
  have hLabels := e.labels.value.of_run hRun
  have hEntered : Entered whole front.length (front.length + piece.length) :=
    entered_of hCode fun i hi l hTarget hMem =>
      (hOthers i hi).targets l hTarget (hLabels.label_mem_iff.mp hMem)
  -- the code is that of the jumps, with the decision behind it
  rw [Expr.emitValue_eq_materialize hLogical, run_materialize] at hRun
  have hJumps := (e.labels.jumps .fall (.label ⟨v.labels + 1⟩)) ⟨v.labels + 2, v.temps + 1⟩
  have hTemps := (e.temps.jumps .fall (.label ⟨v.labels + 1⟩) [] (v.temps + 1)
    ⟨v.labels + 2, v.temps + 1⟩ (Nat.le_refl _) (by simp)).1
  generalize (e.emitJumps .fall (.label ⟨v.labels + 1⟩)).run
    (⟨v.labels + 2, v.temps + 1⟩ : Supply) = jumps at hRun hJumps hTemps
  obtain ⟨rfl, -, rfl⟩ : v.temps + 1 = t ∧ jumps.supply = v' ∧
      jumps.code ++ decision (v.temps + 1) ⟨v.labels + 1⟩ ⟨v.labels + 2⟩ = piece := by
    simpa using hRun
  have hPlace : CodeAt whole front.length
      (jumps.code ++ decision (v.temps + 1) ⟨v.labels + 1⟩ ⟨v.labels + 2⟩) := ⟨_, _, hCode, rfl⟩
  -- what the jumps are allowed to do: their only label outside is the one of the false branch
  have hTargets : ∀ i ∈ jumps.code, ∀ l, i.target? = some l →
      .label l ∈ jumps.code ∨ l = ⟨v.labels + 1⟩ := fun i hi l hl =>
    (hJumps.targets i hi l hl).imp hJumps.label_mem_iff.mpr
      (Target.Either.of_fails (P := (· = ⟨v.labels + 1⟩)) rfl l)
  have hWrites : ∀ i ∈ jumps.code, i.written? ≠ some (v.temps + 1) := fun i hi hWrite =>
    Nat.lt_irrefl _ (hTemps.writes i hi _ hWrite).1
  have hLength : (jumps.code ++ decision (v.temps + 1) ⟨v.labels + 1⟩ ⟨v.labels + 2⟩).length =
      jumps.code.length + 5 := List.length_append
  have hEnd : CodeAt whole (front.length + jumps.code.length)
      (decision (v.temps + 1) ⟨v.labels + 1⟩ ⟨v.labels + 2⟩) := hPlace.right rfl
  rw [hLength, ← Nat.add_assoc] at hEntered ⊢
  refine ⟨front.length + jumps.code.length, front.length + jumps.code.length + 3, hEnd.head,
    hEnd.tail.tail.tail.head, fun k hk => ?_, hEntered, fun k k' hGoes hLow hHigh => ?_,
    fun past hWalk hInside => ?_⟩
  · -- a write is in this code, since the code around it does not touch the temporary
    obtain ⟨hLow, hHigh⟩ := hk.inside hCode fun i hi => (hOthers i hi).writes
    rw [hLength, ← Nat.add_assoc] at hHigh
    exact hk.in_decision hPlace hWrites hLow hHigh
  · have := hGoes.in_decision hOnce hPlace hTargets hLow hHigh
    omega
  · rw [hWalk.count_decision hOnce hPlace hTargets hInside, if_pos (by omega)]

end JumpCode
