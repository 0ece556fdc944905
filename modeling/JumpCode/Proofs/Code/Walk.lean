import JumpCode.Proofs.Code.Flow
import JumpCode.Proofs.Simulation.Placement

/-!
# JumpCode — walks through code

Whichever way its tests come out, control goes from each instruction to the next one or to the place
of a label. A walk is a way that control may take; the machine, which has no choice, takes one of
them.

* `Steps.walk` — a run of the machine is a walk;
* `Walk.enter` — a piece of code into which nothing jumps has been entered at its start;
* `Flows.sound` — what has been written for certain has been written on every walk.
-/

namespace JumpCode

open Emission

/-! ## Walks -/

/-- Control may go from one place to another, whichever way a `Test` comes out. -/
inductive Goes (whole : List Instruction) : Nat → Nat → Prop
  /-- From an instruction that is no jump to the next one. -/
  | next {k : Nat} {i : Instruction} (hAt : whole[k]? = some i) (hJump : ∀ l, i ≠ .jump l) :
      Goes whole k (k + 1)
  /-- From a jump or a branch to the place of its label. -/
  | jump {k k' : Nat} {i : Instruction} {l : Label} (hAt : whole[k]? = some i)
      (hTarget : i.target? = some l) (hLabel : l.At whole k') : Goes whole k k'

/-- Control may come from place `first` to a place, through the places in the list before it, the
latest one first. Each step is one that `Goes` allows. -/
inductive Walk (whole : List Instruction) (first : Nat) : Nat → List Nat → Prop
  | start : Walk whole first first []
  | step {k k' : Nat} {past : List Nat} (h : Walk whole first k past) (hGoes : Goes whole k k') :
      Walk whole first k' (k :: past)

/-- The instruction at this place writes the temporary (`Instruction.written?`). -/
def Writes (whole : List Instruction) (t k : Nat) : Prop :=
  ∃ i, whole[k]? = some i ∧ i.written? = some t

section

variable {whole own : List Instruction} {k k' a b first : Nat} {past : List Nat} {i : Instruction}
  {l : Label}

theorem Goes.from_label (h : Goes whole k k') (hAt : whole[k]? = some (.label l)) : k' = k + 1 := by
  cases h with
  | next _ _ => rfl
  | jump hAt' hTarget _ =>
    obtain rfl := Option.some.inj (hAt.symm.trans hAt')
    cases hTarget

theorem Goes.from_assign {target : Operand} {value : Rvalue} (h : Goes whole k k')
    (hAt : whole[k]? = some (.assign target value)) : k' = k + 1 := by
  cases h with
  | next _ _ => rfl
  | jump hAt' hTarget _ =>
    obtain rfl := Option.some.inj (hAt.symm.trans hAt')
    cases hTarget

theorem Goes.from_jump (h : Goes whole k k') (hAt : whole[k]? = some (.jump l)) :
    l.At whole k' := by
  cases h with
  | next hAt' hJump => exact absurd (Option.some.inj (hAt'.symm.trans hAt)) (hJump l)
  | jump hAt' hTarget hLabel =>
    obtain rfl := Option.some.inj (hAt.symm.trans hAt')
    exact Option.some.inj hTarget ▸ hLabel

end

/-! ## Runs of the machine -/

section Machine

variable {Value Failure : Type} [DecidableEq Value] {I : Interpretation Value Failure}
  {whole : List Instruction} {c c' : Config Value}

omit [DecidableEq Value] in
theorem Config.goes_of_jump {l : Label} {i : Instruction} (hAt : whole[c.pc]? = some i)
    (hTarget : i.target? = some l) (h : (c.jump whole l : Move Value Failure) = .next c') :
    Goes whole c.pc c'.pc := by
  unfold jump at h
  split at h
  · -- the machine looks for the label, and finds it where it stands first
    rename_i hMem
    have hLt := List.idxOf_lt_length_of_mem hMem
    obtain rfl := Move.next.inj h
    refine .jump hAt hTarget ?_
    rw [Label.At, List.getElem?_eq_getElem hLt, List.getElem_idxOf hLt]
  · cases h

/-- Where the machine goes, control may go: each `Move` to a next configuration is one that `Goes`
allows. -/
theorem Config.goes_of_move (h : c.move I whole = .next c') : Goes whole c.pc c'.pc := by
  unfold move at h
  split at h
  · cases h
  · rename_i hAt
    obtain rfl := Move.next.inj h
    exact .next hAt (by simp)
  · rename_i hAt
    exact goes_of_jump hAt rfl h
  · rename_i hAt
    split at h
    · exact goes_of_jump hAt rfl h
    · obtain rfl := Move.next.inj h
      exact .next hAt (by simp)
  · rename_i target _ hAt
    split at h
    · obtain rfl := Move.next.inj h
      have hGoes : Goes whole c.pc (c.pc + 1) := .next hAt (by simp)
      -- whatever is assigned, the place is the same
      cases target <;> exact hGoes
    · cases h
  · rename_i hAt
    obtain rfl := Move.next.inj h
    exact .next hAt (by simp)

theorem Walk.trans {first k k' : Nat} {past past' : List Nat} (h : Walk whole first k past)
    (h' : Walk whole k k' past') : Walk whole first k' (past' ++ past) := by
  induction h' with
  | start => exact h
  | step _ hGoes ih => exact ih.step hGoes

/-- **A run of the machine is a walk.** So what holds on every `Walk` holds on every run. -/
theorem Steps.walk {n : Nat} (h : Steps I whole n c c') : ∃ past, Walk whole c.pc c'.pc past := by
  induction h with
  | refl => exact ⟨[], .start⟩
  | step hMove _ ih =>
    obtain ⟨past, hWalk⟩ := ih
    exact ⟨_, (Walk.start.step (Config.goes_of_move hMove)).trans hWalk⟩

end Machine

/-! ## Pieces that are entered at their start -/

/-- Control comes into the code from place `a` up to `b` only at `a`, from the instruction before
it. -/
def Entered (whole : List Instruction) (a b : Nat) : Prop :=
  ∀ k k', Goes whole k k' → k < a ∨ b ≤ k → a ≤ k' → k' < b → k + 1 = a ∧ k' = a

section Entering

variable {whole front own back : List Instruction} {k k' a b first : Nat} {past : List Nat}

theorem mem_of_inside {i : Instruction} (hCode : whole = front ++ (own ++ back))
    (hLow : front.length ≤ k) (hHigh : k < front.length + own.length) (hAt : whole[k]? = some i) :
    i ∈ own := by
  rw [hCode, List.getElem?_append_right hLow, List.getElem?_append_left (by omega)] at hAt
  exact List.mem_of_getElem? hAt

theorem mem_of_outside {i : Instruction} (hCode : whole = front ++ (own ++ back))
    (hPlace : ¬ (front.length ≤ k ∧ k < front.length + own.length)) (hAt : whole[k]? = some i) :
    i ∈ front ++ back := by
  by_cases hLow : k < front.length
  · rw [hCode, List.getElem?_append_left hLow] at hAt
    exact List.mem_append_left _ (List.mem_of_getElem? hAt)
  · rw [hCode, List.getElem?_append_right (by omega), List.getElem?_append_right (by omega)] at hAt
    exact List.mem_append_right _ (List.mem_of_getElem? hAt)

theorem entered_of (hCode : whole = front ++ (own ++ back))
    (hJumps : ∀ i ∈ front ++ back, ∀ l, i.target? = some l → .label l ∉ own) :
    Entered whole front.length (front.length + own.length) := by
  intro k k' hGoes hk hLow hHigh
  cases hGoes with
  | next _ _ => omega
  | jump hAt hTarget hLabel =>
    exact absurd (mem_of_inside hCode hLow hHigh hLabel)
      (hJumps _ (mem_of_outside hCode (by omega) hAt) _ hTarget)

/-- **Entering a piece.** A `Walk` that has come into a piece of code, if it has not started there,
has come from the instruction before it: it falls into a part outside and a later part that has not
left the piece. The induction is on the walk. -/
theorem Walk.enter (hEntered : Entered whole a b) (hWalk : Walk whole first k past)
    (hFirst : first ≤ a) (hLow : a ≤ k) (hHigh : k < b) :
    ∃ later outer, past = later ++ outer ∧ Walk whole a k later ∧
      (∀ j ∈ later, a ≤ j ∧ j < b) ∧
      ((first = a ∧ outer = []) ∨
        ∃ before earlier, before + 1 = a ∧ outer = before :: earlier) := by
  induction hWalk with
  | start =>
    obtain rfl : first = a := Nat.le_antisymm hFirst hLow
    exact ⟨[], [], rfl, .start, by simp, .inl ⟨rfl, rfl⟩⟩
  | @step k k' past h hGoes ih =>
    by_cases hInside : a ≤ k ∧ k < b
    · -- the step stays inside: control came in before
      obtain ⟨later, outer, rfl, hWalk, hLater, hOuter⟩ := ih hInside.1 hInside.2
      exact ⟨k :: later, outer, rfl, hWalk.step hGoes, List.forall_mem_cons.mpr ⟨hInside, hLater⟩,
        hOuter⟩
    · -- the step is the one that comes in
      obtain ⟨hBefore, rfl⟩ := hEntered k k' hGoes (by omega) hLow hHigh
      exact ⟨[], k :: past, rfl, .start, by simp, .inr ⟨k, past, hBefore, rfl⟩⟩

end Entering

/-! ## What has been written on a walk -/

/-- What has been written for certain when control is at an instruction, with `D` written before it:
at a label control may come from elsewhere, and `Known` says what is certain there. -/
@[simp] def Instruction.ahead (δ : Known) (D : Set Nat) : Instruction → Set Nat
  | label l => δ l
  | _ => D

section

variable {δ : Known} {D : Set Nat} {i : Instruction} {whole code : List Instruction}

theorem Instruction.Defined.ahead_subset (h : i.Defined δ D) : i.ahead δ D ⊆ D := by
  cases i with
  | label l => exact h.arrives l (.inr rfl)
  | _ => exact Set.Subset.refl _

theorem Instruction.behind_subset (hJump : ∀ l, i ≠ .jump l) :
    i.behind δ D ⊆ {t | i.written? = some t} ∪ i.ahead δ D := by
  cases i with
  | label l => exact Set.subset_union_right
  | jump l => exact absurd rfl (hJump l)
  | branch test polarity l => exact Set.subset_union_right
  | store array offset value => exact Set.subset_union_right
  | assign target value =>
    cases target with
    | temp t =>
      -- only an assignment to a temporary adds something
      refine Set.insert_subset ?_ Set.subset_union_right
      exact .inl rfl
    | _ => exact Set.subset_union_right

theorem Flows.at {n : Nat} (h : Flows δ D code) (hAt : code[n]? = some i) :
    i.Defined δ (flow δ D (code.take n)) := by
  induction code generalizing D n with
  | nil => simp at hAt
  | cons j code ih =>
    cases n with
    | zero =>
      obtain rfl : j = i := by simpa using hAt
      exact h.1
    | succ n => exact ih h.2 (by simpa using hAt)

theorem flow_take_succ {n : Nat} (hAt : code[n]? = some i) :
    flow δ D (code.take (n + 1)) = i.behind δ (flow δ D (code.take n)) := by
  rw [List.take_add_one, hAt, flow_append]
  rfl

theorem CodeAt.getElem? {a n : Nat} (h : CodeAt whole a code) (hn : n < code.length) :
    whole[a + n]? = code[n]? := by
  obtain ⟨before, behind, rfl, rfl⟩ := h
  rw [List.getElem?_append_right (Nat.le_add_right _ _), Nat.add_sub_cancel_left,
    List.getElem?_append_left hn]

/-- On a `Walk` that has not left a piece of code since it entered it, what is certain has been
written. The induction is on the walk: a step to the next instruction adds what it writes, and at a
label every way there has written what `Known` says of it. -/
theorem Flows.ahead_written {a k : Nat} {past : List Nat} (h : Flows δ ∅ code)
    (hCode : CodeAt whole a code) (hWalk : Walk whole a k past)
    (hPast : ∀ j ∈ past, a ≤ j ∧ j < a + code.length) :
    ∀ n i, k = a + n → code[n]? = some i →
      i.ahead δ (flow δ ∅ (code.take n)) ⊆ {t | ∃ w ∈ past, Writes whole t w} := by
  induction hWalk with
  | start =>
    intro n i hn hAt
    -- nothing is certain where the piece begins
    obtain rfl : n = 0 := by omega
    exact ((h.at hAt).ahead_subset).trans (Set.empty_subset _)
  | @step k k' past hWalk hGoes ih =>
    intro n' i' hk' hAt'
    obtain ⟨hLow, hHigh⟩ := hPast k List.mem_cons_self
    obtain ⟨n, rfl⟩ := Nat.exists_eq_add_of_le hLow
    have hn : n < code.length := by omega
    obtain ⟨i, hAt⟩ : ∃ i, code[n]? = some i := ⟨_, List.getElem?_eq_getElem hn⟩
    have hPlace : whole[a + n]? = some i := (hCode.getElem? hn).trans hAt
    have hBefore := ih (fun j hj => hPast j (List.mem_cons_of_mem _ hj)) n i rfl hAt
    have hGrows : {t | ∃ w ∈ past, Writes whole t w} ⊆
        {t | ∃ w ∈ (a + n) :: past, Writes whole t w} := fun t ⟨w, hw, hWrites⟩ =>
      ⟨w, List.mem_cons_of_mem _ hw, hWrites⟩
    cases hGoes with
    | @next j hj hJump =>
      obtain rfl : i = j := Option.some.inj (hPlace.symm.trans hj)
      obtain rfl : n' = n + 1 := by omega
      -- what is certain behind an instruction was so before it, or it has just been written
      have hNext := (h.at hAt').ahead_subset
      rw [flow_take_succ hAt] at hNext ⊢
      refine hNext.trans ((Instruction.behind_subset hJump).trans (Set.union_subset ?_ ?_))
      · exact fun t ht => ⟨a + n, List.mem_cons_self, i, hj, ht⟩
      · exact hBefore.trans hGrows
    | @jump _ j l hj hTarget hLabel =>
      obtain rfl : i = j := Option.some.inj (hPlace.symm.trans hj)
      obtain rfl : i' = .label l := by
        have hn' : n' < code.length := (List.getElem?_eq_some_iff.mp hAt').1
        rw [Label.At, hk', hCode.getElem? hn', hAt'] at hLabel
        exact Option.some.inj hLabel
      -- a jump or a branch is no label
      have hSame : i.ahead δ (flow δ ∅ (code.take n)) = flow δ ∅ (code.take n) := by
        cases i with
        | label l' => cases hTarget
        | _ => rfl
      rw [hSame] at hBefore
      exact ((h.at hAt).arrives l (.inl hTarget)).trans (hBefore.trans hGrows)

/-- **What has been written for certain has been written.** If a `Walk` has not left a piece of code
since it entered it, what the code reads has been written on the walk. -/
theorem Flows.sound {a k t : Nat} {past : List Nat} (h : Flows δ ∅ code)
    (hCode : CodeAt whole a code) (hWalk : Walk whole a k past)
    (hPast : ∀ j ∈ past, a ≤ j ∧ j < a + code.length) (hLow : a ≤ k) (hHigh : k < a + code.length)
    (hAt : whole[k]? = some i) (hRead : .temp t ∈ i.reads) : ∃ w ∈ past, Writes whole t w := by
  obtain ⟨n, rfl⟩ := Nat.exists_eq_add_of_le hLow
  have hAt' : code[n]? = some i := (hCode.getElem? (by omega)).symm.trans hAt
  have hCertain : t ∈ flow δ ∅ (code.take n) := (h.at hAt').reads _ hRead t rfl
  refine h.ahead_written hCode hWalk hPast n i rfl hAt' ?_
  cases i with
  | label l => cases hRead
  | _ => exact hCertain

end

end JumpCode
