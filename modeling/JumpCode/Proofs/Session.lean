import JumpCode.Proofs.Code.Labels

/-!
# JumpCode — sessions

A session reads sources one after the other and emits the units that have been accepted, any of
them at any time and any number of times, into one emitter. Each unit keeps the exits that its
emissions have bound. A source that is refused changes nothing.

* `Session.step_inOrder` — what one request keeps up;
* `Session.labels_in_order` — the labels of whole sessions.
-/

namespace JumpCode

open Emission

/-! ## Requests -/

/-- What a `Session` is asked to do. -/
inductive Request
  /-- Read a source, up to the failure that its lexer ends in. -/
  | read (tokens : List (Located Token)) (ending : Option (Located LexError))
  /-- Emit a unit, counted in the order in which they have been accepted. -/
  | emit (unit : Nat)

/-- What one emission of a unit has done: the `Supply` before and after it, the code, and how it has
ended. -/
structure Generation where
  before : Supply
  after : Supply
  code : List Instruction
  outcome : Except UnboundExit Unit

/-- The state of a session: its `Emitter`, the accepted units with their `Exits`, and all emissions
(`Generation`). -/
structure Session where
  emitter : Emitter
  units : List (Program × Exits)
  generations : List Generation

namespace Session

/-- A session in which nothing has happened. -/
def fresh : Session := ⟨.fresh, [], []⟩

/-- Emits a unit with the exits that it has bound so far, and keeps what has been done as a
`Generation`. -/
def emitUnit (σ : Session) (unit : Nat) (p : Program) (exits : Exits) : Session :=
  let ((outcome, exits'), emitter) := p.emitWith exits σ.emitter
  { emitter := emitter
    units := σ.units.set unit (p, exits')
    generations := σ.generations ++
      [⟨σ.emitter.supply, emitter.supply, emitter.code.drop σ.emitter.size, outcome⟩] }

/-- Carries out a `Request`. -/
def step (σ : Session) : Request → Session
  | .read tokens ending =>
    match (readTokens tokens ending).outcome with
    | .ok p => { σ with units := σ.units ++ [(p, [])] }
    | .error _ => σ
  | .emit unit =>
    match σ.units[unit]? with
    | some (p, exits) => σ.emitUnit unit p exits
    | none => σ

/-- Carries out requests in order, each by `step`. -/
def run (σ : Session) (requests : List Request) : Session := requests.foldl step σ

end Session

/-! ## Labels in order -/

/-- An emission has succeeded, marks only labels reserved with it (`Label.Between`), and jumps only
to labels that are reserved with it and marked in it. -/
structure Generation.Closed (g : Generation) : Prop where
  outcome : g.outcome = .ok ()
  marks (l : Label) (hMark : .label l ∈ g.code) : l.Between g.before g.after
  targets (i : Instruction) (hCode : i ∈ g.code) (l : Label) (hTarget : i.target? = some l) :
    l.Between g.before g.after ∧ .label l ∈ g.code

/-- What holds at all times of a session: its units have been accepted, its code is what its
emissions have added, and `LabelsOn` holds of the whole code. It is kept by each `Request`
(`Session.step_inOrder`). -/
structure Session.InOrder (σ : Session) : Prop where
  units (u : Program × Exits) (hUnit : u ∈ σ.units) :
    ∃ tokens ending, (readTokens tokens ending).outcome = .ok u.1
  code : σ.emitter.code = σ.generations.flatMap (·.code)
  labels : LabelsOn (fun _ => False) [] .fresh σ.emitter.code σ.emitter.supply
  closed (g : Generation) (hGeneration : g ∈ σ.generations) :
    g.Closed ∧ g.after.labels ≤ σ.emitter.supply.labels
  apart : σ.generations.Pairwise fun g g' => g.after.labels ≤ g'.before.labels

namespace Session

theorem fresh_inOrder : fresh.InOrder where
  units _ hUnit := absurd hUnit List.not_mem_nil
  code := rfl
  labels := .nil
  closed _ hGeneration := absurd hGeneration List.not_mem_nil
  apart := .nil

theorem emitUnit_inOrder {σ : Session} (h : σ.InOrder) {unit : Nat} {p : Program} {exits : Exits}
    (hUnit : σ.units[unit]? = some (p, exits)) : (σ.emitUnit unit p exits).InOrder := by
  -- every unit has been read, whatever has been emitted since
  obtain ⟨tokens, ending, hRead⟩ := h.units (p, exits) (List.mem_of_getElem? hUnit)
  obtain ⟨exits', s', code, hEmits, hCode⟩ := p.emits_of_read hRead exits σ.emitter.supply
  have hLabels := hCode.labels
  -- the new state, with what emission is known to come to
  have hRun : σ.emitUnit unit p exits = ⟨⟨s', σ.emitter.code ++ code⟩,
      σ.units.set unit (p, exits'),
      σ.generations ++ [⟨σ.emitter.supply, s', code, .ok ()⟩]⟩ := by
    unfold Emits at hEmits
    unfold emitUnit Program.emitWith Emitter.run
    rw [hEmits]
    simp [Emitter.size]
  rw [hRun]
  refine ⟨?_, ?_, ?_, ?_, ?_⟩
  · intro u hMem
    rcases List.mem_or_eq_of_mem_set hMem with hOld | rfl
    · exact h.units u hOld
    · exact ⟨tokens, ending, hRead⟩
  · dsimp only
    rw [List.flatMap_append, List.flatMap_singleton, h.code]
  · exact h.labels.append hLabels
  · intro g hMem
    rcases List.mem_append.mp hMem with hOld | hNew
    · obtain ⟨hClosed, hLe⟩ := h.closed g hOld
      exact ⟨hClosed, Nat.le_trans hLe hLabels.le⟩
    · rw [List.mem_singleton] at hNew
      subst hNew
      -- no jump leaves the code, and all labels of its range are marked
      refine ⟨⟨rfl, fun _ => hLabels.label_mem_iff.mp, ?_⟩, Nat.le_refl _⟩
      intro i hInstruction l hTarget
      rcases hLabels.targets i hInstruction l hTarget with hBetween | hOutside
      · exact ⟨hBetween, hLabels.label_mem_iff.mpr hBetween⟩
      · exact hOutside.elim
  · refine List.pairwise_append.mpr ⟨h.apart, List.pairwise_singleton _ _, ?_⟩
    intro g hOld g' hNew
    rw [List.mem_singleton] at hNew
    subst hNew
    exact (h.closed g hOld).2

/-- One request keeps all labels in order (`InOrder`): reading adds no code, and what a unit adds
has its own labels. -/
theorem step_inOrder {σ : Session} (h : σ.InOrder) (r : Request) : (σ.step r).InOrder := by
  cases r with
  | read tokens ending =>
    rw [step]
    split
    · next p hRead =>
      refine ⟨?_, h.code, h.labels, h.closed, h.apart⟩
      intro u hMem
      rcases List.mem_append.mp hMem with hOld | hNew
      · exact h.units u hOld
      · rw [List.mem_singleton] at hNew
        subst hNew
        exact ⟨tokens, ending, hRead⟩
    -- a source that is refused changes nothing
    · exact h
  | emit unit =>
    rw [step]
    split
    · next p exits hUnit => exact emitUnit_inOrder h hUnit
    · exact h

theorem run_inOrder {σ : Session} (h : σ.InOrder) (requests : List Request) :
    (σ.run requests).InOrder := by
  induction requests generalizing σ with
  | nil => exact h
  | cons r requests ih => exact ih (step_inOrder h r)

/-- **Labels are in order over whole sessions.** After any requests, the code marks all labels that
have been reserved, once each, and no others. It consists of the code of the emissions, none of
which has failed; in each of them every jump goes to a label that is reserved with this emission
and marked in it, and no two of them mark the same label. -/
theorem labels_in_order (requests : List Request) :
    (∀ l : Label, (fresh.run requests).emitter.code.count (.label l) =
      if 1 ≤ l.number ∧ l.number ≤ (fresh.run requests).emitter.supply.labels then 1 else 0) ∧
    (fresh.run requests).emitter.code = (fresh.run requests).generations.flatMap (·.code) ∧
    (∀ g ∈ (fresh.run requests).generations, g.outcome = .ok () ∧
      ∀ i ∈ g.code, ∀ l, i.target? = some l → l.Between g.before g.after ∧ .label l ∈ g.code) ∧
    (fresh.run requests).generations.Pairwise fun g g' =>
      ∀ l, .label l ∈ g.code → .label l ∉ g'.code := by
  have h := run_inOrder fresh_inOrder requests
  refine ⟨?_, h.code, ?_, ?_⟩
  · intro l
    rw [h.labels.marks l]
    rfl
  · intro g hMem
    obtain ⟨hClosed, _⟩ := h.closed g hMem
    exact ⟨hClosed.outcome, hClosed.targets⟩
  · refine h.apart.imp_of_mem ?_
    intro g g' hMem hMem' hApart l hMark hMark'
    -- a label of both would have to lie in both ranges
    have hLabel := (h.closed g hMem).1.marks l hMark
    have hLabel' := (h.closed g' hMem').1.marks l hMark'
    exact absurd hLabel.2 (Nat.not_le.mpr (Nat.lt_of_le_of_lt hApart hLabel'.1))

end Session

end JumpCode
