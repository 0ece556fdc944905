import JumpCode.Proofs.Code.Regions
import JumpCode.Proofs.Code.Truth
import JumpCode.Proofs.Simulation.Program

/-!
# JumpCode — temporaries are written before they are read

Control may take any way through the code of a program, whichever way its tests come out. Wherever
it comes to an instruction that reads a temporary, it has passed one that writes it, and has done so
since it last passed the start of the statement to which the instruction belongs.

* `Region.On.writtenSince` — inside of a region what is read has been written since its start;
* `Written.settled` — a temporary is written at one place, or is decided by a truth value;
* `temporaries_defined` — both, for every program that has been read.
-/

namespace JumpCode

open Emission

/-! ## Reads -/

/-- Since control last passed the start of a statement, a temporary has been written by the code
that the statement has of its own, which is the `Region`. -/
def Region.WrittenSince (whole : List Instruction) (r : Region) (t : Nat) (past : List Nat) :
    Prop :=
  ∃ later earlier, past = later ++ r.start :: earlier ∧ r.start ∉ later ∧
    ∃ k ∈ later, r.Has k ∧ Writes whole t k

/-- **Reads in a region.** What an instruction of a `Region` reads has been written since control
last passed the start of the statement, on any `Walk`. -/
theorem Region.On.writtenSince {s s' : Supply} {whole : List Instruction} {r : Region}
    (h : r.On s s' whole 0) {k t : Nat} {past : List Nat} {i : Instruction}
    (hWalk : Walk whole 0 k past) (hHas : r.Has k) (hAt : whole[k]? = some i)
    (hRead : .temp t ∈ i.reads) : r.WrittenSince whole t past := by
  obtain ⟨front, lead, own, back, hCode, hStart, hOwn, hStop, ⟨δ, hFlows⟩, -, hOthers, hAround⟩ := h
  obtain ⟨hLow, hHigh⟩ := hHas
  rw [Nat.zero_add] at hStart hOwn
  have hPiece : whole = front ++ ((lead ++ own) ++ back) := by rw [hCode, List.append_assoc lead]
  have hOwnCode : whole = (front ++ lead) ++ (own ++ back) := by rw [hCode, List.append_assoc front]
  have hEntersPiece := entered_of hPiece fun i hi l hTarget => (hAround i hi).1 l hTarget
  have hEntersOwn := entered_of hOwnCode fun i hi l hTarget =>
    (hOthers i (by simpa using hi)).1 l hTarget
  simp only [List.length_append] at hEntersPiece hEntersOwn
  -- the code of the statement has been entered at its label, behind which the walk has stayed in it
  obtain ⟨later, outer, rfl, hLater, hInside, hOuter⟩ :=
    hWalk.enter hEntersPiece (Nat.zero_le _) (by omega) (by omega)
  obtain ⟨hFirst, -⟩ | ⟨before, earlier, hBefore, rfl⟩ := hOuter
  · omega
  obtain rfl : before = r.start := by omega
  -- from there on it has come to the code of its own
  obtain ⟨recent, rest, rfl, hRecent, hInOwn, -⟩ :=
    hLater.enter hEntersOwn (Nat.le_add_right _ _) (by omega) (by omega)
  have hPlace : CodeAt whole (front.length + lead.length) own :=
    ⟨front ++ lead, back, hOwnCode, List.length_append.symm⟩
  obtain ⟨w, hMem, hWrites⟩ := hFlows.sound hPlace hRecent hInOwn (by omega) (by omega) hAt hRead
  refine ⟨recent ++ rest, earlier, rfl, fun hStarts => ?_, w, List.mem_append_left _ hMem, ?_,
    hWrites⟩
  · have := hInside _ hStarts
    omega
  · have := hInOwn w hMem
    exact ⟨by omega, by omega⟩

/-- No code outside of a `Region` uses a temporary that the region uses. -/
theorem Region.On.has_of_uses {s s' : Supply} {whole : List Instruction} {r : Region}
    (h : r.On s s' whole 0) {k k' t : Nat} {i i' : Instruction} (hHas : r.Has k)
    (hAt : whole[k]? = some i) (hUse : i.Uses t) (hAt' : whole[k']? = some i') (hUse' : i'.Uses t) :
    r.Has k' := by
  obtain ⟨front, lead, own, back, hCode, -, hOwn, hStop, -, -, hOthers, -⟩ := h
  have hOwnCode : whole = (front ++ lead) ++ (own ++ back) := by rw [hCode, List.append_assoc front]
  have hLength : (front ++ lead).length = r.own := by rw [List.length_append]; omega
  -- what stands elsewhere uses no temporary of this code
  by_contra hElsewhere
  unfold Region.Has at hHas hElsewhere
  have hOwner := mem_of_inside hOwnCode (by omega) (by omega) hAt
  have hOther := mem_of_outside hOwnCode (by omega) hAt'
  exact (hOthers i' (by simpa using hOther)).2 t hUse' i hOwner hUse

/-! ## Writes -/

/-- A temporary is written at one place alone, or it holds the truth value of an expression, and the
code of this expression decides it. -/
def Settled (whole : List Instruction) (t : Nat) : Prop :=
  (∃ k, Writes whole t k ∧ ∀ k', Writes whole t k' → k' = k) ∨
  ∃ (e : Expr) (v v' : Supply) (piece : List Instruction) (a onTrue onFalse : Nat),
    e.emitValue.run v = ⟨.use (.temp t), v', piece⟩ ∧ CodeAt whole a piece ∧
    Decides whole t a (a + piece.length) onTrue onFalse

/-- What emission has `Written` is `Settled`, as long as no label is marked twice. -/
theorem Written.settled {s s' : Supply} {whole : List Instruction} {t : Nat}
    (h : Written s s' whole t) (hOnce : MarksOnce whole) : Settled whole t := by
  cases h with
  | once front back value hCode hOthers =>
    have hPlace : whole = front ++ ([.assign (.temp t) value] ++ back) := hCode
    have hHere : whole[front.length]? = some (.assign (.temp t) value) := by simp [hCode]
    refine .inl ⟨front.length, ⟨_, hHere, rfl⟩, fun k hWrites => ?_⟩
    have hInside := hWrites.inside hPlace hOthers
    rw [List.length_singleton] at hInside
    omega
  | truth front piece back e v v' hLogical hRun _ _ hCode hOthers =>
    obtain ⟨onTrue, onFalse, hDecides⟩ := Expr.decides hLogical hRun hOnce hCode hOthers
    exact .inr ⟨e, v, v', piece, front.length, onTrue, onFalse, hRun, ⟨front, back, hCode, rfl⟩,
      hDecides⟩

/-! ## Programs -/

section

variable {p : Program} {s s' : Supply} {code : List Instruction}

/-- The temporaries of a program are those that are reserved with it (`TempsOn`). -/
theorem Program.CodeOn.temps (h : p.CodeOn s code s') :
    TempsOn (fun _ => False) s.temps s code s' := by
  obtain ⟨body, rfl, hLayout⟩ := h
  refine .reserve (.reserve ((TempsOn.label _).append
    ((hLayout.temps.mono (Nat.le_refl _) ?_).append (.label _))))
  exact Surrounding.all (.inr (.inl rfl)) (.inl rfl) fun _ hNone => by cases hNone

/-- The regions of a program stand in its code, from its first instruction on (`RegionsOn`). -/
theorem Program.CodeOn.regions (h : p.CodeOn s code s') :
    RegionsOn s.skipLabel.skipLabel s' (p.regions s) code 0 := by
  obtain ⟨body, rfl, hLayout⟩ := h
  have hBody := hLayout.regions (Surrounding.all (Nat.le_succ (s.labels + 1)) (Nat.le_refl _)
    fun _ hNone => by cases hNone) 0
  exact (hBody.concat (i := .label _) hLayout.before (by simp [Instruction.Uses])
    (by simp)).label hLayout.before

end

/-- **Temporaries are written before they are read.** Emission of a program that has been read
succeeds, and the statements of the program have regions of the code to themselves. Whichever way
control takes from the first instruction on, what it comes to read is read in the region of a
statement, and has been written there since control last passed the start of this statement. Every
temporary that is reserved is written at one place, or at two places that assign the two truth
values and one of which every walk through the code of their expression passes; and all code that
uses it is in one region. -/
theorem temporaries_defined {tokens : List (Located Token)} {ending : Option (Located LexError)}
    {p : Program} (hRead : (readTokens tokens ending).outcome = .ok p) (exits : Exits)
    (s : Supply) :
    ((p.emit.emission exits).run s).value.1 = .ok () ∧
    (∀ r ∈ p.regions s, r.Stands (p.codeFrom exits s)) ∧
    (p.regions s).Pairwise (fun r r' => r.stop ≤ r'.own) ∧
    (∀ k past, Walk (p.codeFrom exits s) 0 k past →
      ∀ i t, (p.codeFrom exits s)[k]? = some i → .temp t ∈ i.reads →
        ∃ r ∈ p.regions s, r.Has k ∧ r.WrittenSince (p.codeFrom exits s) t past) ∧
    (∀ t, s.temps < t → t ≤ ((p.emit.emission exits).run s).supply.temps →
      Settled (p.codeFrom exits s) t) ∧
    ∀ k k' i i' t, (p.codeFrom exits s)[k]? = some i → (p.codeFrom exits s)[k']? = some i' →
      i.Uses t → i'.Uses t → ∃ r ∈ p.regions s, r.Has k ∧ r.Has k' := by
  -- the code of the program, with its layout and with the regions of its statements
  obtain ⟨exits', s', code, hEmits, hCode⟩ := p.emits_of_read hRead exits s
  obtain ⟨body, behind, hLayout, hPlaced, -⟩ := hCode.placed
  have hRegions := hCode.regions
  -- what uses a temporary is in a region
  have hOwner : ∀ {k i t}, code[k]? = some i → i.Uses t → ∃ r ∈ p.regions s, r.Has k := by
    intro k i t hAt hUse
    obtain ⟨r, hr, hHas⟩ := hRegions.covers k i hAt t hUse
    exact ⟨r, hr, Nat.zero_add k ▸ hHas⟩
  unfold Emits at hEmits
  rw [Program.codeFrom, hEmits]
  refine ⟨rfl, hLayout.regions_stand hPlaced, hRegions.order, ?_, ?_, ?_⟩
  · intro k past hWalk i t hAt hReads
    obtain ⟨r, hr, hHas⟩ := hOwner hAt (.inl hReads)
    exact ⟨r, hr, hHas, (hRegions.each r hr).writtenSince hWalk hHas hAt hReads⟩
  · intro t hLow hHigh
    exact (hCode.temps.written (fun _ => False.elim) t hLow hHigh).settled hCode.marksOnce
  · intro k k' i i' t hAt hAt' hUse hUse'
    obtain ⟨r, hr, hHas⟩ := hOwner hAt hUse
    exact ⟨r, hr, hHas, (hRegions.each r hr).has_of_uses hHas hAt hUse hAt' hUse'⟩

/-- There is a program with loops, truth values and an array that writes its temporaries before it
reads them. -/
theorem temporaries_defined_sample : ∃ p, (readTokens sampleTokens none).outcome = .ok p ∧
    (∀ k past, Walk (p.codeFrom [] .fresh) 0 k past →
      ∀ i t, (p.codeFrom [] .fresh)[k]? = some i → .temp t ∈ i.reads →
        ∃ r ∈ p.regions .fresh, r.Has k ∧ r.WrittenSince (p.codeFrom [] .fresh) t past) ∧
    ∀ t, 0 < t → t ≤ ((p.emit.emission []).run Supply.fresh).supply.temps →
      Settled (p.codeFrom [] .fresh) t := by
  obtain ⟨p, hRead⟩ := exists_sample
  obtain ⟨-, -, -, hReads, hWrites, -⟩ := temporaries_defined hRead [] .fresh
  exact ⟨p, hRead, hReads, hWrites⟩

end JumpCode
