import JumpCode.Proofs.Breaks
import JumpCode.Proofs.Names.Leaves
import JumpCode.Proofs.Names.Texts

/-!
# JumpCode — what a listing shows

A listing has only texts for operands and arrays. Two of them with the same text are the same, but
for what a program is free to do: name a variable like a temporary, and declare a name again in
another block.

* `listing_names` — what operands with the same text may be;
* `listing_names_ambiguous` — a program whose listing shows both exceptions.
-/

namespace JumpCode

/-- An instruction of a piece of code mentions an operand or an array (`Instruction.mentions`). -/
def Mentioned (code : List Instruction) (o : Operand) : Prop := ∃ i ∈ code, o ∈ i.mentions

instance (code : List Instruction) (o : Operand) : Decidable (Mentioned code o) :=
  inferInstanceAs (Decidable (∃ i ∈ code, o ∈ i.mentions))

/-- What two operands with the same text may be, by the symbols that the blocks of a program
declare: the same, or one of the exceptions. -/
inductive Operand.Alike (blocks : List (List Symbol)) : Operand → Operand → Prop
  | same (o : Operand) : Alike blocks o o
  /-- A variable is named like a temporary. -/
  | named {x : Symbol} {n : Nat} (hName : x.name = (temp n).render) :
      Alike blocks (.var x) (.temp n)
  /-- A temporary has the text that a variable is named. -/
  | numbered {x : Symbol} {n : Nat} (hName : (temp n).render = x.name) :
      Alike blocks (.temp n) (.var x)
  /-- Two blocks declare one name. -/
  | redeclared {x y : Symbol} {i j : Nat} {block block' : List Symbol} (hName : x.name = y.name)
      (hBlock : blocks[i]? = some block) (hBlock' : blocks[j]? = some block') (hx : x ∈ block)
      (hy : y ∈ block') (hOther : i ≠ j) : Alike blocks (.var x) (.var y)

/-- In a program that has been read, what is declared has a name as it is spelled in the text, and
real constants are sizes: what is `Operand.Sourced` is `Operand.Spelled`. -/
theorem Accounts.spelled {s : Source} {d : Clause .block} {leaves : List Operand}
    {blocks : List (List Symbol)} (hTokens : d.tokens = s.scan.tokens.map (·.value))
    (h : Accounts .empty d.blocks d.tokens leaves blocks) {o : Operand}
    (ho : o.Sourced (fun x => ∃ b ∈ blocks, x ∈ b) d.tokens) : o.Spelled := by
  have hToken : ∀ t ∈ d.tokens, t.Spelled := by
    intro t ht
    rw [hTokens] at ht
    obtain ⟨located, hLocated, rfl⟩ := List.mem_map.mp ht
    exact Lexer.scan_spelled _ located hLocated
  cases o with
  | var x =>
    obtain ⟨b, hb, hx⟩ := ho
    have hNames : b.map (·.name) ∈ d.blocks := h.names ▸ List.mem_map_of_mem hb
    exact hToken _ (d.name_mem_tokens hNames (List.mem_map_of_mem hx))
  | temp n => trivial
  | const c =>
    cases c with
    | real r => exact hToken _ ho
    | _ => trivial

/-- Two declared symbols of one name are the same, or are declared by two blocks, since no block
declares a name twice. -/
theorem Accounts.alike {Γ : Scope} {names : List (List String)} {tokens : List Token}
    {leaves : List Operand} {blocks : List (List Symbol)}
    (h : Accounts Γ names tokens leaves blocks) {x y : Symbol} (hx : ∃ b ∈ blocks, x ∈ b)
    (hy : ∃ b ∈ blocks, y ∈ b) (hName : x.name = y.name) :
    Operand.Alike blocks (.var x) (.var y) := by
  obtain ⟨b, hb, hx⟩ := hx
  obtain ⟨b', hb', hy⟩ := hy
  obtain ⟨i, hi⟩ := List.getElem?_of_mem hb
  obtain ⟨j, hj⟩ := List.getElem?_of_mem hb'
  by_cases hSame : i = j
  · -- in one block a name is declared once
    subst hSame
    obtain rfl := Option.some.inj (hi.symm.trans hj)
    obtain rfl := List.inj_on_of_nodup_map (h.distinct b hb) hx hy hName
    exact .same _
  · exact .redeclared hName hi hj hx hy hSame

/-- **Texts in a listing.** Emission of a program that has been read succeeds. All variables and
arrays in its code are declared by blocks of the text, each with the names that it spells and no
name twice. Two operands or arrays in the code that have the same text are the same, unless a
variable is named like a temporary or two variables of one name are declared by two blocks. -/
theorem listing_names {s : Source} {p : Program} (hRead : s.read.outcome = .ok p) (exits : Exits)
    (e : Emitter) :
    (p.emitWith exits e).1.1 = .ok () ∧
    ∃ code, (p.emitWith exits e).2.code = e.code ++ code ∧
    ∃ d : Clause .block, d.tokens = s.scan.tokens.map (·.value) ∧ d.NearestElse ∧
    ∃ blocks : List (List Symbol), blocks.map (·.map (·.name)) = d.blocks ∧
      (∀ b ∈ blocks, (b.map (·.name)).Nodup) ∧
      (∀ x, Mentioned code (.var x) → ∃ b ∈ blocks, x ∈ b) ∧
      ∀ o o', Mentioned code o → Mentioned code o' → o.render = o'.render → o.Alike blocks o' := by
  obtain ⟨exits', s', code, hEmits, hCode⟩ := p.emits_of_read hRead exits e.supply
  obtain ⟨-, d, hTokens, hNearest, t, hMeans, -⟩ := exists_derivation hRead
  obtain ⟨blocks, hAccounts⟩ := hMeans.accounts
  -- around a program nothing is in force
  have hDeclared : ∀ x, (∃ b ∈ blocks, x ∈ b) ∨ Scope.empty.Has x → ∃ b ∈ blocks, x ∈ b := by
    rintro x (h | ⟨frame, hFrame, hx⟩)
    · exact h
    · simp_all [Scope.frames, Scope.empty]
  have hMentions : Mentions (·.Sourced (fun x => ∃ b ∈ blocks, x ∈ b) d.tokens) code :=
    hCode.mentions ⟨fun _ => trivial, fun _ => trivial, fun o ho =>
      (hAccounts.sourced o ho).mono hDeclared (List.Subset.refl _)⟩
  unfold Emits at hEmits
  simp only [Program.emitWith, Emitter.run, hEmits]
  refine ⟨trivial, code, rfl, d, hTokens, hNearest, blocks, hAccounts.names, hAccounts.distinct,
    ?_, ?_⟩
  · rintro x ⟨i, hi, hx⟩
    exact hMentions i hi _ hx
  · rintro o o' ⟨i, hi, ho⟩ ⟨i', hi', ho'⟩ hSame
    have hSource := hMentions i hi o ho
    have hSource' := hMentions i' hi' o' ho'
    rcases Operand.render_cases (hAccounts.spelled hTokens hSource)
        (hAccounts.spelled hTokens hSource') hSame with
      rfl | ⟨x, y, rfl, rfl⟩ | ⟨x, n, rfl, rfl⟩ | ⟨x, n, rfl, rfl⟩
    · exact .same o
    · exact hAccounts.alike hSource hSource' hSame
    · exact .named hSame
    · exact .numbered hSame

/-- A source with a variable that is named like a temporary, and a name that is declared twice. -/
def ambiguousSource : Source :=
  ⟨"names", [some "\x7b int x; int t1; x = (x + t1) * 2; \x7b int x; x = t1; \x7d \x7d"]⟩

/-- What the listing of this source shows in the same text: a variable and a temporary, and two
variables. -/
def ambiguousOperands : List Operand :=
  [.var ⟨"t1", .int, 4⟩, .temp 1, .var ⟨"x", .int, 0⟩, .var ⟨"x", .int, 8⟩]

theorem exists_ambiguous : ∃ p, ambiguousSource.read.outcome = .ok p ∧
    ∀ o ∈ ambiguousOperands, Mentioned (p.emitWith [] .fresh).2.code o := by
  have hPasses : ambiguousSource.read.passes fun p =>
      decide (∀ o ∈ ambiguousOperands, Mentioned (p.emitWith [] .fresh).2.code o) := by
    decide +kernel
  obtain ⟨p, hRead, hMentioned⟩ := Reading.exists_of_passes hPasses
  exact ⟨p, hRead, of_decide_eq_true hMentioned⟩

/-- There is a program with two variables of one name, and these are declared by two blocks. -/
theorem listing_names_sample : ∃ p, ambiguousSource.read.outcome = .ok p ∧
    ∃ (code : List Instruction) (blocks : List (List Symbol)),
      (p.emitWith [] .fresh).2.code = code ∧ (∀ b ∈ blocks, (b.map (·.name)).Nodup) ∧
      (∀ x, Mentioned code (.var x) → ∃ b ∈ blocks, x ∈ b) ∧
      ∀ o o', Mentioned code o → Mentioned code o' → o.render = o'.render → o.Alike blocks o' := by
  obtain ⟨p, hRead, -⟩ := exists_ambiguous
  obtain ⟨-, code, hCode, -, -, -, blocks, -, hDistinct, hDeclared, hAlike⟩ :=
    listing_names hRead [] .fresh
  exact ⟨p, hRead, code, blocks, hCode, hDistinct, hDeclared, hAlike⟩

/-- **A listing may be ambiguous.** There is a program with a variable that has the same text as a
temporary of its code, and with two variables of one name. -/
theorem listing_names_ambiguous : ∃ p, ambiguousSource.read.outcome = .ok p ∧
    ∃ (x y z : Symbol) (n : Nat), Mentioned (p.emitWith [] .fresh).2.code (.var x) ∧
      Mentioned (p.emitWith [] .fresh).2.code (.temp n) ∧
      (Operand.var x).render = (Operand.temp n).render ∧
      Mentioned (p.emitWith [] .fresh).2.code (.var y) ∧
      Mentioned (p.emitWith [] .fresh).2.code (.var z) ∧ y ≠ z ∧
      (Operand.var y).render = (Operand.var z).render := by
  obtain ⟨p, hRead, hAll⟩ := exists_ambiguous
  simp only [ambiguousOperands, List.forall_mem_cons] at hAll
  obtain ⟨hx, hTemp, hy, hz, -⟩ := hAll
  exact ⟨p, hRead, _, _, _, 1, hx, hTemp, by decide, hy, hz, by decide, rfl⟩

end JumpCode
