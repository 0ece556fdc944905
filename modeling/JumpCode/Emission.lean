import JumpCode.Instruction

/-!
# JumpCode — emission of code

An emission draws fresh labels and temporaries from counters, yields a value, and emits a piece of
code. What it emits depends on the counters alone, never on code emitted before; one emission after
another emits the one piece followed by the other.

The counters are a parameter. A `Supply` counts without bound, so that no number is ever drawn
twice. A `WordSupply` holds each count in 32 bits, as the counters of a machine do: behind the
greatest word it goes on from zero. Every `EmissionOn` is written once and runs on both.

* `Emission.run_bind` — sequencing concatenates code and threads the counters;
* the instance `LawfulMonad (EmissionOn S)`.
-/

namespace JumpCode

/-! ## Counters -/

/-- Counters that number labels and temporaries in the order in which these are reserved. -/
class Counters (S : Type) where
  /-- The number of the label that is reserved next, and the counters once it is. -/
  label : S → Nat × S
  /-- The number of the temporary that is reserved next, and the counters once it is. -/
  temp : S → Nat × S

/-- How many labels and temporaries have been reserved; the next ones are numbered from there. The
counts of a `Supply` have no limit, so that it never draws a number twice. -/
structure Supply where
  labels : Nat
  temps : Nat
deriving DecidableEq, Repr

/-- The `Supply` from which nothing has been reserved. -/
def Supply.fresh : Supply := ⟨0, 0⟩

instance : Counters Supply where
  label s := (s.labels + 1, { s with labels := s.labels + 1 })
  temp s := (s.temps + 1, { s with temps := s.temps + 1 })

/-- The two counts in 32 bits each. Addition of `UInt32` wraps around: behind the last number comes
zero, and numbers that have been in use come again. -/
structure WordSupply where
  labels : UInt32
  temps : UInt32
deriving DecidableEq, Repr

instance : Counters WordSupply where
  label s := ((s.labels + 1).toNat, { s with labels := s.labels + 1 })
  temp s := ((s.temps + 1).toNat, { s with temps := s.temps + 1 })

/-! ## Emissions -/

/-- What an emission comes to: its value, the counters that it leaves, and the code that it has
emitted. -/
structure Emitted (α : Type) (S : Type := Supply) where
  value : α
  supply : S
  code : List Instruction

/-- A computation that reserves names, numbered by counters of type `S`, and emits code. It is
written once for all `Counters`. -/
def EmissionOn (S α : Type) : Type := S → Emitted α S

/-- A computation that reserves names from a `Supply`, which is what the theory of code is about. -/
abbrev Emission : Type → Type := EmissionOn Supply

section

variable {S : Type}

/-- What an emission comes to when it is carried out from some counters. -/
def EmissionOn.run {α : Type} (m : EmissionOn S α) (s : S) : Emitted α S := m s

instance : Monad (EmissionOn S) where
  pure a := fun s => ⟨a, s, []⟩
  bind m f := fun s =>
    let first := m s
    let second := f first.value first.supply
    ⟨second.value, second.supply, first.code ++ second.code⟩

namespace Emission

@[ext] theorem ext {α : Type} {m n : EmissionOn S α} (h : ∀ s, m.run s = n.run s) : m = n :=
  funext h

@[simp] theorem run_pure {α : Type} (a : α) (s : S) :
    (pure a : EmissionOn S α).run s = ⟨a, s, []⟩ := rfl

@[simp] theorem run_bind {α β : Type} (m : EmissionOn S α) (f : α → EmissionOn S β) (s : S) :
    (m >>= f).run s =
      ⟨((f (m.run s).value).run (m.run s).supply).value,
        ((f (m.run s).value).run (m.run s).supply).supply,
        (m.run s).code ++ ((f (m.run s).value).run (m.run s).supply).code⟩ := rfl

instance : LawfulMonad (EmissionOn S) := LawfulMonad.mk' (EmissionOn S)
  (fun m => funext fun s => by
    show (⟨(m s).value, (m s).supply, (m s).code ++ []⟩ : Emitted _ S) = m s
    rw [List.append_nil])
  (fun _ _ => rfl)
  (fun _ _ _ => by ext s; simp [List.append_assoc])

end Emission

end

/-! ## Primitive emissions -/

namespace Emission

section

variable {S : Type}

/-- Reserves a `Label`, with the next number that the counters draw. -/
def newLabel [Counters S] : EmissionOn S Label := fun s =>
  let (number, s) := Counters.label s
  ⟨⟨number⟩, s, []⟩

/-- Reserves a temporary, with the next number that the counters draw, as an `Operand`. -/
def newTemp [Counters S] : EmissionOn S Operand := fun s =>
  let (number, s) := Counters.temp s
  ⟨.temp number, s, []⟩

/-- Emits one `Instruction`, and reserves nothing. -/
def emit (i : Instruction) : EmissionOn S Unit := fun s => ⟨(), s, [i]⟩

/-- Emits a label: `Instruction.label` marks this place in the code. -/
def mark (l : Label) : EmissionOn S Unit := emit (.label l)

@[simp] theorem run_emit (i : Instruction) (s : S) : (emit i).run s = ⟨(), s, [i]⟩ := rfl

@[simp] theorem run_mark (l : Label) (s : S) : (mark l).run s = ⟨(), s, [.label l]⟩ := rfl

end

@[simp] theorem run_newLabel (s : Supply) :
    newLabel.run s = ⟨⟨s.labels + 1⟩, ⟨s.labels + 1, s.temps⟩, []⟩ := rfl

@[simp] theorem run_newTemp (s : Supply) :
    newTemp.run s = ⟨.temp (s.temps + 1), ⟨s.labels, s.temps + 1⟩, []⟩ := rfl

end Emission

/-! ## Jumps on a test -/

/-- Where control is to go: to a label, or on with whatever code comes next. Code that falls on to a
`Target` needs no jump there. -/
inductive Target
  | label (l : Label)
  | fall
deriving DecidableEq, Repr

namespace Emission

variable {S : Type}

/-- Emits the fewest jumps that go to one `Target` if a `Test` holds and to the other if not: none
where both fall on, two only where neither does. -/
def jumpsOnTest (test : Test) : Target → Target → EmissionOn S Unit
  | .label onTrue, .label onFalse => do
    emit (.branch test true onTrue)
    emit (.jump onFalse)
  | .label onTrue, .fall => emit (.branch test true onTrue)
  | .fall, .label onFalse => emit (.branch test false onFalse)
  | .fall, .fall => pure ()

/-- Emits a jump to a `Target`, unless control falls there. -/
def goto : Target → EmissionOn S Unit
  | .label l => emit (.jump l)
  | .fall => pure ()

end Emission

/-! ## Emitters -/

/-- All code that has been emitted so far, and the counters that go with it. Several programs may be
emitted with one `Emitter`, one behind the other. -/
structure Emitter (S : Type := Supply) where
  supply : S
  code : List Instruction

namespace Emitter

variable {S : Type}

/-- The `Emitter` that has emitted nothing yet, on some counters. -/
def ofSupply (s : S) : Emitter S := ⟨s, []⟩

/-- The `Emitter` at the beginning, which counts from `Supply.fresh`. -/
def fresh : Emitter := ofSupply .fresh

/-- How many instructions an `Emitter` has emitted, labels included. -/
def size (e : Emitter S) : Nat := e.code.length

/-- Carries out an emission: its code goes behind all code so far, and the counters go on from where
they are. -/
def run {α : Type} (e : Emitter S) (m : EmissionOn S α) : α × Emitter S :=
  let emitted := m.run e.supply
  (emitted.value, ⟨emitted.supply, e.code ++ emitted.code⟩)

theorem code_run {α : Type} (e : Emitter S) (m : EmissionOn S α) :
    (e.run m).2.code = e.code ++ (m.run e.supply).code := rfl

end Emitter

end JumpCode
