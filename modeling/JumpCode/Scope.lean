import JumpCode.Ty

/-!
# JumpCode — symbols and scopes

A `Symbol` is a declared name with its type and the place of its storage. A `Scope` is what is
declared at some point of a program: a frame for each open block, the innermost first, over an
outermost frame that is never left. Looking up a name finds the declaration in the innermost frame
that has one.

* `Scope.leave_enter` — what is declared in a block is gone after it;
* `Scope.lookup?_cons` — a declared name is found, and no other name is affected;
* `Scope.declare?_eq_none_iff` — a name is refused exactly when its frame has it.
-/

namespace JumpCode

/-! ## Symbols -/

/-- A declared name. Its storage begins `offset` bytes from the start of the unit's and is
`type.width` bytes long. -/
structure Symbol where
  name : String
  type : Ty
  offset : Nat
deriving DecidableEq

/-! ## Frames -/

/-- The declarations of one block, the latest first. `Scope.declare?` sees to it that no name is
declared twice in a `Frame`. -/
abbrev Frame := List Symbol

/-- The declaration of a name in a `Frame`, if it has one. -/
def Frame.lookup? (frame : Frame) (name : String) : Option Symbol :=
  frame.find? (·.name == name)

/-! ## Scopes -/

/-- The declarations in force: the innermost `Frame` and those around it, from the inside out. -/
structure Scope where
  frame : Frame
  outer : List Frame
deriving DecidableEq

namespace Scope

/-- The `Scope` in which nothing is declared, outside of all blocks. -/
def empty : Scope := ⟨[], []⟩

/-- How many blocks are open. The outermost frame of a `Scope` is not counted, since it is no
block's. -/
def depth (s : Scope) : Nat := s.outer.length

/-- The frames, the innermost first. -/
def frames (s : Scope) : List Frame := s.frame :: s.outer

/-- Opens a block, with an empty `Frame`. -/
def enter (s : Scope) : Scope := ⟨[], s.frames⟩

/-- Leaves the innermost block with all its declarations. The outermost frame stays, whatever is
left (`leave_of_depth_eq_zero`). -/
def leave (s : Scope) : Scope :=
  match s.outer with
  | [] => s
  | frame :: outer => ⟨frame, outer⟩

/-- Declares a symbol in the innermost frame, unless its name is declared there already. A name of a
frame further out may be declared again, and is hidden then. -/
def declare? (s : Scope) (x : Symbol) : Option Scope :=
  match s.frame.lookup? x.name with
  | some _ => none
  | none => some { s with frame := x :: s.frame }

/-- The declaration of a name that is in force: the one in the innermost `Frame` that has the name.
-/
def lookup? (s : Scope) (name : String) : Option Symbol :=
  s.frames.findSome? (·.lookup? name)

/-! ## Laws -/

@[simp] theorem depth_empty : empty.depth = 0 := rfl

@[simp] theorem depth_enter (s : Scope) : s.enter.depth = s.depth + 1 := rfl

/-- **What is declared in a block is gone after it**, here for one without declarations: `leave`
undoes `enter`. -/
@[simp] theorem leave_enter (s : Scope) : s.enter.leave = s := rfl

theorem depth_leave (s : Scope) : s.leave.depth = s.depth - 1 := by
  obtain ⟨frame, _ | ⟨_, outer⟩⟩ := s <;> simp [leave, depth]

theorem leave_of_depth_eq_zero {s : Scope} (h : s.depth = 0) : s.leave = s := by
  obtain ⟨frame, outer⟩ := s
  obtain rfl : outer = [] := List.length_eq_zero_iff.mp h
  rfl

/-- `declare?` refuses a name exactly when the innermost frame has it. -/
theorem declare?_eq_none_iff {s : Scope} {x : Symbol} :
    s.declare? x = none ↔ (s.frame.lookup? x.name).isSome := by
  unfold declare?
  split <;> simp_all

theorem depth_declare? {s t : Scope} {x : Symbol} (h : s.declare? x = some t) :
    t.depth = s.depth := by
  unfold declare? at h
  split at h
  · simp at h
  · obtain rfl := Option.some.inj h; rfl

/-- A declaration in a block makes no difference behind it. -/
theorem leave_declare? {s t : Scope} {x : Symbol} (hDepth : 0 < s.depth)
    (h : s.declare? x = some t) : t.leave = s.leave := by
  unfold declare? at h
  split at h
  · simp at h
  · obtain rfl := Option.some.inj h
    obtain ⟨frame, _ | ⟨_, outer⟩⟩ := s
    · simp [depth] at hDepth
    · rfl

/-- **A declared name is found, and no other name is affected.** -/
theorem lookup?_cons (s : Scope) (x : Symbol) (name : String) :
    lookup? { s with frame := x :: s.frame } name =
      if x.name = name then some x else s.lookup? name := by
  by_cases hName : x.name = name <;>
    simp [lookup?, frames, Frame.lookup?, List.findSome?_cons, hName]

end Scope

end JumpCode
