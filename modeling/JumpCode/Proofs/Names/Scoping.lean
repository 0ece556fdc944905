import JumpCode.Error
import JumpCode.Scope
import Mathlib.Data.List.Induction
import Mathlib.Data.List.Nodup

/-!
# JumpCode — scopes as stacks of blocks

A scope is asked to open and to leave blocks, to declare symbols and to look names up, in any order.
What it answers depends on the requests before alone, and can be told from them: a declaration stays
in force while the block it was made in is open, a name is refused if its block has it, and found in
the innermost block that has it.

* `openBlocks` — the depth that requests lead to;
* `InForce` — a declaration whose block is still open;
* `mem_frameAt_after` — the frames hold what is in force;
* `WellNested.restores` — a block leaves nothing behind;
* `stack_of_blocks` — all requests.
-/

namespace JumpCode

/-! ## Names in frames -/

theorem Frame.lookup?_eq_none_iff {frame : Frame} {name : String} :
    frame.lookup? name = none ↔ ∀ x ∈ frame, x.name ≠ name := by
  simp [Frame.lookup?]

/-- In a `Frame` that has no name twice, a name is found where it is. -/
theorem Frame.lookup?_eq_some_iff {frame : Frame} {name : String} {x : Symbol}
    (h : (frame.map (·.name)).Nodup) :
    frame.lookup? name = some x ↔ x ∈ frame ∧ x.name = name := by
  constructor
  · intro hFind
    exact ⟨List.mem_of_find?_eq_some hFind, by simpa using List.find?_some hFind⟩
  · rintro ⟨hMem, rfl⟩
    cases hFind : frame.lookup? x.name with
    | none => exact absurd rfl (Frame.lookup?_eq_none_iff.mp hFind x hMem)
    | some y =>
      have hName : y.name = x.name := by simpa using List.find?_some hFind
      rw [List.inj_on_of_nodup_map h (List.mem_of_find?_eq_some hFind) hMem hName]

namespace Scope

/-! ## Requests -/

/-- What can be asked of a `Scope`. -/
inductive Request
  | enter
  | leave
  | declare (x : Symbol)
  | lookup (name : String)
deriving DecidableEq

/-- What is answered to a `Request`: how many blocks are open, why a declaration is refused, or what
is found. -/
inductive Answer
  | depth (d : Nat)
  | declared (refusal : Option SemanticError)
  | found (x : Option Symbol)
deriving DecidableEq

/-- The answer to a `Request`, and the `Scope` after it. -/
def respond (s : Scope) : Request → Answer × Scope
  | .enter => (.depth s.enter.depth, s.enter)
  | .leave => (.depth s.leave.depth, s.leave)
  | .declare x =>
    match s.declare? x with
    | none => (.declared (some (.redeclared x.name)), s)
    | some t => (.declared none, t)
  | .lookup name => (.found (s.lookup? name), s)

/-- The scope after requests. -/
def after (s : Scope) (requests : List Request) : Scope :=
  requests.foldl (fun s r => (s.respond r).2) s

/-- The answers to requests, one after the other, each from the scope that the one before has left.
-/
def answers (s : Scope) : List Request → List Answer
  | [] => []
  | r :: requests => (s.respond r).1 :: (s.respond r).2.answers requests

variable {s : Scope} {x y : Symbol} {name : String} {d : Nat} {history requests : List Request}
  {r : Request}

theorem after_append (s : Scope) (before later : List Request) :
    s.after (before ++ later) = (s.after before).after later :=
  List.foldl_append

theorem after_concat (s : Scope) (history : List Request) (r : Request) :
    s.after (history ++ [r]) = ((s.after history).respond r).2 :=
  after_append s history [r]

/-- A declaration is refused because the innermost frame has the name, or it takes effect there. -/
theorem respond_declare_cases (s : Scope) (x : Symbol) :
    ((s.frame.lookup? x.name).isSome ∧
      s.respond (.declare x) = (.declared (some (.redeclared x.name)), s)) ∨
    (s.frame.lookup? x.name = none ∧
      s.respond (.declare x) = (.declared none, { s with frame := x :: s.frame })) := by
  cases hName : s.frame.lookup? x.name with
  | some y => exact .inl ⟨rfl, by simp [respond, declare?, hName]⟩
  | none => exact .inr ⟨rfl, by simp [respond, declare?, hName]⟩

/-! ## What requests tell -/

/-- The depth after a `Request`; outside of all blocks there is none to leave. -/
def Request.depth (d : Nat) : Request → Nat
  | .enter => d + 1
  | .leave => d - 1
  | _ => d

/-- How many blocks requests leave open, when none is open before them: `Request.depth` of one after
the other. -/
def openBlocks (history : List Request) : Nat :=
  history.foldl Request.depth 0

theorem openBlocks_concat (history : List Request) (r : Request) :
    openBlocks (history ++ [r]) = r.depth (openBlocks history) :=
  List.foldl_append

/-- A declaration has been accepted at a depth, and its block has not been left since: so many
blocks have been open all the time. This is said of the requests alone, with no frame in it. -/
def InForce (history : List Request) (x : Symbol) (d : Nat) : Prop :=
  ∃ before between, history = before ++ .declare x :: between ∧
    ((empty.after before).respond (.declare x)).1 = .declared none ∧ openBlocks before = d ∧
    ∀ soon, soon <+: between → d ≤ openBlocks (before ++ .declare x :: soon)

theorem not_inForce_nil : ¬InForce [] x d := by
  rintro ⟨before, between, hSplit, -⟩
  simp at hSplit

/-- **What one request changes**: it may end what is in force, or be a declaration that is accepted.
This is the step by which `InForce` is followed. -/
theorem inForce_concat_iff :
    InForce (history ++ [r]) x d ↔
      (InForce history x d ∧ d ≤ openBlocks (history ++ [r])) ∨
      (r = .declare x ∧ ((empty.after history).respond (.declare x)).1 = .declared none ∧
        d = openBlocks history) := by
  constructor
  · rintro ⟨before, between, hSplit, hAccepted, hDepth, hOpen⟩
    -- the declaration is the last request, or it was in force before that
    obtain rfl | ⟨between, last, rfl⟩ := List.eq_nil_or_concat' between
    · obtain ⟨rfl, hLast⟩ := List.append_inj' hSplit rfl
      obtain rfl := List.singleton_inj.mp hLast
      exact .inr ⟨rfl, hAccepted, hDepth.symm⟩
    · obtain ⟨rfl, hLast⟩ : history = before ++ .declare x :: between ∧ [r] = [last] :=
        List.append_inj' (by simpa using hSplit) rfl
      obtain rfl := List.singleton_inj.mp hLast
      have hNow := hOpen _ (List.prefix_refl _)
      refine .inl ⟨⟨before, between, rfl, hAccepted, hDepth, fun soon hSoon => ?_⟩, ?_⟩
      · exact hOpen soon (hSoon.trans (List.prefix_append _ _))
      · simpa using hNow
  · rintro (⟨⟨before, between, rfl, hAccepted, hDepth, hOpen⟩, hNow⟩ | ⟨rfl, hAccepted, rfl⟩)
    · refine ⟨before, between ++ [r], by simp, hAccepted, hDepth, fun soon hSoon => ?_⟩
      obtain rfl | hSoon := List.prefix_concat_iff.mp hSoon
      · simpa using hNow
      · exact hOpen soon hSoon
    · refine ⟨history, [], rfl, hAccepted, rfl, fun soon hSoon => ?_⟩
      rw [List.prefix_nil.mp hSoon, openBlocks_concat]
      exact Nat.le_refl _

/-! ## Frames by depth -/

/-- The `Frame` at a depth, where the innermost frame comes first. There is nothing in a frame that
is deeper than all. -/
def frameAt : List Frame → Nat → Frame
  | [], _ => []
  | frame :: outer, d => if d = outer.length then frame else frameAt outer d

theorem frameAt_of_length_le {frames : List Frame} (h : frames.length ≤ d) :
    frameAt frames d = [] := by
  induction frames with
  | nil => rfl
  | cons frame outer ih =>
    rw [List.length_cons] at h
    rw [frameAt, if_neg (by omega), ih (by omega)]

theorem lt_of_mem_frameAt {frames : List Frame} (h : x ∈ frameAt frames d) : d < frames.length := by
  by_contra hDeeper
  rw [frameAt_of_length_le (Nat.le_of_not_lt hDeeper)] at h
  cases h

theorem le_depth_of_mem (h : x ∈ frameAt s.frames d) : d ≤ s.depth :=
  Nat.le_of_lt_succ (lt_of_mem_frameAt h)

/-- The innermost frame is the deepest one. -/
@[simp] theorem frameAt_depth (s : Scope) : frameAt s.frames s.depth = s.frame :=
  if_pos rfl

theorem frameAt_enter (s : Scope) (d : Nat) : frameAt s.enter.frames d = frameAt s.frames d := by
  show (if d = s.frames.length then [] else frameAt s.frames d) = frameAt s.frames d
  split
  · next hNew => rw [frameAt_of_length_le (Nat.le_of_eq hNew.symm)]
  · rfl

theorem frameAt_leave (s : Scope) (d : Nat) :
    frameAt s.leave.frames d = if d ≤ s.leave.depth then frameAt s.frames d else [] := by
  obtain ⟨frame, _ | ⟨next, outer⟩⟩ := s
  · -- the outermost frame stays
    show frameAt [frame] d = if d ≤ 0 then frameAt [frame] d else []
    split
    · rfl
    · exact frameAt_of_length_le (by rw [List.length_singleton]; omega)
  · -- the frame that is dropped was the deepest, and no other changes its depth
    show frameAt (next :: outer) d =
      if d ≤ outer.length then frameAt (frame :: next :: outer) d else []
    split
    · next hKept =>
      have hNe : d ≠ (next :: outer).length := by rw [List.length_cons]; omega
      exact (if_neg hNe).symm
    · next hLeft => exact frameAt_of_length_le (by rw [List.length_cons]; omega)

theorem frameAt_declare (s : Scope) (x : Symbol) (d : Nat) :
    frameAt (Scope.frames { s with frame := x :: s.frame }) d =
      if d = s.depth then x :: s.frame else frameAt s.frames d := by
  by_cases hDepth : d = s.depth
  · rw [if_pos hDepth]
    exact if_pos hDepth
  · rw [if_neg hDepth]
    exact (if_neg hDepth).trans (if_neg hDepth).symm

/-- Each frame is at some depth. -/
theorem exists_frameAt_iff {frames : List Frame} :
    (∃ d, x ∈ frameAt frames d) ↔ ∃ frame ∈ frames, x ∈ frame := by
  induction frames with
  | nil => simp [frameAt]
  | cons frame outer ih =>
    rw [List.exists_mem_cons_iff, ← ih]
    constructor
    · rintro ⟨d, hAt⟩
      rw [frameAt] at hAt
      split at hAt
      · exact .inl hAt
      · exact .inr ⟨d, hAt⟩
    · rintro (hMem | ⟨d, hAt⟩)
      · exact ⟨outer.length, by rwa [frameAt, if_pos rfl]⟩
      · have hNe := Nat.ne_of_lt (lt_of_mem_frameAt hAt)
        exact ⟨d, by rwa [frameAt, if_neg hNe]⟩

/-! ## Names in scopes -/

/-- No frame of a `Scope` has a name twice. -/
def Distinct (s : Scope) : Prop := ∀ frame ∈ s.frames, (frame.map (·.name)).Nodup

/-- No `Request` gives a frame a name that it has: `respond_declare_cases` refuses it. -/
theorem Distinct.respond (h : s.Distinct) (r : Request) : (s.respond r).2.Distinct := by
  cases r with
  | enter => exact List.forall_mem_cons.mpr ⟨List.nodup_nil, h⟩
  | leave =>
    obtain ⟨frame, _ | ⟨next, outer⟩⟩ := s
    · exact h
    · exact fun other hMem => h other (List.mem_cons_of_mem _ hMem)
  | declare x =>
    obtain ⟨-, hRefused⟩ | ⟨hNew, hAccepted⟩ := respond_declare_cases s x
    · rw [hRefused]
      exact h
    · rw [hAccepted]
      obtain ⟨hFrame, hOuter⟩ := List.forall_mem_cons.mp h
      refine List.forall_mem_cons.mpr ⟨List.nodup_cons.mpr ⟨?_, hFrame⟩, hOuter⟩
      simpa using Frame.lookup?_eq_none_iff.mp hNew
  | lookup => exact h

/-- **What is found** is in the deepest frame that has the name, by induction on the frames. -/
theorem findSome?_eq_some_iff {frames : List Frame}
    (h : ∀ frame ∈ frames, (frame.map (·.name)).Nodup) :
    frames.findSome? (·.lookup? name) = some x ↔
      x.name = name ∧ ∃ d, x ∈ frameAt frames d ∧
        ∀ y e, y ∈ frameAt frames e → y.name = name → e ≤ d := by
  induction frames with
  | nil => simp [frameAt]
  | cons frame outer ih =>
    obtain ⟨hFrame, hOuter⟩ := List.forall_mem_cons.mp h
    have hTop : frameAt (frame :: outer) outer.length = frame := if_pos rfl
    rw [List.findSome?_cons]
    cases hFind : frame.lookup? name with
    | some y =>
      -- the first frame is the deepest one, so that nothing behind it matters
      obtain ⟨hMem, hName⟩ := (Frame.lookup?_eq_some_iff hFrame).mp hFind
      constructor
      · intro hSame
        obtain rfl := Option.some.inj hSame
        exact ⟨hName, outer.length, by rwa [hTop],
          fun z e hOther _ => Nat.le_of_lt_succ (lt_of_mem_frameAt hOther)⟩
      · rintro ⟨hSame, d, hAt, hDeepest⟩
        have hGe := hDeepest y outer.length (by rwa [hTop]) hName
        obtain rfl : d = outer.length :=
          Nat.le_antisymm (Nat.le_of_lt_succ (lt_of_mem_frameAt hAt)) hGe
        rw [hTop] at hAt
        have hFound := (Frame.lookup?_eq_some_iff hFrame).mpr ⟨hAt, hSame⟩
        rw [hFind] at hFound
        exact hFound
    | none =>
      -- a symbol of this name is not in the first frame
      have hBehind {z : Symbol} {e : Nat} (hName : z.name = name) :
          z ∈ frameAt (frame :: outer) e ↔ z ∈ frameAt outer e := by
        by_cases hDepth : e = outer.length
        · subst hDepth
          rw [hTop, frameAt_of_length_le (Nat.le_refl _)]
          have hNot := Frame.lookup?_eq_none_iff.mp hFind z
          constructor
          · exact fun hMem => absurd hName (hNot hMem)
          · exact fun hMem => nomatch hMem
        · rw [frameAt, if_neg hDepth]
      show outer.findSome? (·.lookup? name) = some x ↔ _
      rw [ih hOuter]
      refine and_congr_right fun hName => exists_congr fun d => ?_
      rw [hBehind hName]
      refine and_congr_right fun _ => forall_congr' fun z => forall_congr' fun e => ?_
      exact ⟨fun h hMem hz => h ((hBehind hz).mp hMem) hz,
        fun h hMem hz => h ((hBehind hz).mpr hMem) hz⟩

theorem findSome?_eq_none_iff {frames : List Frame} :
    frames.findSome? (·.lookup? name) = none ↔ ∀ x d, x ∈ frameAt frames d → x.name ≠ name := by
  rw [List.findSome?_eq_none_iff]
  constructor
  · intro h x d hAt
    obtain ⟨frame, hFrame, hMem⟩ := exists_frameAt_iff.mp ⟨d, hAt⟩
    exact Frame.lookup?_eq_none_iff.mp (h frame hFrame) x hMem
  · intro h frame hFrame
    refine Frame.lookup?_eq_none_iff.mpr fun x hMem => ?_
    obtain ⟨d, hAt⟩ := exists_frameAt_iff.mpr ⟨frame, hFrame, hMem⟩
    exact h x d hAt

/-! ## One request -/

theorem accepted_iff : (s.respond (.declare x)).1 = .declared none ↔
    ∀ y ∈ s.frame, y.name ≠ x.name := by
  obtain ⟨hHas, h⟩ | ⟨hNew, h⟩ := respond_declare_cases s x
  · rw [h, ← Frame.lookup?_eq_none_iff]
    simp [Option.ne_none_iff_isSome.mpr hHas]
  · rw [h, ← Frame.lookup?_eq_none_iff]
    simp [hNew]

theorem refused_iff : (s.respond (.declare x)).1 = .declared (some (.redeclared x.name)) ↔
    ∃ y ∈ s.frame, y.name = x.name := by
  have hOpposite : (s.respond (.declare x)).1 = .declared (some (.redeclared x.name)) ↔
      ¬(s.respond (.declare x)).1 = .declared none := by
    obtain ⟨-, h⟩ | ⟨-, h⟩ := respond_declare_cases s x <;> simp [h]
  rw [hOpposite, accepted_iff]
  push Not
  rfl

theorem depth_respond (s : Scope) (r : Request) : (s.respond r).2.depth = r.depth s.depth := by
  cases r with
  | enter => rfl
  | leave => exact depth_leave s
  | declare x => obtain ⟨-, h⟩ | ⟨-, h⟩ := respond_declare_cases s x <;> rw [h] <;> rfl
  | lookup => rfl

/-- A `Request` ends what is deeper than all blocks after it, and may add a symbol to the innermost
block. This is `inForce_concat_iff`, said of frames. -/
theorem mem_frameAt_respond (s : Scope) (r : Request) :
    x ∈ frameAt (s.respond r).2.frames d ↔
      (x ∈ frameAt s.frames d ∧ d ≤ (s.respond r).2.depth) ∨
      (r = .declare x ∧ (s.respond (.declare x)).1 = .declared none ∧ d = s.depth) := by
  cases r with
  | enter =>
    -- the new block is empty, and all others are as deep as they were
    show x ∈ frameAt s.enter.frames d ↔ (_ ∧ d ≤ s.depth + 1) ∨ _
    rw [frameAt_enter]
    constructor
    · exact fun h => .inl ⟨h, Nat.le_succ_of_le (le_depth_of_mem h)⟩
    · rintro (⟨h, -⟩ | ⟨⟨⟩, -⟩)
      exact h
  | leave =>
    show x ∈ frameAt s.leave.frames d ↔ (_ ∧ d ≤ s.leave.depth) ∨ _
    rw [frameAt_leave]
    split
    · next hKept => simp [hKept]
    · next hLeft => simp [hLeft]
  | declare y =>
    obtain ⟨-, hRefused⟩ | ⟨hNew, hAccepted⟩ := respond_declare_cases s y
    · -- a refusal changes nothing
      rw [hRefused]
      constructor
      · exact fun h => .inl ⟨h, le_depth_of_mem h⟩
      · rintro (⟨h, -⟩ | ⟨hSame, hNone, -⟩)
        · exact h
        · cases hSame
          rw [hRefused] at hNone
          simp at hNone
    · rw [hAccepted, frameAt_declare]
      show _ ↔ (_ ∧ d ≤ s.depth) ∨ _
      by_cases hInner : d = s.depth
      · subst hInner
        rw [if_pos rfl, frameAt_depth, List.mem_cons]
        constructor
        · rintro (rfl | h)
          · exact .inr ⟨rfl, by rw [hAccepted], rfl⟩
          · exact .inl ⟨h, Nat.le_refl _⟩
        · rintro (⟨h, -⟩ | ⟨hSame, -⟩)
          · exact .inr h
          · cases hSame
            exact .inl rfl
      · rw [if_neg hInner]
        constructor
        · exact fun h => .inl ⟨h, le_depth_of_mem h⟩
        · rintro (⟨h, -⟩ | ⟨-, -, hHere⟩)
          · exact h
          · exact absurd hHere hInner
  | lookup name =>
    constructor
    · exact fun h => .inl ⟨h, le_depth_of_mem h⟩
    · rintro (⟨h, -⟩ | ⟨⟨⟩, -⟩)
      exact h

/-! ## All requests -/

theorem depth_after (history : List Request) :
    (empty.after history).depth = openBlocks history := by
  induction history using List.reverseRecOn with
  | nil => rfl
  | append_singleton history r ih => rw [after_concat, openBlocks_concat, depth_respond, ih]

theorem distinct_after (history : List Request) : (empty.after history).Distinct := by
  induction history using List.reverseRecOn with
  | nil => exact List.forall_mem_singleton.mpr List.nodup_nil
  | append_singleton history r ih =>
    rw [after_concat]
    exact ih.respond r

/-- **The frames hold what is in force**, each at its depth: `frameAt` and `InForce` go along with
each other through all requests. -/
theorem mem_frameAt_after :
    x ∈ frameAt (empty.after history).frames d ↔ InForce history x d := by
  induction history using List.reverseRecOn generalizing x d with
  | nil =>
    have hNone : x ∉ frameAt (empty.after []).frames d := by
      show x ∉ if d = 0 then [] else []
      split <;> exact List.not_mem_nil
    exact iff_of_false hNone not_inForce_nil
  | append_singleton history r ih =>
    -- what the last request changes is the same on both sides
    rw [inForce_concat_iff, after_concat, mem_frameAt_respond, ih, depth_respond,
      openBlocks_concat, depth_after]

theorem mem_frame_after :
    x ∈ (empty.after history).frame ↔ InForce history x (openBlocks history) := by
  rw [← frameAt_depth, mem_frameAt_after, depth_after]

/-! ## Blocks -/

/-- Requests that leave each block they open, and no other: any declarations and questions in any
order, and blocks among them. -/
inductive WellNested : List Request → Prop
  | nil : WellNested []
  | declare (x : Symbol) {requests : List Request} (h : WellNested requests) :
      WellNested (.declare x :: requests)
  | lookup (name : String) {requests : List Request} (h : WellNested requests) :
      WellNested (.lookup name :: requests)
  | block {inside requests : List Request} (hInside : WellNested inside)
      (h : WellNested requests) : WellNested (.enter :: (inside ++ .leave :: requests))

theorem after_cons (s : Scope) (r : Request) (requests : List Request) :
    s.after (r :: requests) = (s.respond r).2.after requests :=
  rfl

/-- A scope whose frames around the innermost are those of another returns to it. -/
theorem leave_of_outer {t : Scope} (h : t.outer = s.frames) : t.leave = s := by
  obtain ⟨frame, outer⟩ := t
  subst h
  rfl

/-- Requests that are `WellNested` change at most the innermost frame. -/
theorem WellNested.outer_after (h : WellNested requests) (s : Scope) :
    (s.after requests).outer = s.outer := by
  induction h generalizing s with
  | nil => rfl
  | declare x _ ih =>
    rw [after_cons, ih]
    obtain ⟨-, h⟩ | ⟨-, h⟩ := respond_declare_cases s x <;> rw [h]
  | lookup name _ ih => exact ih s
  | @block inside requests _ _ ihInside ih =>
    -- inside of the block the frames around the innermost are the scope itself, so to leave it
    -- gives the scope back
    have hBack : (s.enter.after inside).leave = s := leave_of_outer (ihInside s.enter)
    rw [after_cons, after_append, after_cons]
    show ((s.enter.after inside).leave.after requests).outer = s.outer
    rw [hBack, ih]

/-- **A block leaves nothing behind**: with anything `WellNested` inside, the scope is the one
before it. -/
theorem WellNested.restores {inside : List Request} (h : WellNested inside) (s : Scope) :
    s.after (.enter :: (inside ++ [.leave])) = s := by
  rw [after_cons, after_concat]
  exact leave_of_outer (h.outer_after s.enter)

/-! ## A stack of blocks -/

/-- **Scopes are stacks of blocks.** After any requests to a new scope, a name is refused exactly if
a declaration of it is in force in the innermost block, and then nothing changes. What is found is
the declaration in force in the innermost block that has one, and otherwise there is none in any
block. Outside of all blocks, to leave one changes nothing. And a block, with anything well nested
inside of it, leaves any scope as it was: what is asked afterwards is answered as before it. -/
theorem stack_of_blocks :
    (∀ history x,
      (((empty.after history).respond (.declare x)).1 = .declared (some (.redeclared x.name)) ↔
        ∃ y, InForce history y (openBlocks history) ∧ y.name = x.name) ∧
      (((empty.after history).respond (.declare x)).1 = .declared none ↔
        ∀ y, InForce history y (openBlocks history) → y.name ≠ x.name)) ∧
    (∀ s x, (respond s (.declare x)).1 ≠ .declared none → (s.respond (.declare x)).2 = s) ∧
    (∀ history name,
      (∀ x, ((empty.after history).respond (.lookup name)).1 = .found (some x) ↔
        x.name = name ∧ ∃ d, InForce history x d ∧
          ∀ y e, InForce history y e → y.name = name → e ≤ d) ∧
      (((empty.after history).respond (.lookup name)).1 = .found none ↔
        ∀ x d, InForce history x d → x.name ≠ name)) ∧
    (∀ history, (empty.after history).depth = openBlocks history ∧
      (openBlocks history = 0 → empty.after (history ++ [.leave]) = empty.after history)) ∧
    ∀ s inside, WellNested inside → ∀ requests,
      (after s (.enter :: (inside ++ [.leave]))).answers requests = s.answers requests := by
  refine ⟨fun history x => ?_, fun s x hRefused => ?_, fun history name => ?_,
    fun history => ⟨depth_after history, fun hOutside => ?_⟩, fun s inside hInside requests => ?_⟩
  · -- a name is refused by the innermost frame alone, which holds what is in force there
    simp only [refused_iff, accepted_iff, mem_frame_after, true_and]
  · -- a declaration that is refused is the one that leaves the scope alone
    obtain ⟨-, h⟩ | ⟨-, h⟩ := respond_declare_cases s x
    · rw [h]
    · exact absurd (by rw [h]) hRefused
  · -- no name stands twice in a frame, so that the first one found is the innermost one
    have hFrames := distinct_after history
    constructor
    · intro x
      simp only [← mem_frameAt_after, ← findSome?_eq_some_iff hFrames]
      exact .of_eq (Answer.found.injEq ..)
    · simp only [← mem_frameAt_after, ← findSome?_eq_none_iff]
      exact .of_eq (Answer.found.injEq ..)
  · -- outside of all blocks there is none to leave
    rw [after_concat]
    exact leave_of_depth_eq_zero ((depth_after history).trans hOutside)
  · rw [hInside.restores]

/-- An integer and a real of one name. -/
def outerX : Symbol := ⟨"x", .int, 0⟩

/-- The real hides the integer. -/
def innerX : Symbol := ⟨"x", .float, 4⟩

/-- What is asked inside of a block that hides a name. -/
def innerRequests : List Request := [.declare innerX, .declare outerX, .lookup "x"]

/-- All that is asked up to there. -/
def hidingRequests : List Request := .enter :: .declare outerX :: .enter :: innerRequests

/-- The name is refused in the block that has it, and does not change what is found there. Behind
the block the symbol is found that was hidden. -/
theorem stack_of_blocks_sample :
    WellNested innerRequests ∧
    (∃ y, InForce hidingRequests y 2 ∧ y.name = "x") ∧
    ((empty.after hidingRequests).respond (.declare outerX)).2 = empty.after hidingRequests ∧
    (∃ d, InForce hidingRequests innerX d ∧
      ∀ y e, InForce hidingRequests y e → y.name = "x" → e ≤ d) ∧
    empty.after [.leave] = empty ∧
    (empty.after (hidingRequests ++ [.leave])).answers [.lookup "x", .declare outerX] =
      [.found (some outerX), .declared (some (.redeclared "x"))] := by
  have hNested : WellNested innerRequests := .declare _ (.declare _ (.lookup _ .nil))
  obtain ⟨hDeclare, hRefused, hLookup, hLeave, hBlock⟩ := stack_of_blocks
  refine ⟨hNested, (hDeclare hidingRequests outerX).1.mp (by decide), hRefused _ _ (by decide),
    (((hLookup hidingRequests "x").1 innerX).mp (by decide)).2, (hLeave []).2 rfl, ?_⟩
  have hSame := hBlock (empty.after [.enter, .declare outerX]) innerRequests hNested
    [.lookup "x", .declare outerX]
  exact hSame.trans (by decide)

end Scope

end JumpCode
