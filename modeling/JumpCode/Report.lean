import JumpCode.Error
import JumpCode.Text.Source

/-!
# JumpCode — reports of failures

How a failure is shown: its class and cause, its place, the line where it begins, and a row of
carets under the columns that are to blame. The stretches of blanks and of carets are the two
numbers of `underline`.

Printing has a limit. The width of a padded stretch is a number of 16 bits, and a wider one makes
printing give up with an `Abort`; before that, the widths are computed from columns in words of 32
bits (`underlineInWords`).

* `report` — the report of a failure, of whatever width;
* `printReport` — what printing it comes to;
* `printReport_of_narrow` — the report itself, if it is narrow enough.
-/

namespace JumpCode

/-- The columns that a `report` underlines, as the column before the first and their number. Only
the first line of a `Span` is shown, and at least one column is underlined. -/
def underline (span : Span) : Nat × Nat :=
  let stop :=
    if span.stop.line = span.start.line then max span.stop.column (span.start.column + 1)
    else span.start.column + 1
  (span.start.column - 1, stop - span.start.column)

/-- The report of a failure in the text of that name, of which these lines are kept, with carets in
the marked columns: so many behind so many blanks. -/
def reportMarking (marks : Nat × Nat) (name : String) (kept : List String)
    (failure : Located CompileError) : String :=
  let line := failure.span.start.line
  let number := toString line
  let margin := String.ofList (List.replicate number.length ' ')
  let (skipped, marked) := marks
  failure.value.kind ++ ": " ++ failure.value.message ++ "\n" ++
    " --> " ++ failure.span.render name ++ "\n" ++
    margin ++ " |\n" ++
    number ++ " | " ++ quotedLine kept line ++ "\n" ++
    margin ++ " | " ++ String.ofList (List.replicate skipped ' ' ++ List.replicate marked '^') ++
    "\n\nTranslation aborted\n"

/-- The report of a failure in the text of that name, of which these lines are kept: `reportMarking`
at `underline`. -/
def report (name : String) (kept : List String) (failure : Located CompileError) : String :=
  reportMarking (underline failure.span) name kept failure

/-! ## Printing -/

/-- Why printing is given up. -/
inductive Abort
  /-- A stretch is to be padded to more than `maxPadding` characters. -/
  | outOfRange
deriving DecidableEq, Repr

/-- The message of an `Abort`, with which printing is given up. -/
def Abort.message : Abort → String
  | outOfRange => "Formatting argument out of range"

/-- The greatest width to which a stretch can be padded, the largest number of 16 bits. -/
def maxPadding : Nat := 65535

/-- The columns of `underline`, computed in words of 32 bits. Both differences may go below zero
there, and come to large numbers then. -/
def underlineInWords (span : Span) : UInt32 × UInt32 :=
  let start := UInt32.ofNat span.start.column
  let stop :=
    if span.stop.line = span.start.line then max (UInt32.ofNat span.stop.column) (start + 1)
    else start + 1
  (start - 1, stop - start)

/-- What printing the report of a failure comes to: an `Abort`, if the blanks or the carets of
`underlineInWords` are more than `maxPadding`. -/
def printReport (name : String) (kept : List String) (failure : Located CompileError) :
    Except Abort String :=
  let (skipped, marked) := underlineInWords failure.span
  if maxPadding < skipped.toNat ∨ maxPadding < marked.toNat then .error .outOfRange
  else .ok (reportMarking (skipped.toNat, marked.toNat) name kept failure)

/-- The greater of two words is the greater of the numbers that they stand for. -/
theorem toNat_max (a b : UInt32) : (max a b).toNat = max a.toNat b.toNat := by
  rw [show max a b = if a ≤ b then b else a from rfl]
  split
  · next hLe => exact (Nat.max_eq_right (UInt32.le_iff_toNat_le.mp hLe)).symm
  · next hLt =>
    rw [UInt32.le_iff_toNat_le, Nat.not_le] at hLt
    exact (Nat.max_eq_left (Nat.le_of_lt hLt)).symm

/-- The columns of a span are computed in words as they are, if it begins behind column zero and
both its columns can be counted there: `underlineInWords` is `underline`. -/
theorem underlineInWords_eq {span : Span} (hStart : 1 ≤ span.start.column)
    (hNext : span.start.column + 1 < UInt32.size) (hStop : span.stop.column < UInt32.size) :
    ((underlineInWords span).1.toNat, (underlineInWords span).2.toNat) = underline span := by
  obtain ⟨⟨line, start⟩, ⟨line', stop⟩⟩ := span
  simp only [UInt32.size] at hStart hNext hStop
  -- no sum and no difference leaves the range of a word
  simp only [underlineInWords, underline]
  split
  · simp only [UInt32.toNat_sub, toNat_max, UInt32.toNat_add, UInt32.toNat_ofNat',
      UInt32.reduceToNat, Prod.mk.injEq]
    omega
  · simp only [UInt32.toNat_sub, UInt32.toNat_add, UInt32.toNat_ofNat', UInt32.reduceToNat,
      Prod.mk.injEq]
    omega

/-- **A report that is narrow enough is printed**: `printReport` is `report`, if neither of the
stretches of `underline` is wider than `maxPadding`. -/
theorem printReport_of_narrow (name : String) (kept : List String)
    {failure : Located CompileError} (hStart : 1 ≤ failure.span.start.column)
    (hSkipped : (underline failure.span).1 ≤ maxPadding)
    (hMarked : (underline failure.span).2 ≤ maxPadding)
    (hLine : failure.span.stop.line = failure.span.start.line) :
    printReport name kept failure = .ok (report name kept failure) := by
  have hWords : ((underlineInWords failure.span).1.toNat, (underlineInWords failure.span).2.toNat) =
      underline failure.span := by
    -- the two widths bound both columns far below what words can count
    simp only [underline, if_pos hLine, maxPadding] at hSkipped hMarked
    refine underlineInWords_eq hStart ?_ ?_
    · simp only [UInt32.size]
      omega
    · simp only [UInt32.size]
      omega
  have hFirst := congrArg Prod.fst hWords
  have hSecond := congrArg Prod.snd hWords
  dsimp only at hFirst hSecond
  rw [← hFirst] at hSkipped
  rw [← hSecond] at hMarked
  simp only [printReport]
  rw [if_neg (by omega), report, ← hWords]

end JumpCode
