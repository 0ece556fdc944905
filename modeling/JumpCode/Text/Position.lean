/-!
# JumpCode — positions and spans in a text

A `Position` is a line and a column, both counted from one; a `Span` is the half-open stretch
between two positions. Tabs reach to the next stop (`Position.tab`), and every other character takes
one column (`Position.advance`).

A `Position` counts without a limit. A program counts with the two words of 32 bits of a
`WordPosition`, which wrap around; on these a position is what it is modulo 2^32.

* `Position.column_lt_after` — every character moves on;
* `Position.tab_le` — a tab ends at the least stop beyond its start;
* `Position.after_inWords` — a `WordPosition` moves along with a `Position`, always;
* `Position.toPosition_inWords` — nothing is lost as long as both counts fit.
-/

namespace JumpCode

/-- A place in a text: line and column, counted from one, without a limit. -/
structure Position where
  line : Nat
  column : Nat
deriving DecidableEq, Repr

namespace Position

/-- The distance between two tab stops, in columns. -/
def tabStop : Nat := 4

/-- The place where every text begins. -/
def first : Position := ⟨1, 1⟩

/-- One column further, as every character but the tab moves a `Position`. -/
def advance (p : Position) : Position := { p with column := p.column + 1 }

/-- One column back, but never before the first. `Span.render` shows the last column of a span by
it. -/
def back (p : Position) : Position := { p with column := max (p.column - 1) 1 }

/-- The next tab stop on the line: stops stand in the columns 1, 5, 9 and so on, `tabStop` columns
apart. -/
def tab (p : Position) : Position :=
  { p with column := 1 + ((p.column - 1) / tabStop + 1) * tabStop }

/-- Where a character that begins at `p` ends, which is where the next one on its line begins. -/
def after (p : Position) (c : Char) : Position :=
  if c = '\t' then p.tab else p.advance

/-- The written form of a `Position`, `line:column`. -/
def render (p : Position) : String := toString p.line ++ ":" ++ toString p.column

@[simp] theorem line_advance (p : Position) : p.advance.line = p.line := rfl
@[simp] theorem line_tab (p : Position) : p.tab.line = p.line := rfl

@[simp] theorem line_after (p : Position) (c : Char) : (p.after c).line = p.line := by
  unfold after; split <;> rfl

/-- A tab moves at least one column on, also from a tab stop. -/
theorem column_lt_tab (p : Position) : p.column < p.tab.column := by
  simp only [tab, tabStop]; omega

/-- **The tab rule**: no stop beyond the start comes before the one that `tab` reaches. -/
theorem tab_le {p : Position} {k : Nat} (hp : 1 ≤ p.column) (h : p.column < 4 * k + 1) :
    p.tab.column ≤ 4 * k + 1 := by
  simp only [tab, tabStop]; omega

/-- **Every character takes at least one column.** -/
theorem column_lt_after (p : Position) (c : Char) : p.column < (p.after c).column := by
  unfold after
  split
  · exact p.column_lt_tab
  · simp [advance]

end Position

/-! ## Counting with words -/

/-- A place in a text whose line and column are words of 32 bits. -/
structure WordPosition where
  line : UInt32
  column : UInt32
deriving DecidableEq, Repr

namespace WordPosition

/-- The place where every text begins, as `Position.first`. -/
def first : WordPosition := ⟨1, 1⟩

/-- One column further, as `Position.advance`. Behind the last column that a word can count comes
column zero. -/
def advance (p : WordPosition) : WordPosition := { p with column := p.column + 1 }

/-- One column back, as `Position.back`, but never before the first. Nothing is taken from column
zero. -/
def back (p : WordPosition) : WordPosition :=
  { p with column := if p.column ≤ 1 then 1 else p.column - 1 }

/-- The next tab stop on the line, as `Position.tab` computed in words. -/
def tab (p : WordPosition) : WordPosition :=
  { p with column := 1 + ((p.column - 1) / 4 + 1) * 4 }

/-- Where a character that begins at `p` ends, as `Position.after`. -/
def after (p : WordPosition) (c : Char) : WordPosition :=
  if c = '\t' then p.tab else p.advance

/-- The `Position` that the two words stand for. -/
def toPosition (p : WordPosition) : Position := ⟨p.line.toNat, p.column.toNat⟩

end WordPosition

namespace Position

/-- A `Position` without what goes beyond 32 bits. -/
def inWords (p : Position) : WordPosition := ⟨UInt32.ofNat p.line, UInt32.ofNat p.column⟩

/-- Both counts of a place can be made in words of 32 bits. -/
structure Fits (p : Position) : Prop where
  line : p.line < UInt32.size
  column : p.column < UInt32.size

/-- Words lose nothing of a place that `Fits`. -/
theorem toPosition_inWords {p : Position} (h : p.Fits) : p.inWords.toPosition = p := by
  simp only [inWords, WordPosition.toPosition, UInt32.toNat_ofNat']
  rw [Nat.mod_eq_of_lt h.line, Nat.mod_eq_of_lt h.column]

/-- `WordPosition.advance` moves along with `Position.advance`, since addition in words is addition
modulo 2^32. -/
theorem advance_inWords (p : Position) : p.advance.inWords = p.inWords.advance := by
  simp [advance, inWords, WordPosition.advance, UInt32.ofNat_add]

/-- `WordPosition.tab` moves along with `Position.tab`: four divides the 2^32 columns that words can
count, so that tab stops are the same in words. -/
theorem tab_inWords {p : Position} (h : 1 ≤ p.column) : p.tab.inWords = p.inWords.tab := by
  obtain ⟨line, column⟩ := p
  obtain ⟨k, rfl⟩ : ∃ k, column = k + 1 := ⟨column - 1, (Nat.sub_add_cancel h).symm⟩
  simp only [tab, tabStop, inWords, WordPosition.tab, WordPosition.mk.injEq, true_and]
  have hStart : UInt32.ofNat (k + 1) - 1 = UInt32.ofNat k := by
    rw [UInt32.ofNat_add]
    exact UInt32.add_sub_cancel ..
  rw [hStart, ← UInt32.toNat_inj]
  simp only [UInt32.toNat_ofNat', UInt32.toNat_add, UInt32.toNat_mul, UInt32.toNat_div,
    UInt32.reduceToNat, Nat.add_sub_cancel]
  omega

/-- **Words move along with the counts**, whether they wrap around or not. -/
theorem after_inWords {p : Position} (h : 1 ≤ p.column) (c : Char) :
    (p.after c).inWords = p.inWords.after c := by
  unfold after WordPosition.after
  split
  · exact tab_inWords h
  · exact p.advance_inWords

end Position

/-! ## Spans -/

/-- The stretch of a text from `start` up to, but without, `stop`. -/
structure Span where
  start : Position
  stop : Position
deriving DecidableEq, Repr

namespace Span

/-- The span of the first character of a text; a text without any is blamed here. -/
def first : Span := ⟨.first, Position.first.advance⟩

/-- From the start of one `Span` to the end of another, which comes later in the text. -/
def join (a b : Span) : Span := ⟨a.start, b.stop⟩

/-- The written form under the text's name. A `Span` of two columns or more on one line shows both
its ends, the last one included; any other shows only where it starts. -/
def render (name : String) (s : Span) : String :=
  name ++ ":" ++
    if s.stop.line ≠ s.start.line ∨ s.stop.column ≤ s.start.advance.column then
      s.start.render
    else
      "[" ++ s.start.render ++ "-" ++ s.stop.back.render ++ "]"

end Span

/-- A value together with the `Span` of text that it comes from. -/
structure Located (α : Type) where
  value : α
  span : Span
deriving DecidableEq, Repr

end JumpCode
