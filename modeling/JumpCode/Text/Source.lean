import JumpCode.Text.Position

/-!
# JumpCode — source texts as lines and items

A `Source` is a name and a list of lines, each decoded from its bytes on its own: a line that is
not UTF-8 does not spoil its neighbours. Reading delivers one `Item` after the other: the
characters of each readable line and a newline, or one `unreadable` in the place of the line.

Lines are kept for quotation only as far as reading has come, and only the readable ones; so
after an unreadable line the kept lines stand at smaller indices than their line numbers.

* `splitLines`, `decodeLine` — the lines of bytes and their texts;
* `Source.items` — all that reading delivers, at exact places;
* `Source.itemsInWords` — the same at the places of a reader that counts lines and columns with
  words of 32 bits;
* `Source.kept`, `quotedLine` — the lines that can be quoted.
-/

namespace JumpCode

/-! ## Lines of bytes -/

/-- The pieces of the input between newline bytes. A carriage return right before a newline belongs
to it, and nothing follows a final newline. -/
def splitLines : List UInt8 → List (List UInt8)
  | [] => []
  | 10 :: rest => [] :: splitLines rest
  | 13 :: 10 :: rest => [] :: splitLines rest
  | byte :: rest =>
    match splitLines rest with
    | [] => [[byte]]
    | line :: lines => (byte :: line) :: lines

/-- The text of a line, if its bytes are UTF-8. A line of `splitLines` for which there is none
becomes `Item.unreadable`. -/
def decodeLine (line : List UInt8) : Option String :=
  String.fromUTF8? ⟨line.toArray⟩

/-! ## Items -/

/-- What one step of reading delivers. -/
inductive Item
  /-- A character and the place that it takes. -/
  | char (c : Char) (span : Span)
  /-- A line that cannot be read. -/
  | unreadable
deriving DecidableEq, Repr

/-- The characters of a line from position `p` on, with the newline that ends it. Each `Item` begins
where the one before it ends (`Position.after`). -/
def lineItems (p : Position) : List Char → List Item
  | [] => [.char '\n' ⟨p, p.after '\n'⟩]
  | c :: cs => .char c ⟨p, p.after c⟩ :: lineItems (p.after c) cs

/-- The items of lines that are numbered from `n` on. Unreadable lines are numbered too, and deliver
one `Item.unreadable` each. -/
def itemsFrom (n : Nat) : List (Option String) → List Item
  | [] => []
  | none :: lines => .unreadable :: itemsFrom (n + 1) lines
  | some text :: lines => lineItems ⟨n, 1⟩ text.toList ++ itemsFrom (n + 1) lines

/-- The characters of a line as `lineItems` has them, at places that are counted with words
(`WordPosition.after`). -/
def lineItemsInWords (p : WordPosition) : List Char → List Item
  | [] => [.char '\n' ⟨p.toPosition, (p.after '\n').toPosition⟩]
  | c :: cs => .char c ⟨p.toPosition, (p.after c).toPosition⟩ :: lineItemsInWords (p.after c) cs

/-- The items of lines as `itemsFrom` has them, from the line with index `i` on. The number of a
line is its index in a word, and one more. -/
def itemsFromInWords (i : Nat) : List (Option String) → List Item
  | [] => []
  | none :: lines => .unreadable :: itemsFromInWords (i + 1) lines
  | some text :: lines =>
    lineItemsInWords ⟨UInt32.ofNat i + 1, 1⟩ text.toList ++ itemsFromInWords (i + 1) lines

/-- The lines that are kept once that many items have been asked for: a readable line is kept from
the moment its first item is asked for, an unreadable one never. -/
def keptLines : List (Option String) → Nat → List String
  | _, 0 => []
  | [], _ => []
  | none :: lines, asked + 1 => keptLines lines asked
  | some text :: lines, asked + 1 => text :: keptLines lines (asked - text.length)

/-! ## Sources -/

/-- A named text: each line, or `none` where its bytes are not UTF-8. -/
structure Source where
  name : String
  lines : List (Option String)

namespace Source

/-- The `Source` with these bytes: `splitLines`, each of them decoded by `decodeLine`. -/
def ofBytes (name : String) (bytes : List UInt8) : Source :=
  ⟨name, (splitLines bytes).map decodeLine⟩

/-- A source every read of which fails. Two failures stand for all of them in a compilation that
takes its tokens one by one: it ends at the first and never looks further than one item beyond it.
They do not where all tokens are asked for ahead, since a lexer whose every read fails never comes
to an end; what is said of a compilation that shows its tokens is therefore said of bytes. -/
def failing (name : String) : Source := ⟨name, [none, none]⟩

/-- All items of a `Source`, in reading order, at exact places. -/
def items (s : Source) : List Item := itemsFrom 1 s.lines

/-- All items of a `Source`, in reading order, at the places that are counted with words. -/
def itemsInWords (s : Source) : List Item := itemsFromInWords 0 s.lines

/-- The lines of a `Source` that are kept after `asked` items have been asked for (`keptLines`). -/
def kept (s : Source) (asked : Nat) : List String := keptLines s.lines asked

end Source

/-- The kept line that is quoted for line number `n`: empty if there is none, also for line zero. -/
def quotedLine (kept : List String) (n : Nat) : String :=
  match n with
  | 0 => ""
  | i + 1 => kept[i]?.getD ""

end JumpCode
