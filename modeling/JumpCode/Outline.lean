import JumpCode.Stmt.Basic

/-!
# JumpCode — trees as outlines

A tree of statements can be shown as an outline: one node or field a line, with the parts of a node
indented below it and a comma behind each part.
-/

namespace JumpCode

/-! ## Outlines -/

/-- An outline: what `Outline.lines` writes as one or more lines. -/
inductive Outline
  /-- A single word. -/
  | word (text : String)
  /-- A part that has a name. -/
  | field (name : String) (value : Outline)
  /-- Parts between an opening and a closing. -/
  | group (opening closing : String) (parts : List Outline)

namespace Outline

/-- A node with parts in order, as `group` between parentheses. -/
def node (name : String) (parts : List Outline) : Outline := group (name ++ "(") ")" parts

/-- A node with named parts, each of them a `field`. -/
def fields (name : String) (parts : List (String × Outline)) : Outline :=
  group (name ++ " \x7b") "\x7d" (parts.map fun (name, value) => field name value)

/-- Parts without a node, as `group` between brackets. -/
def items (parts : List Outline) : Outline := group "[" "]" parts

/-- A text put before the first of some lines, for `field`. -/
def leadWith (text : String) : List String → List String
  | [] => []
  | line :: lines => (text ++ line) :: lines

/-- A text put behind the last of some lines, for the comma behind each part. -/
def closeWith (text : String) : List String → List String
  | [] => []
  | [line] => [line ++ text]
  | line :: lines => line :: closeWith text lines

/-- Lines moved one level to the right. -/
def indent (lines : List String) : List String := lines.map ("    " ++ ·)

mutual

/-- The lines of an outline. A `group` without parts stands on one line. -/
def lines : Outline → List String
  | word text => [text]
  | field name value => leadWith (name ++ ": ") value.lines
  | group opening closing [] => [opening ++ closing]
  | group opening closing (part :: parts) =>
    opening :: indent (partLines (part :: parts)) ++ [closing]

/-- The lines of the parts of a `group`, moved to the right, each with a comma behind it. -/
def partLines : List Outline → List String
  | [] => []
  | part :: parts => closeWith "," part.lines ++ partLines parts

end

/-- An outline as a text: its `lines`. -/
def render (o : Outline) : String := "\n".intercalate o.lines

end Outline

/-! ## Expressions -/

/-- The outline of a `Ty`: arrays from the outside in, down to the `Scalar`. -/
def Ty.outline (t : Ty) : Outline :=
  let scalar := match t.base with
    | .int => "Int"
    | .float => "Float"
    | .char => "Char"
    | .bool => "Bool"
  t.lengths.foldr
    (fun length element =>
      .node "Array" [.fields "Array" [("of", element), ("length", .word (toString length))]])
    (.node "Basic" [.word scalar])

/-- The outline of a `Symbol`. Names hold nothing that a quotation would have to escape. -/
def Symbol.outline (x : Symbol) : Outline :=
  .fields "Symbol"
    [("name", .node "Identifier" [.word ("\"" ++ x.name ++ "\"")]), ("typ", x.type.outline),
      ("offset", .word (toString x.offset))]

/-- The outline of a `Constant`. -/
def Constant.outline (c : Constant) : Outline :=
  let kind := match c with
    | .int _ => "Int"
    | .real _ => "Real"
    | .bool _ => "Bool"
  .node kind [.word c.render]

/-- The word for an `ArithOp`. -/
def ArithOp.outline : ArithOp → Outline
  | add => .word "Add"
  | sub => .word "Sub"
  | mul => .word "Mul"
  | div => .word "Div"

/-- The word for a `RelOp`. -/
def RelOp.outline : RelOp → Outline
  | equal => .word "Equal"
  | notEqual => .word "NotEqual"
  | less => .word "Less"
  | lessOrEqual => .word "LessOrEqual"
  | greater => .word "Greater"
  | greaterOrEqual => .word "GreaterOrEqual"

/-- The outline of an element of an array, whose index has this outline; of an `Access` and of
`Expr.access` alike. -/
def accessOutline (array : Symbol) (index : Outline) (type : Ty) : Outline :=
  .fields "Access" [("array", array.outline), ("index", index), ("typ", type.outline)]

/-- The outline of an `Expr`. -/
def Expr.outline : Expr → Outline
  | const c => .node "Constant" [c.outline]
  | var x => .node "Id" [x.outline]
  | access array index type => .node "Access" [accessOutline array index.outline type]
  | arith op lhs rhs type =>
    .fields "Arith"
      [("op", op.outline), ("lhs", lhs.outline), ("rhs", rhs.outline), ("typ", type.outline)]
  | neg operand type => .fields "Negate" [("operand", operand.outline), ("typ", type.outline)]
  | not operand => .node "Not" [operand.outline]
  | rel op lhs rhs =>
    .fields "Rel" [("op", op.outline), ("lhs", lhs.outline), ("rhs", rhs.outline)]
  | and lhs rhs => .node "And" [lhs.outline, rhs.outline]
  | or lhs rhs => .node "Or" [lhs.outline, rhs.outline]

/-! ## Statements -/

/-- The outline of a `LoopExit`: it is not bound before code is emitted. -/
def exitOutline : Outline := .node "BreakTarget" [.fields "Cell" [("value", .word "None")]]

mutual

/-- The outline of a `Stmt`, which is what `Options.dumpTree` asks for. -/
def Stmt.outline : Stmt → Outline
  | .null => .word "Null"
  | .seq items => .node "Seq" [.items (Stmt.outlineAll items)]
  | .ifThen condition body =>
    .fields "If" [("condition", condition.outline), ("body", body.outline)]
  | .ifElse condition body otherwise =>
    .fields "Else"
      [("condition", condition.outline), ("then", body.outline),
        ("otherwise", otherwise.outline)]
  | .whileLoop _ condition body =>
    .fields "While"
      [("condition", condition.outline), ("body", body.outline), ("exit", exitOutline)]
  | .doLoop _ body condition =>
    .fields "Do"
      [("body", body.outline), ("condition", condition.outline), ("exit", exitOutline)]
  | .breakTo _ => .node "Break" [exitOutline]
  | .set target value => .fields "Set" [("target", target.outline), ("value", value.outline)]
  | .store target value =>
    .fields "SetElem"
      [("target", accessOutline target.array target.index.outline target.type),
        ("value", value.outline)]

/-- The outlines of statements, in order. -/
def Stmt.outlineAll : List Stmt → List Outline
  | [] => []
  | s :: rest => s.outline :: Stmt.outlineAll rest

end

end JumpCode
