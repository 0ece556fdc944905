import JumpCode.Proofs.Parsing.Calls

/-!
# JumpCode — functions do what their scripts say

The script of a function is the function itself, with its calls laid open: run with some fuel for
the calls, it does what the function does with that fuel and the one unit more that some functions
take for themselves.

* `Script.run_then`, `Script.run_ask_then`, `Script.run_ite` — a script does what its parts do;
* `Call.run_script` — all functions of the parser.
-/

namespace JumpCode

open JumpCode.Parser

variable {f : Routine} {α β : Type}

/-- The fuel that a call of a `Routine` uses up for itself: one unit, or none. -/
def Routine.cost : Routine → Nat
  | dims | decls | expr _ | operand _ | chain _ | unary | factor | access | subscripts | subscript
  | stmt | stmts | block => 1
  | _ => 0

namespace Script

variable {fuel : Nat}

theorem run_bind (p : Script α) (k : α → Script β) :
    (p >>= k).run fuel = p.run fuel >>= fun a => (k a).run fuel := by
  -- on the script: what comes behind it is moved into its last part
  show (p.bind k).run fuel = _
  induction p with
  | done a => exact (pure_bind a fun a => (k a).run fuel).symm
  | stop span error => rfl
  | read rest ih => simp only [Script.bind, run, bind_assoc, ih]
  | write s rest ih => simp only [Script.bind, run, bind_assoc, ih]
  | call c rest ih => simp only [Script.bind, run, bind_assoc, ih]
  | inside enter leave body rest _ ih => simp only [Script.bind, run, bind_assoc, ih]

theorem run_ask (c : Call f α) : (ask c).run fuel = c.run fuel := bind_pure (c.run fuel)

theorem run_around (enter leave : ParserState → ParserState) (p : Script α) :
    (around enter leave p).run fuel = Parser.inside enter leave (p.run fuel) :=
  bind_pure (Parser.inside enter leave (p.run fuel))

variable {p q : Script α} {p' q' : Parser α} {k : α → Script β} {k' : α → Parser β}

/-- A sequence does what its parts do: `Script.run` goes through `bind`. -/
theorem run_then (h : p.run fuel = p') (h' : ∀ a, (k a).run fuel = k' a) :
    (p >>= k).run fuel = p' >>= k' := by
  rw [run_bind, h]
  exact bind_congr h'

/-- A function is called (`Script.ask`), and its value is used. -/
theorem run_ask_then {c : Call f α} (h : ∀ a, (k a).run fuel = k' a) :
    (ask c >>= k).run fuel = c.run fuel >>= k' := run_then (run_ask c) h

/-- A choice does what the chosen part does, so that a branch of a function is a branch of its
script. -/
theorem run_ite {P : Prop} [Decidable P] (h : p.run fuel = p') (h' : q.run fuel = q') :
    (if P then p else q).run fuel = if P then p' else q' := by
  split
  · exact h
  · exact h'

/-- What is chosen is used in the same way: the script goes on with `k` in both branches, as the
function goes on with `k'`. A branch of the source with common code behind it comes to this. -/
theorem run_choice {P : Prop} [Decidable P] (h : p.run fuel = p') (h' : q.run fuel = q')
    (hNext : ∀ a, (k a).run fuel = k' a) :
    (if P then p >>= k else q >>= k).run fuel = if P then p' >>= k' else q' >>= k' :=
  run_ite (run_then h hNext) (run_then h' hNext)

end Script

namespace Call

open Script

variable (fuel : Nat)

/-! ### Tokens -/

theorem run_peek_script : peek.script.run fuel = Parser.peek := by
  refine run_then rfl ?_
  intro s
  obtain ⟨rest, ending, last, scope, used, loops, met, log⟩ := s
  -- what the lexer ends in matters only where no token is left
  cases rest with
  | cons token rest => rfl
  | nil => cases ending <;> rfl

theorem run_next_script : next.script.run fuel = Parser.next := by
  refine run_then rfl ?_
  intro s
  obtain ⟨rest, ending, last, scope, used, loops, met, log⟩ := s
  cases rest with
  | cons token rest => rfl
  | nil => cases ending <;> rfl

theorem run_expect_script (token : Token) :
    (expect token).script.run fuel = Parser.expect token := by
  refine run_then rfl ?_
  intro s
  obtain ⟨rest, ending, last, scope, used, loops, met, log⟩ := s
  have hFound (found : Located Token) :
      (if found.value = token then (return found.span)
        else ask (fail (.unexpectedToken token found.value)) : Script Span).run fuel =
      if found.value = token then (return found.span)
        else Parser.fail (.unexpectedToken token found.value) := run_ite rfl rfl
  cases rest with
  | cons _ rest => exact run_ask_then hFound
  | nil =>
    cases ending with
    | none => rfl
    | some failure => exact run_ask_then hFound

theorem run_name_script : name.script.run fuel = Parser.name := by
  refine run_ask_then ?_
  intro found
  obtain ⟨token, span⟩ := found
  cases token <;> rfl

/-! ### Names and declarations -/

theorem run_resolve_script (text : String) (span : Span) :
    (resolve text span).script.run fuel = Parser.resolve text span := by
  refine run_then rfl ?_
  intro s
  cases s.scope.lookup? text <;> rfl

theorem run_declare_script (text : String) (of : Ty) (span : Span) :
    (declare text of span).script.run fuel = Parser.declare text of span := by
  refine run_then rfl ?_
  intro s
  refine run_ite rfl ?_
  dsimp only
  cases s.scope.declare? ⟨text, of, s.used⟩ <;> rfl

theorem run_optionalDims_script (of : Ty) :
    (optionalDims of).script.run fuel = Parser.optionalDims fuel of := by
  refine run_ask_then ?_
  intro b
  exact run_ite (run_ask _) rfl

theorem run_dims_script (of : Ty) : (dims of).script.run fuel = Parser.dims (fuel + 1) of := by
  rw [Parser.dims]
  refine run_ask_then fun _ => run_ask_then ?_
  intro found
  obtain ⟨token, span⟩ := found
  cases token with
  | intLiteral value =>
    refine run_ask_then fun _ => run_ask_then ?_
    intro b
    refine run_choice (run_ask _) rfl ?_
    intro element
    dsimp only
    cases Ty.array? (lengthOf value) element <;> rfl
  | _ => rfl

theorem run_type_script : type.script.run fuel = Parser.type fuel := by
  refine run_ask_then ?_
  intro found
  obtain ⟨token, span⟩ := found
  cases token with
  | scalar s => exact run_ask _
  | _ => rfl

theorem run_decl_script : decl.script.run fuel = Parser.decl fuel := by
  refine run_ask_then fun of => run_ask_then fun found => run_ask_then ?_
  intro b
  refine run_ite rfl ?_
  exact run_ask_then fun of => run_ask_then fun _ => run_ask _

theorem run_decls_script : decls.script.run fuel = Parser.decls (fuel + 1) := by
  rw [Parser.decls]
  refine run_ask_then ?_
  intro t
  -- only a declared type begins a declaration
  cases t with
  | none => rfl
  | some token =>
    cases token with
    | scalar s => exact run_ask_then fun _ => run_ask _
    | _ => rfl

/-! ### Expressions -/

theorem run_expr_script (l : Level) : (expr l).script.run fuel = Parser.expr (fuel + 1) l := by
  rw [Parser.expr]
  exact run_ask_then fun lhs => run_ask _

theorem run_operand_script (l : Level) :
    (operand l).script.run fuel = Parser.operand (fuel + 1) l := by
  rw [Parser.operand, script]
  cases l.tighter? with
  | some l => exact run_ask _
  | none => exact run_ask _

theorem run_chain_script (l : Level) (lhs : Expr) :
    (chain l lhs).script.run fuel = Parser.chain (fuel + 1) l lhs := by
  rw [Parser.chain]
  refine run_ask_then ?_
  intro t
  cases l.operatorOf? t with
  | none => rfl
  | some op =>
    refine run_ask_then fun found => run_ask_then fun rhs => run_ask_then ?_
    intro joined
    exact run_ite (run_ask _) rfl

theorem run_unary_script : unary.script.run fuel = Parser.unary (fuel + 1) := by
  rw [Parser.unary]
  refine run_ask_then ?_
  intro t
  cases unaryOf? t with
  | some op => exact run_ask_then fun found => run_ask_then fun e => run_ask _
  | none => exact run_ask _

theorem run_factor_script : factor.script.run fuel = Parser.factor (fuel + 1) := by
  rw [Parser.factor]
  refine run_ask_then ?_
  intro found
  obtain ⟨token, span⟩ := found
  cases token with
  | mark m =>
    cases m with
    | openParen => exact run_ask_then fun e => run_ask_then fun _ => rfl
    | _ => rfl
  | keyword k => cases k <;> rfl
  | name text =>
    refine run_ask_then fun x => run_ask_then ?_
    intro b
    exact run_ite (run_ask_then fun a => rfl) rfl
  | _ => rfl

theorem run_access_script (x : Symbol) (span : Span) :
    (access x span).script.run fuel = Parser.access (fuel + 1) x span := by
  rw [Parser.access]
  exact run_ask_then fun _ => run_ask _

theorem run_subscripts_script (x : Symbol) (span : Span) (index : Expr) (of : Ty) :
    (subscripts x span index of).script.run fuel =
      Parser.subscripts (fuel + 1) x span index of := by
  rw [Parser.subscripts]
  refine run_ask_then ?_
  intro b
  refine run_ite ?_ rfl
  exact run_ask_then fun _ => run_ask_then fun index => run_ask _

theorem run_subscript_script (x : Symbol) (span : Span) (of : Ty) :
    (subscript x span of).script.run fuel = Parser.subscript (fuel + 1) x span of := by
  rw [Parser.subscript]
  refine run_ask_then fun bracket => run_ask_then fun index => run_ask_then ?_
  intro _
  cases of.element? with
  | none => rfl
  | some element => exact run_ask_then fun term => rfl

/-! ### Statements -/

theorem run_condition_script (construct : Construct) (span : Span) :
    (condition construct span).script.run fuel = Parser.condition fuel construct span := by
  refine run_ask_then fun _ => run_ask_then fun e => run_ask_then ?_
  intro _
  exact run_ite rfl rfl

theorem run_assignment_script : assignment.script.run fuel = Parser.assignment fuel := by
  refine run_ask_then fun found => run_ask_then fun x => run_ask_then ?_
  intro b
  have hEnd (s : Stmt) : (do let _ ← ask (expectMark .semicolon); return s : Script Stmt).run fuel =
      (do let _ ← Parser.expectMark .semicolon; return s) := run_ask_then fun _ => rfl
  refine run_ite ?_ ?_
  · refine run_ask_then fun sign => run_ask_then ?_
    intro value
    exact run_choice rfl rfl hEnd
  · refine run_ask_then fun target => run_ask_then fun sign => run_ask_then ?_
    intro value
    exact run_choice rfl rfl hEnd

theorem run_breakStmt_script : breakStmt.script.run fuel = Parser.breakStmt := by
  refine run_ask_then fun span => run_then rfl ?_
  intro s
  cases s.loops with
  | nil => rfl
  | cons exit _ => exact run_ask_then fun _ => rfl

theorem run_ifStmt_script :
    ifStmt.script.run fuel = Parser.ifStmt fuel (Parser.stmt fuel) := by
  refine run_ask_then fun span => run_ask_then fun test => run_ask_then fun onTrue =>
    run_ask_then ?_
  intro t
  exact run_ite (run_ask_then fun _ => run_ask_then fun otherwise => rfl) rfl

theorem run_whileStmt_script :
    whileStmt.script.run fuel = Parser.whileStmt fuel (Parser.stmt fuel) :=
  run_ask_then fun _ => run_ask_then fun _ => run_ask_then fun _ => run_ask_then fun _ => rfl

theorem run_doStmt_script : doStmt.script.run fuel = Parser.doStmt fuel (Parser.stmt fuel) :=
  run_ask_then fun _ => run_ask_then fun _ => run_ask_then fun _ => run_ask_then fun _ =>
    run_ask_then fun _ => run_ask_then fun _ => rfl

theorem run_loopBody_script (exit : LoopExit) :
    (loopBody exit).script.run fuel = Parser.inLoop exit (Parser.stmt fuel) := by
  show (around (enterLoop exit) leaveLoop (ask stmt)).run fuel = _
  rw [run_around, run_ask]
  rfl

theorem run_stmt_script : stmt.script.run fuel = Parser.stmt (fuel + 1) := by
  rw [Parser.stmt]
  refine run_ask_then ?_
  intro t
  -- the first token tells which statement it is
  cases t with
  | none => exact run_ask _
  | some token =>
    cases token with
    | mark m =>
      cases m with
      | semicolon => exact run_ask_then fun _ => rfl
      | _ => exact run_ask _
    | keyword k => cases k <;> exact run_ask _
    | _ => exact run_ask _

theorem run_stmts_script : stmts.script.run fuel = Parser.stmts (fuel + 1) := by
  rw [Parser.stmts]
  refine run_ask_then ?_
  intro t
  have hMore : (do let first ← ask stmt; let others ← ask stmts; return first :: others :
      Script (List Stmt)).run fuel =
      (do let first ← Parser.stmt fuel; let others ← Parser.stmts fuel; return first :: others) :=
    run_ask_then fun first => run_ask_then fun others => rfl
  cases t with
  | none => rfl
  | some token =>
    cases token with
    | mark m =>
      cases m with
      | closeCurly => rfl
      | _ => exact hMore
    | _ => exact hMore

theorem run_block_script : block.script.run fuel = Parser.block (fuel + 1) := by
  rw [Parser.block]
  have hItems : (do ask decls; ask stmts : Script (List Stmt)).run fuel =
      (do Parser.decls fuel; Parser.stmts fuel) := run_ask_then fun _ => run_ask _
  refine run_ask_then fun _ => run_then ?_ fun items => run_ask_then fun _ => rfl
  rw [run_around, hItems]
  rfl

theorem run_program_script : program.script.run fuel = Parser.program fuel := by
  refine run_ask_then fun body => run_ask_then ?_
  intro t
  refine run_ite ?_ rfl
  exact run_ask_then fun found => rfl

end Call

/-- **Functions do what their scripts say**: `Call.script`, run with some fuel, is `Call.run` with
this fuel and `Routine.cost`. There is one lemma for each function in front. -/
theorem Call.run_script (c : Call f α) (fuel : Nat) :
    c.script.run fuel = c.run (fuel + f.cost) := by
  cases c with
  | fail error => rfl
  | check span r => cases r <;> rfl
  | peek => exact run_peek_script fuel
  | next => exact run_next_script fuel
  | expect token => exact run_expect_script fuel token
  | expectMark m => exact Script.run_ask _
  | expectKeyword k => exact Script.run_ask _
  | name => exact run_name_script fuel
  | atMark m => exact Script.run_ask_then fun t => rfl
  | newExit => rfl
  | resolve text span => exact run_resolve_script fuel text span
  | declare text of span => exact run_declare_script fuel text of span
  | dims of => exact run_dims_script fuel of
  | optionalDims of => exact run_optionalDims_script fuel of
  | type => exact run_type_script fuel
  | decl => exact run_decl_script fuel
  | decls => exact run_decls_script fuel
  | expr l => exact run_expr_script fuel l
  | operand l => exact run_operand_script fuel l
  | chain l lhs => exact run_chain_script fuel l lhs
  | unary => exact run_unary_script fuel
  | factor => exact run_factor_script fuel
  | access x span => exact run_access_script fuel x span
  | subscripts x span index of => exact run_subscripts_script fuel x span index of
  | subscript x span of => exact run_subscript_script fuel x span of
  | condition construct span => exact run_condition_script fuel construct span
  | assignment => exact run_assignment_script fuel
  | breakStmt => exact run_breakStmt_script fuel
  | ifStmt => exact run_ifStmt_script fuel
  | whileStmt => exact run_whileStmt_script fuel
  | doStmt => exact run_doStmt_script fuel
  | loopBody exit => exact run_loopBody_script fuel exit
  | stmt => exact run_stmt_script fuel
  | stmts => exact run_stmts_script fuel
  | block => exact run_block_script fuel
  | program => exact run_program_script fuel

end JumpCode
