import JumpCode.Main
import JumpCode.Proofs.Parsing.DeclReading
import JumpCode.Proofs.Parsing.StmtReading
import JumpCode.Proofs.Determinacy
import JumpCode.Proofs.Parsing.ExprAcceptance
import JumpCode.Proofs.Parsing.StmtAcceptance
import JumpCode.Proofs.NearestElse
import JumpCode.Proofs.Parsing.Language
import JumpCode.Proofs.Code.ExprInduction
import JumpCode.Proofs.Code.Layout
import JumpCode.Proofs.Code.Labels
import JumpCode.Proofs.Session
import JumpCode.Proofs.Code.Typing
import JumpCode.Proofs.Semantics.Machine
import JumpCode.Proofs.Simulation.Expr
import JumpCode.Proofs.Simulation.Stmt
import JumpCode.Proofs.Simulation.Program
import JumpCode.Proofs.Breaks
import JumpCode.Proofs.Lexing.Scan
import JumpCode.Proofs.Names.Listing
import JumpCode.Proofs.Code.Definedness
import JumpCode.Proofs.Lexing.Silence
import JumpCode.Proofs.Code.Renumbering
import JumpCode.Proofs.Names.Resolution
import JumpCode.Proofs.Reports
import JumpCode.Proofs.Names.Recovery
import JumpCode.Proofs.Names.Scoping
import JumpCode.Proofs.Parsing.Context
import JumpCode.Proofs.Beginnings
import JumpCode.Proofs.Parsing.Halting
import JumpCode.Proofs.Parsing.ExprHalting
import JumpCode.Proofs.Parsing.DeclHalting
import JumpCode.Proofs.Parsing.StmtHalting
import JumpCode.Proofs.Parsing.Lookahead
import JumpCode.Proofs.Parsing.CallDepth
import JumpCode.Proofs.Parsing.Earliest
import JumpCode.Proofs.Storage.Layout
import JumpCode.Proofs.Storage.Allocation
import JumpCode.Proofs.Storage.Elements
import JumpCode.Proofs.Storage.Widths
import JumpCode.Proofs.Storage.Nested
import JumpCode.Proofs.Simulation.Alone
import JumpCode.Proofs.Dumping
import JumpCode.Proofs.Respacing
import JumpCode.Proofs.Lexing.Numerals
import JumpCode.Proofs.Lexing.Progress
import JumpCode.Proofs.Lexing.Stream
import JumpCode.Proofs.Lexing.Motion
import JumpCode.Proofs.Lexing.Words
import JumpCode.Proofs.Underlines
import JumpCode.Proofs.Printing
import JumpCode.Proofs.PaddedTexts
import JumpCode.Proofs.DeclaredTypes
