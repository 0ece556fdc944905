import JumpCode.Real64.Shortest
import JumpCode.Ty

/-!
# JumpCode — tokens

The words of the language: names, keywords, scalar types, literals, and marks — its operators and
punctuation.
-/

namespace JumpCode

/-! ## Keywords -/

/-- A reserved word other than the names of the scalars, which are `Scalar.name`. -/
inductive Keyword
  | ifWord
  | elseWord
  | whileWord
  | doWord
  | breakWord
  | trueWord
  | falseWord
deriving DecidableEq, Repr

namespace Keyword

/-- The spelling of a keyword. -/
def name : Keyword → String
  | ifWord => "if"
  | elseWord => "else"
  | whileWord => "while"
  | doWord => "do"
  | breakWord => "break"
  | trueWord => "true"
  | falseWord => "false"

/-- All keywords, for `Keyword.ofName?` to look through. -/
def all : List Keyword :=
  [ifWord, elseWord, whileWord, doWord, breakWord, trueWord, falseWord]

/-- The `Keyword` with this spelling, if any: the inverse of `Keyword.name`. -/
def ofName? (word : String) : Option Keyword := all.find? (·.name == word)

end Keyword

/-! ## Marks -/

/-- An operator or a piece of punctuation, each with a spelling of one or two characters. -/
inductive Mark
  | assign
  | equal
  | notEqual
  | less
  | lessOrEqual
  | greater
  | greaterOrEqual
  | and
  | or
  | not
  | plus
  | minus
  | times
  | slash
  | semicolon
  | openParen
  | closeParen
  | openCurly
  | closeCurly
  | openSquare
  | closeSquare
deriving DecidableEq, Repr

namespace Mark

/-- The spelling of a mark. -/
def text : Mark → String
  | assign => "="
  | equal => "=="
  | notEqual => "!="
  | less => "<"
  | lessOrEqual => "<="
  | greater => ">"
  | greaterOrEqual => ">="
  | and => "&&"
  | or => "||"
  | not => "!"
  | plus => "+"
  | minus => "-"
  | times => "*"
  | slash => "/"
  | semicolon => ";"
  | openParen => "("
  | closeParen => ")"
  | openCurly => "\x7b"
  | closeCurly => "\x7d"
  | openSquare => "["
  | closeSquare => "]"

/-- All marks, for `Mark.ofText?` to look through. -/
def all : List Mark :=
  [assign, equal, notEqual, less, lessOrEqual, greater, greaterOrEqual, and, or, not, plus, minus,
    times, slash, semicolon, openParen, closeParen, openCurly, closeCurly, openSquare,
    closeSquare]

/-- The `Mark` with this spelling, if any: the inverse of `Mark.text`. -/
def ofText? (text : String) : Option Mark := all.find? (·.text == text)

end Mark

/-! ## Tokens -/

/-- A token. Literals stand for their values; only names keep their spelling. Where a token stands
in the text is said by a `Located Token`. -/
inductive Token
  | name (text : String)
  | keyword (word : Keyword)
  | scalar (type : Scalar)
  | intLiteral (value : Int)
  | realLiteral (value : Real64)
  | mark (mark : Mark)
deriving DecidableEq, Repr

namespace Token

/-- A token as the messages of `GrammarError` and `dumpedTokens` show it. -/
def render : Token → String
  | name text => "identifier `" ++ text ++ "`"
  | keyword word => "keyword `" ++ word.name ++ "`"
  | scalar type => "type `" ++ type.name ++ "`"
  | intLiteral value => "literal `" ++ toString value ++ "`"
  | realLiteral value => "literal `" ++ value.render ++ "`"
  | mark m => "`" ++ m.text ++ "`"

/-- The token that a word denotes: a `Keyword` or a `Scalar` if it is spelled exactly so, and
otherwise a name. -/
def ofWord (word : String) : Token :=
  match Keyword.ofName? word with
  | some k => keyword k
  | none =>
    match Scalar.ofName? word with
    | some s => scalar s
    | none => name word

end Token

end JumpCode
