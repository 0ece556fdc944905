import JumpCode.Text.Hidden

/-!
# JumpCode — quoted characters

How a message shows a single character: between single quotes, with an escape where the character
would not be seen or would end the quotation.
-/

namespace JumpCode

/-- A character as a message shows it, without the quotes. Six characters have an escape of their
own; any other one that `isHidden` is given by its code point in hexadecimal. -/
def escapeChar (c : Char) : List Char :=
  if c.toNat = 0 then ['\\', '0']
  else if c = '\t' then ['\\', 't']
  else if c = '\r' then ['\\', 'r']
  else if c = '\n' then ['\\', 'n']
  else if c = '\x27' then ['\\', '\x27']
  else if c = '\\' then ['\\', '\\']
  else if isHidden c then ['\\', 'u', '\x7b'] ++ Nat.toDigits 16 c.toNat ++ ['\x7d']
  else [c]

/-- A character between single quotes, as `LexError.message` shows it. -/
def quoteChar (c : Char) : String :=
  String.ofList (['\x27'] ++ escapeChar c ++ ['\x27'])

end JumpCode
