import HackVm.Span

/-!
# Tokens

A source line is a row of words and numbers, closed by a line end. What a
word means depends on where it stands in its line, so a token does not
tell keywords from names.
-/

namespace HackVm

inductive Token where
  /-- The end of a source line. -/
  | newline
  /-- An unsigned decimal number. -/
  | integer (value : UInt32)
  /-- A keyword, the name of a segment, a label or the name of a function. -/
  | word (text : String)
deriving DecidableEq

namespace Token

/-- How a message names a token: words stand in quotes. -/
def text : Token → String
  | newline => "newline"
  | integer value => toString value.toNat
  | word w => "'" ++ w ++ "'"

end Token

/-- A token and the bytes it was read from. -/
structure Lexeme where
  token : Token
  span : Span
deriving DecidableEq

end HackVm
