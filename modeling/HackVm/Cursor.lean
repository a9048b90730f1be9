import HackVm.Fault

/-!
# Cursors

A cursor stands between two tokens of a row of tokens. It keeps what it
has passed, nearest first, what lies ahead, and the number of the line it
stands in: one more than the line ends it has passed.

A cursor only ever moves forward, one token at a time, and passing a line
end is the only thing that changes its line.
-/

namespace HackVm

structure Cursor where
  passed : List Lexeme
  ahead : List Lexeme
  line : Nat
deriving DecidableEq

def Lexeme.isLineEnd (l : Lexeme) : Bool := l.token == .newline

namespace Cursor

/-- The cursor in front of the first token. -/
def ofLexemes (lexemes : List Lexeme) : Cursor := ⟨[], lexemes, 1⟩

/-- The number of tokens passed. -/
def position (c : Cursor) : Nat := c.passed.length

/-- Is there no token ahead? -/
def atEnd (c : Cursor) : Bool := c.ahead.isEmpty

/-- The span of the token just passed. In front of the first token it is
the span of that token. -/
def previousSpan (c : Cursor) : Span :=
  match c.passed, c.ahead with
  | l :: _, _ => l.span
  | [], l :: _ => l.span
  | [], [] => .nowhere

/-- Pass one token, if there is one. -/
def advance (c : Cursor) : Cursor :=
  match c.ahead with
  | [] => c
  | l :: rest =>
    { passed := l :: c.passed
      ahead := rest
      line := if l.isLineEnd then c.line + 1 else c.line }

/-- Pass the line ends ahead. -/
def skipLineEnds (c : Cursor) : Cursor :=
  let ends := c.ahead.takeWhile Lexeme.isLineEnd
  { passed := ends.reverse ++ c.passed
    ahead := c.ahead.dropWhile Lexeme.isLineEnd
    line := c.line + ends.length }

/-- The fault of a line that lacks `what` after `after`. It is an empty
span behind the token just passed. -/
def missing (c : Cursor) (what after : String) : Fault :=
  ⟨.missingOperand what after, .point c.previousSpan.stop⟩

theorem length_ahead_advance_le (c : Cursor) :
    c.advance.ahead.length ≤ c.ahead.length := by
  unfold advance
  split <;> simp_all

theorem length_ahead_skipLineEnds_le (c : Cursor) :
    c.skipLineEnds.ahead.length ≤ c.ahead.length :=
  (List.dropWhile_sublist _).length_le

end Cursor

end HackVm
