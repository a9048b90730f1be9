/-!
# Symbols of the assembly language

Labels, function names and the names of static cells all become symbols
of one assembly program. A name can stand for itself there only if it is
built from the characters below and does not begin with a digit, since an
address that begins with a digit is read as a number.

Words of the source language are a little wider: they may also hold a
hyphen after their first character, for the sake of `if-goto`.
-/

namespace HackVm

/-- Letters, digits and the four marks `_`, `.`, `$` and `:`, all ASCII. -/
def isSymbolChar (c : Char) : Bool :=
  c.isAlphanum || c == '_' || c == '.' || c == '$' || c == ':'

/-- A nonempty run of symbol characters that no digit begins. -/
def isSymbol (name : String) : Bool :=
  match name.toList with
  | [] => false
  | c :: rest => !c.isDigit && isSymbolChar c && rest.all isSymbolChar

/-- A word of the source begins like a symbol. -/
def isWordStart (c : Char) : Bool := isSymbolChar c && !c.isDigit

/-- A word of the source goes on with symbol characters and hyphens. -/
def isWordChar (c : Char) : Bool := isSymbolChar c || c == '-'

theorem isWordChar_of_isWordStart {c : Char} (h : isWordStart c = true) :
    isWordChar c = true := by
  simp only [isWordStart, Bool.and_eq_true] at h
  simp [isWordChar, h.1]

theorem not_isDigit_of_isWordStart {c : Char} (h : isWordStart c = true) :
    c.isDigit = false := by
  simp only [isWordStart, Bool.and_eq_true, Bool.not_eq_true'] at h
  exact h.2

end HackVm
