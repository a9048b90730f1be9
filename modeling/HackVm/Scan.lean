import HackVm.Symbol
import HackVm.Text
import HackVm.Fault

/-!
# Scanning

`scan` cuts a source text into tokens. Blanks and comments separate
tokens and are dropped; a comment reaches from `//` to the end of its
line. Every token is as long as it can be: a number takes all the digits
that follow, a word all the word characters.

The first character that begins no token ends the scan, and so does a run
of digits that no number of the language holds. Offsets count the bytes
of the text in UTF-8.
-/

namespace HackVm

/-- Blanks other than the line end. -/
def isBlank (c : Char) : Bool :=
  c == ' ' || c == '\t' || c == '\r' || c == Char.ofNat 12

/-- The number that a run of digits spells, if the language holds it. -/
def numberOf? (digits : List Char) : Option UInt32 :=
  let value := Nat.ofDigitChars 10 digits 0
  if value < UInt32.size then some (UInt32.ofNat value) else none

/-- The tokens of a text that begins at byte `offset`. -/
def scanFrom (offset : Nat) : List Char → Except Fault (List Lexeme)
  | [] => .ok []
  | c :: rest =>
    if c == '\n' then
      (scanFrom (offset + 1) rest).map (⟨.newline, ⟨offset, offset + 1⟩⟩ :: ·)
    else if isBlank c then
      scanFrom (offset + 1) rest
    else if c.isDigit then
      let digits := c :: rest.takeWhile Char.isDigit
      let span : Span := ⟨offset, offset + byteLength digits⟩
      match numberOf? digits with
      | some value =>
        (scanFrom span.stop (rest.dropWhile Char.isDigit)).map (⟨.integer value, span⟩ :: ·)
      | none => .error ⟨.literalTooLarge (String.ofList digits), span⟩
    else if isWordStart c then
      let letters := c :: rest.takeWhile isWordChar
      let span : Span := ⟨offset, offset + byteLength letters⟩
      (scanFrom span.stop (rest.dropWhile isWordChar)).map
        (⟨.word (String.ofList letters), span⟩ :: ·)
    else if c == '/' && rest.head? == some '/' then
      let remark := c :: rest.takeWhile (· != '\n')
      scanFrom (offset + byteLength remark) (rest.dropWhile (· != '\n'))
    else
      .error ⟨.strayCharacter c, ⟨offset, offset + c.utf8Size⟩⟩
termination_by cs => cs.length
decreasing_by
  · exact Nat.lt_succ_self _
  · exact Nat.lt_succ_self _
  · exact Nat.lt_succ_of_le (List.dropWhile_sublist _).length_le
  · exact Nat.lt_succ_of_le (List.dropWhile_sublist _).length_le
  · exact Nat.lt_succ_of_le (List.dropWhile_sublist _).length_le

/-- The tokens of a source text, or the first fault in it. -/
def scan (source : String) : Except Fault (List Lexeme) :=
  scanFrom 0 source.toList

end HackVm
