/-!
# Characters in messages

A message that quotes a character of the source must stay readable
whatever the character is. Printable ASCII stands for itself, except that
quotes and the backslash are marked by a backslash; the usual control
characters have a letter; everything else is written by its code point.
-/

namespace HackVm

/-- Lowercase hexadecimal digits, without leading zeros. -/
def hexText (n : Nat) : String := String.ofList (Nat.toDigits 16 n)

/-- A character as a message quotes it. -/
def escaped (c : Char) : String :=
  if c == '\t' then "\\t"
  else if c == '\r' then "\\r"
  else if c == '\n' then "\\n"
  else if c == '\'' || c == '"' || c == '\\' then "\\" ++ c.toString
  else if 0x20 ≤ c.toNat && c.toNat ≤ 0x7e then c.toString
  else "\\u\x7b" ++ hexText c.toNat ++ "\x7d"

end HackVm
