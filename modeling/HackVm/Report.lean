import HackVm.Fault
import HackVm.Text

/-!
# Reports

A report shows a diagnostic beside the source line it is about: the line
and column of the place, the line itself, and carets under the text that
is at fault.

Lines and columns count from 1, and columns count characters. The line is
shown without the carriage returns that end it. Carets are as many as the
span has bytes, but at least one, and no more than the rest of the line
has bytes.

The blanks in front of the carets are made by a formatter with a greatest
width. A place farther to the right than that crashes the formatter, so
such a diagnostic has no report.
-/

namespace HackVm

/-- A place in a source text, with the line that holds it. -/
structure Location where
  line : Nat
  column : Nat
  content : String
deriving DecidableEq

namespace Location

/-- Drop the carriage returns at the end of a line. -/
def trimReturns (line : List Char) : List Char :=
  (line.reverse.dropWhile (· == '\r')).reverse

/-- The location at a cut of the text. -/
def ofCut (cut : Cut) : Location :=
  let left := cut.before.takeWhile (· != '\n')
  let right := cut.after.takeWhile (· != '\n')
  { line := cut.before.count '\n' + 1
    column := left.length + 1
    content := String.ofList (trimReturns (left.reverse ++ right)) }

/-- The location of a byte offset. Offsets past the end act as the end, and
no location lies inside a character. -/
def ofOffset? (source : String) (offset : Nat) : Option Location :=
  (cutAt? source.toList offset).map ofCut

end Location

/-- A row of blanks. -/
def blanks (n : Nat) : String := String.ofList (List.replicate n ' ')

namespace Diagnostic

/-- The number of carets under a location. -/
def caretCount (d : Diagnostic) (place : Location) : Nat :=
  min (max d.span.length 1) (max (place.content.utf8ByteSize - (place.column - 1)) 1)

/-- The report of a diagnostic at a location of the named file. -/
def renderAt (d : Diagnostic) (place : Location) (file : String) : String :=
  let number := toString place.line
  let margin := blanks number.length
  let carets := String.ofList (List.replicate (d.caretCount place) '^')
  "error[" ++ d.code.text ++ "]: " ++ d.message ++ "\n" ++
  "  --> " ++ file ++ ":" ++ number ++ ":" ++ toString place.column ++ "\n" ++
  margin ++ " |\n" ++
  number ++ " | " ++ place.content ++ "\n" ++
  margin ++ " | " ++ blanks (place.column - 1) ++ carets ++ "\n" ++
  match d.hint with
  | some hint => margin ++ " = hint: " ++ hint ++ "\n"
  | none => ""

/-- The greatest width of a text that the formatter makes. -/
def widthLimit : Nat := 65535

/-- The report of a diagnostic in a source text. A diagnostic whose span
begins inside a character has none, nor has one whose carets would begin
behind the greatest width. -/
def render? (d : Diagnostic) (source : String) (file : Option String) : Option String := do
  let place ← Location.ofOffset? source d.span.start
  if widthLimit < place.column - 1 then none
  else return d.renderAt place (file.getD "<input>")

theorem render?_of_location {d : Diagnostic} {source : String} {place : Location}
    (h : Location.ofOffset? source d.span.start = some place)
    (hcolumn : place.column - 1 ≤ widthLimit) (file : Option String) :
    d.render? source file = some (d.renderAt place (file.getD "<input>")) := by
  simp [render?, h, Nat.not_lt.mpr hcolumn]

theorem render?_eq_none {d : Diagnostic} {source : String} {place : Location}
    (h : Location.ofOffset? source d.span.start = some place)
    (hcolumn : widthLimit < place.column - 1) (file : Option String) :
    d.render? source file = none := by
  simp [render?, h, hcolumn]

end Diagnostic

end HackVm
