/-!
# Paths

A path is a text in which slashes separate names. Asking a path for its
parts looks at the text alone, never at a disk: empty pieces and single
dots name nothing, and two dots name the directory above, which has no
name of its own.

Paths are kept as they were written. Appending a name and exchanging an
ending change only the part of the text that they are about, so a user
finds the spelling of an input again in every message and output path.
-/

namespace HackVm

structure Path where
  text : String
deriving DecidableEq

namespace Path

def pieces (p : Path) : List String :=
  (p.text.toList.splitOn '/').map String.ofList

def ofPieces (pieces : List String) : Path :=
  ⟨String.ofList (['/'].intercalate (pieces.map String.toList))⟩

def isAbsolute (p : Path) : Bool := p.text.toList.head? == some '/'

/-- Pieces that stay in the directory at hand. -/
def isIdle (piece : String) : Bool := piece == "" || piece == "."

def fileName? (p : Path) : Option String :=
  match p.pieces.reverse.dropWhile isIdle with
  | [] => none
  | name :: _ => if name == ".." then none else some name

/-- A name up to its last dot, and what follows the dot. A dot in front of
everything else begins no ending. -/
def splitName (name : String) : String × Option String :=
  let back := name.toList.reverse
  match back.dropWhile (· != '.') with
  | _ :: c :: stem =>
    (String.ofList (c :: stem).reverse,
      some (String.ofList (back.takeWhile (· != '.')).reverse))
  | _ => (name, none)

def extension? (p : Path) : Option String :=
  p.fileName?.bind fun name => (splitName name).2

def rename (name ending : String) : String := (splitName name).1 ++ "." ++ ending

/-- The path with another ending. What follows the name, such as a slash,
is dropped; a path without a name stays as it is. The old ending is taken
off first: what is left of two dots and an ending, with nothing behind
them, is the directory above, and that is no name to put an ending on. -/
def withExtension (p : Path) (ending : String) : Path :=
  match p.pieces.reverse.dropWhile isIdle with
  | [] => p
  | name :: above =>
    if name == ".." then p
    else if (splitName name).1 == "." && p.pieces.getLast? == some name then
      ofPieces (above.reverse ++ [".."])
    else ofPieces (above.reverse ++ [rename name ending])

def child (p : Path) (name : String) : Path :=
  match p.text.toList.getLast? with
  | none => ⟨name⟩
  | some '/' => ⟨p.text ++ name⟩
  | some _ => ⟨p.text ++ "/" ++ name⟩

end Path

end HackVm
