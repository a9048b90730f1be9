import HackVm.File.Path

/-!
# File systems

What a build asks of a file system: what a path names, what a directory
holds, the text of a file, where a path leads, and to store a text. Any
monad that answers these questions can run a build. The program runs on
the machine's own files; `HackVm.File.Disk` is a file system that is a
plain value, on which the same builds can be studied.
-/

namespace HackVm

/-- Where something is: the names on the way down from the root. -/
abbrev Place := List String

/-- The path that spells a place from the root on. -/
def Place.path (place : Place) : Path := .ofPieces ("" :: if place.isEmpty then [""] else place)

/-- Why a file could not be read or written. -/
inductive IoError where
  /-- Some part of the path names nothing. -/
  | notFound
  /-- Some part of the path would have to be a directory. -/
  | notDirectory
  /-- The path names a directory. -/
  | isDirectory
  /-- The path, or a name in it, is longer than the system takes. -/
  | nameTooLong
  /-- The path holds the null character, which ends a name for the system. -/
  | nullInPath
  /-- The file holds no text. -/
  | invalidText
  /-- A source file that was asked for by name does not exist. -/
  | noSource
  /-- Another reason, in words. -/
  | other (text : String)
deriving DecidableEq

def IoError.text : IoError → String
  | notFound => "No such file or directory (os error 2)"
  | notDirectory => "Not a directory (os error 20)"
  | isDirectory => "Is a directory (os error 21)"
  | nameTooLong => "File name too long (os error 36)"
  | nullInPath => "file name contained an unexpected NUL byte"
  | invalidText => "stream did not contain valid UTF-8"
  | noSource => "file not found"
  | other text => text

inductive FileKind where
  | file | directory | other
deriving DecidableEq

/-- A place that a path leads to, and what is there. -/
structure Found where
  place : Place
  kind : FileKind
deriving DecidableEq

class FileSystem (m : Type → Type) where
  /-- What a path leads to, if it can be looked up. -/
  kind : Path → m (Option FileKind)
  /-- The names in a directory, in any order. -/
  entries : Path → m (Except IoError (List String))
  /-- The text of a file. -/
  read : Path → m (Except IoError String)
  /-- Open a file, which empties or creates it, and make it hold a text. -/
  write : Path → String → m (Except IoError Unit)
  /-- Where a path leads. -/
  locate : Path → m (Except IoError Found)

end HackVm
