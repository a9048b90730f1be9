/-!
# Options of a build

What a user may choose about a program: which function it starts with,
whether it starts with a bootstrap, and whether its text repeats the
source commands as comments.
-/

namespace HackVm

/-- When to begin a program with the bootstrap. -/
inductive BootstrapMode where
  /-- For a directory, which makes a whole program, but not for a file. -/
  | auto
  | always
  | never
deriving DecidableEq

namespace BootstrapMode

def all : List BootstrapMode := [auto, always, never]

def keyword : BootstrapMode → String
  | auto => "auto"
  | always => "always"
  | never => "never"

/-- The mode that a word names. -/
def ofKeyword? (word : String) : Option BootstrapMode :=
  all.find? (·.keyword == word)

theorem ofKeyword?_keyword (m : BootstrapMode) : ofKeyword? m.keyword = some m := by
  cases m <;> decide

/-- Does an input, a directory or not, get the bootstrap? -/
def applies (m : BootstrapMode) (isDirectory : Bool) : Bool :=
  match m with
  | auto => isDirectory
  | always => true
  | never => false

end BootstrapMode

structure Config where
  /-- The function that the bootstrap calls. -/
  entry : String := "Sys.init"
  bootstrap : BootstrapMode := .auto
  /-- Does a comment precede the code of each command? -/
  comments : Bool := true
deriving DecidableEq

end HackVm
