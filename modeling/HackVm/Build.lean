import HackVm.Program
import HackVm.Report
import HackVm.File.System

/-!
# Builds

A build turns one input path into one assembly file. A source file stands
for itself and a directory for all source files directly in it, in the
order of their names. All sources are read before any is translated, and
nothing is written unless all are translated.

What lies in a directory is asked for by the path of the directory and its
name. So a link counts as what it leads to, and what cannot be looked up
that way is passed over in silence.

What can go wrong is one `BuildError`; a user reads its report and a
script its exit code.
-/

namespace HackVm

inductive BuildError where
  /-- A directory without source files. -/
  | noSources (path : Path)
  /-- An input that is neither a directory nor called a source file. -/
  | invalidInput (path : Path)
  | unreadable (path : Path) (reason : IoError)
  | unwritable (path : Path) (reason : IoError)
  | source (fault : SourceFault)
  /-- An input to watch that leads nowhere. -/
  | unwatchable (path : Path) (reason : IoError)
deriving DecidableEq

namespace BuildError

def message : BuildError → String
  | noSources path => "No .vm files found in " ++ path.text
  | invalidInput path => "Input must be a .vm file or a directory: " ++ path.text
  | unreadable path reason => "Cannot read " ++ path.text ++ ": " ++ reason.text
  | unwritable path reason => "Cannot write " ++ path.text ++ ": " ++ reason.text
  | source f => f.file ++ ": " ++ f.fault.diagnostic.headline
  | unwatchable path reason =>
    "File watch error: Cannot resolve path " ++ path.text ++ ": " ++ reason.text

def line (e : BuildError) : String := "error: " ++ e.message ++ "\n"

/-- What the user reads. Faults in a source are shown beside their line, if
the formatter does not crash. -/
def render? (e : BuildError) : Option String :=
  match e with
  | source f => f.fault.diagnostic.render? f.text (some f.file)
  | _ => some e.line

/-- Can the error be mended by editing the sources? -/
def isSourceError : BuildError → Bool
  | source _ => true
  | _ => false

def exitCode : BuildError → UInt8
  | source _ => 1
  | noSources _ | invalidInput _ => 2
  | unreadable _ _ | unwritable _ _ | unwatchable _ _ => 3

end BuildError

/-- What a build makes: the program, and the names of its files in order. -/
structure Artifact where
  instructions : List Instruction
  files : List String
deriving DecidableEq

namespace Build

def sourceEnding : String := "vm"

def outputEnding : String := "asm"

/-- Is this what a source file in a directory is called? -/
def isSourceName (name : String) : Bool := (Path.splitName name).2 == some sourceEnding

/-- Names in the order of their characters. -/
def inOrder (names : List String) : List String :=
  names.mergeSort fun a b => decide (a ≤ b)

variable {m : Type → Type} [Monad m] [FileSystem m]

/-- Is there a source file of this name in a directory? -/
def isSource (directory : Path) (name : String) : ExceptT BuildError m Bool := do
  let kind ← (FileSystem.kind (directory.child name) : m _)
  return kind == some .file && isSourceName name

def collect (input : Path) : ExceptT BuildError m (List Path) := do
  let kind ← (FileSystem.kind input : m _)
  if kind = some .directory then
    match ← (FileSystem.entries input : m _) with
    | .error reason => throw (.unreadable input reason)
    | .ok names =>
      let sources := inOrder (← names.filterM (isSource input))
      if sources.isEmpty then throw (.noSources input)
      else return sources.map input.child
  else if input.extension? = some sourceEnding then
    if kind.isNone then throw (.unreadable input .noSource)
    else return [input]
  else throw (.invalidInput input)

/-- Read one source file. It goes by the name at the end of its path. -/
def readSource (path : Path) : ExceptT BuildError m Source := do
  match ← (FileSystem.read path : m _) with
  | .error reason => throw (.unreadable path reason)
  | .ok text => return ⟨path.fileName?.getD path.text, text⟩

def translate (config : Config) (input : Path) : ExceptT BuildError m Artifact := do
  let paths ← collect input
  let sources ← paths.mapM readSource
  let kind ← (FileSystem.kind input : m _)
  match Program.translate config (config.bootstrap.applies (kind = some .directory)) sources with
  | .error fault => throw (.source fault)
  | .ok instructions => return ⟨instructions, sources.map Source.name⟩

def store (artifact : Artifact) (output : Path) : ExceptT BuildError m Unit := do
  match ← (FileSystem.write output (render artifact.instructions) : m _) with
  | .error reason => throw (.unwritable output reason)
  | .ok () => return ()

/-- Where the output goes unless the user says so: beside a source file,
or into a directory, under its name. -/
def defaultOutput (input : Path) : m Path := do
  match ← FileSystem.kind input with
  | some .directory =>
    let resolved : Option String :=
      match ← FileSystem.locate input with
      | .ok found => found.place.getLast?
      | .error _ => none
    let name := (resolved <|> input.fileName?).getD "out"
    return input.child (Path.rename name outputEnding)
  | _ => return input.withExtension outputEnding

def run (config : Config) (input output : Path) : ExceptT BuildError m Artifact := do
  let artifact ← translate config input
  store artifact output
  return artifact

end Build

end HackVm
