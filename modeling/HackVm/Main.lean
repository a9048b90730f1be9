import HackVm.CommandLine
import HackVm.Watch

/-!
# The program

The outermost layer: builds on the machine's own files, the standard
streams, and the wait for changes. Everything it shows and decides comes
from `HackVm.CommandLine`, `HackVm.Build` and `HackVm.Watch`.
-/

namespace HackVm.Main

/-- A path as the system's own calls take it. -/
def onDisk (p : Path) := (IO.FS.DirEntry.mk p.text "").root

def reasonOf : IO.Error → IoError
  | .noFileOrDirectory _ _ _ => .notFound
  | .inappropriateType _ code details =>
    if code = 20 then .notDirectory else if code = 21 then .isDirectory else .other details
  | .invalidArgument _ code details => if code = 36 then .nameTooLong else .other details
  | e => .other (toString e)

/-- The answer of a call of the system, or why there is none. -/
def attempt {α : Type} (call : IO α) : IO (Except IoError α) := do
  try return .ok (← call)
  catch e => return .error (reasonOf e)

def kindOf : IO.FS.FileType → FileKind
  | .file => .file
  | .dir => .directory
  | _ => .other

def kindAt (p : Path) : IO (Option FileKind) := do
  match ← attempt (onDisk p).metadata with
  | .ok found => return some (kindOf found.type)
  | .error _ => return none

instance : FileSystem IO where
  kind := kindAt
  entries p := attempt do return (← (onDisk p).readDir).toList.map (·.fileName)
  read p := do
    match ← attempt (IO.FS.readBinFile (onDisk p)) with
    | .error reason => return .error reason
    | .ok bytes =>
      match String.fromUTF8? bytes with
      | some text => return .ok text
      | none => return .error .invalidText
  write p text := attempt (IO.FS.writeFile (onDisk p) text)
  locate p := attempt do
    let target : Path := ⟨(← IO.FS.realPath (onDisk p)).toString⟩
    return ⟨target.pieces.filter (· != ""), (← kindAt target).getD .other⟩

/-! ## Waiting for changes -/

/-- The source files in some directories, with the times of their last
changes. -/
def snapshot (directories : List Place) : IO (List (Path × IO.FS.SystemTime)) := do
  let mut found := []
  for directory in directories do
    match ← attempt (onDisk directory.path).readDir with
    | .error _ => continue
    | .ok entries =>
      for entry in entries do
        let path := directory.path.child entry.fileName
        if path.extension? = some Build.sourceEnding then
          match ← attempt (onDisk path).metadata with
          | .ok about => found := (path, about.modified) :: found
          | .error _ => continue
  return found

/-- Do two snapshots show the same files, unchanged? -/
def sameFiles (old new : List (Path × IO.FS.SystemTime)) : Bool :=
  old.length == new.length &&
  old.all fun (path, time) => new.any fun (path', time') => path == path' && time == time'

partial def waitForChange (directories : List Place) (old : List (Path × IO.FS.SystemTime)) :
    IO Unit := do
  IO.sleep 100
  if sameFiles old (← snapshot directories) then waitForChange directories old

/-- Print a text at once, even if the output is no terminal. -/
def say (text : String) : IO Unit := do
  IO.print text
  (← IO.getStdout).flush

/-- Show what comes of a run. The result is its exit code, if it ends. -/
def present (outcome : CommandLine.Outcome) : IO (Option UInt8) := do
  match outcome with
  | .exits _ stdout stderr | .watches stdout stderr =>
    say stdout
    IO.eprint stderr
  | .crashes => IO.eprint "the report cannot be made\n"
  return outcome.exitCode?

partial def watchLoop (o : CommandLine.Options) (output : Path) (directories : List Place) :
    IO UInt8 := do
  waitForChange directories (← snapshot directories)
  say "\nRe-translating...\n"
  match ← o.buildTo (m := IO) output with
  | .ok line => say (line ++ "Watching for changes...\n")
  | .error e =>
    match e.render? with
    | none => return (← present .crashes).getD 0
    | some report =>
      IO.eprint report
      say "Fix errors and save to retry.\n"
  watchLoop o output directories

def watch (o : CommandLine.Options) (output : Path) : IO UInt8 := do
  match ← (Watch.directories (m := IO) [o.input]).run with
  | .error e => return (← present ({ o with watch := false }.outcome (.error e))).getD 0
  | .ok directories =>
    say "\nWatching for changes... (Press Ctrl+C to stop)\n"
    watchLoop o output directories

/-- Build once, and go on watching if the run does not end there. -/
def build (o : CommandLine.Options) : IO UInt8 := do
  let output ← o.outputPath
  if o.verbose then
    IO.eprintln ("[DEBUG vmtrans] Input: " ++ o.input.text)
    IO.eprintln ("[DEBUG vmtrans] Output: " ++ output.text)
  match ← present (o.outcome (← o.buildTo (m := IO) output)) with
  | some code => return code
  | none => watch o output

end HackVm.Main

def main (args : List String) : IO UInt32 := do
  match HackVm.CommandLine.readArguments args with
  | .error outcome => return ((← HackVm.Main.present outcome).getD 0).toUInt32
  | .ok o => return (← HackVm.Main.build o).toUInt32
