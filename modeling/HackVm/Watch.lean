import HackVm.Build

/-!
# Watched directories

To notice every change of its inputs, a program watches directories: the
directory that an input names, or the one that holds a file. Editors
replace a file instead of changing it, and new source files may appear,
so watching the files themselves would not do.
-/

namespace HackVm.Watch

variable {m : Type → Type} [Monad m] [FileSystem m]

/-- The directory to watch for what a path leads to: the directory itself,
or the one that holds what is there. Nothing holds the root. -/
def directoryOf (found : Found) : Option Place :=
  if found.kind = .directory then some found.place
  else if found.place = [] then none
  else some found.place.dropLast

/-- The directory to watch for an input. -/
def directory (input : Path) : ExceptT BuildError m (Option Place) := do
  match ← (FileSystem.locate input : m _) with
  | .error reason => throw (.unwatchable input reason)
  | .ok found => return directoryOf found

/-- The directories to watch for all inputs, each once, in the order in
which they come up. -/
def directories (inputs : List Path) : ExceptT BuildError m (List Place) := do
  let places ← inputs.mapM directory
  return (places.filterMap id).eraseDups

end HackVm.Watch
