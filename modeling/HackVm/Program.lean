import HackVm.Config
import HackVm.Generator

/-!
# Programs

A program is a list of source files, translated in order into one list of
instructions, with or without the bootstrap in front. A file is read only
when all files before it have been translated, so the fault that is
reported is the first in the order of the program.
-/

namespace HackVm

/-- A source file in memory. -/
structure Source where
  name : String
  text : String
deriving DecidableEq

/-- A fault, with the file that it lies in. -/
structure SourceFault where
  file : String
  text : String
  fault : Fault
deriving DecidableEq

namespace Source

/-- A fault in this source. -/
def blame (s : Source) (fault : Fault) : SourceFault := ⟨s.name, s.text, fault⟩

/-- The commands of a source. -/
def commands (s : Source) : Except SourceFault (List (Located Command)) :=
  (parse s.text).mapError s.blame

end Source

namespace Program

/-- A fault in the bootstrap, which no file holds. -/
def blameBootstrap (fault : Fault) : SourceFault := ⟨"<bootstrap>", "", fault⟩

/-- The code of one source, and the generator to go on with. -/
def source (g : Generator) (s : Source) : Except SourceFault (List Instruction × Generator) := do
  let commands ← s.commands
  match (g.setFile s.name).translateAll commands with
  | (.ok code, g₁) => .ok (code, g₁)
  | (.error fault, _) => .error (s.blame fault)

/-- The code of a list of sources. -/
def sources (g : Generator) : List Source → Except SourceFault (List Instruction)
  | [] => .ok []
  | s :: rest => do
    let (code, g₁) ← source g s
    let more ← sources g₁ rest
    return code ++ more

/-- The code of a whole program. -/
def translate (config : Config) (withBootstrap : Bool) (files : List Source) :
    Except SourceFault (List Instruction) :=
  let g : Generator := { comments := config.comments }
  if withBootstrap then
    match g.bootstrap config.entry with
    | (.error fault, _) => .error (blameBootstrap fault)
    | (.ok start, g₁) => (sources g₁ files).map (start ++ ·)
  else sources g files

end Program

end HackVm
