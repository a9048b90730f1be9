import HackVm.Arguments
import HackVm.Build

/-!
# The command line

A run of the program reads its words, builds what they ask for, and shows
how that went. Words are read by a library, which answers the options or
ends the run by itself, with texts of its own; so the reader is a parameter
of a run, and `HackVm.Arguments` is one that can be used.

A report that cannot be made crashes the program. By then nothing has been
shown or stored.
-/

namespace HackVm.CommandLine

/-- What comes of a run of the program. -/
inductive Outcome where
  | exits (code : UInt8) (stdout stderr : String)
  /-- The run goes on watching its input. -/
  | watches (stdout stderr : String)
  /-- What it shows is up to the runtime. -/
  | crashes
deriving DecidableEq

/-- The exit code of a run that comes to an end. -/
def Outcome.exitCode? : Outcome → Option UInt8
  | exits code _ _ => some code
  | watches _ _ => none
  | crashes => some 101

/-- A reader of command lines. It may end the run on its own. -/
abbrev ArgumentReader := List String → Except Outcome Options

def Options.config (o : Options) : Config := ⟨o.entry, o.bootstrap, !o.noComments⟩

variable {m : Type → Type} [Monad m] [FileSystem m]

def Options.outputPath (o : Options) : m Path :=
  match o.output with
  | some path => return path
  | none => Build.defaultOutput o.input

/-- The line that reports a finished build. -/
def reportLine (artifact : Artifact) (output : Path) : String :=
  "Translated " ++ ", ".intercalate artifact.files ++ " -> " ++ output.text ++ "\n"

def Options.buildTo (o : Options) (output : Path) : m (Except BuildError String) := do
  match ← (Build.run o.config o.input output).run with
  | .ok artifact => return .ok (reportLine artifact output)
  | .error e => return .error e

/-- What comes of a run after its first build. Only an error that editing
the sources can mend lets it go on watching. -/
def Options.outcome (o : Options) : Except BuildError String → Outcome
  | .ok line => if o.watch then .watches line "" else .exits 0 line ""
  | .error e =>
    match e.render? with
    | none => .crashes
    | some report =>
      if o.watch && e.isSourceError then .watches "" report else .exits e.exitCode "" report

def run (read : ArgumentReader) (words : List String) : m Outcome := do
  match read words with
  | .error outcome => return outcome
  | .ok o => return o.outcome (← o.buildTo (← o.outputPath))

/-! ## A reader -/

def usageText : String := "Usage: vmtrans [OPTIONS] <INPUT>\n"

def versionText : String := "vmtrans 0.1.0\n"

/-- What a run shows that stops before any build. -/
def Stop.outcome : Stop → Outcome
  | usage => .exits 2 "" usageText
  | help => .exits 0 usageText ""
  | version => .exits 0 versionText ""

def readArguments : ArgumentReader := fun words => (parse words).mapError Stop.outcome

end HackVm.CommandLine
