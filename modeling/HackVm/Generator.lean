import HackVm.Code.Block
import HackVm.Reader

/-!
# Generators

A generator makes the code of one program, command after command and file
after file. It remembers what must run on through the program: the labels
in use, the file at hand, whether comments are wanted, whether anything
has been asked of it yet, and how many commands it has translated.

Every operation answers its instructions or a fault, together with the
generator to go on with. A command that fails takes no label and is not
counted.
-/

namespace HackVm

structure Generator where
  labels : Labels := {}
  /-- The base name of the file at hand, which qualifies its static cells. -/
  file : String := ""
  comments : Bool := true
  /-- Has the bootstrap been made, or any command tried? -/
  started : Bool := false
  /-- The number of commands translated. -/
  translated : Nat := 0
deriving DecidableEq

/-- The part of a file's name that its static cells carry: what follows
the last slash or backslash, without the ending `.vm`. -/
def baseName (name : String) : String :=
  match name.toList.reverse.takeWhile fun c => c != '/' && c != '\\' with
  | 'm' :: 'v' :: '.' :: stem => String.ofList stem.reverse
  | whole => String.ofList whole.reverse

namespace Generator

/-- Go on with the commands of another file. -/
def setFile (g : Generator) (name : String) : Generator :=
  { g with file := baseName name }

/-- Ask for comments, or for none. -/
def withComments (g : Generator) (wanted : Bool) : Generator :=
  { g with comments := wanted }

/-- The generator once a command has been translated. -/
def after (g : Generator) (c : Command) : Generator :=
  { g with
    labels := g.labels.after c
    started := true
    translated := g.translated + 1 }

/-- Translate one command. -/
def translate (g : Generator) (c : Located Command) :
    Except Fault (List Instruction) × Generator :=
  match Code.block g.file g.comments g.labels c.node with
  | .ok code => (.ok code, g.after c.node)
  | .error cause => (.error ⟨cause, c.span⟩, { g with started := true })

/-- Translate a row of commands up to the first that fails. A failure
takes the place of all the code, but the commands before it count as
translated. -/
def translateAll (g : Generator) :
    List (Located Command) → Except Fault (List Instruction) × Generator
  | [] => (.ok [], g)
  | c :: rest =>
    match g.translate c with
    | (.error fault, g₁) => (.error fault, g₁)
    | (.ok code, g₁) =>
      match g₁.translateAll rest with
      | (.error fault, g₂) => (.error fault, g₂)
      | (.ok more, g₂) => (.ok (code ++ more), g₂)

/-- Make the bootstrap. It comes once, before everything else, and needs
an entry function whose name is a symbol. -/
def bootstrap (g : Generator) (entry : String) :
    Except Fault (List Instruction) × Generator :=
  if g.started then (.error ⟨.misplacedBootstrap, .nowhere⟩, g)
  else if isSymbol entry then
    (.ok (Code.bootstrap g.comments g.labels entry),
      { g with labels := g.labels.takeCall.2, started := true })
  else (.error ⟨.invalidEntry entry, .nowhere⟩, g)

/-- Where an index of a segment lies for the file at hand. Faults are
those of the command that asks. -/
def resolve (g : Generator) (segment : Segment) (index : UInt16) (context : Located Command) :
    Except Fault Cell :=
  (Cell.resolve g.file segment index context.node).mapError (⟨·, context.span⟩)

end Generator

/-- The code of one file alone, with comments and without a bootstrap. -/
def translate (source : String) (file : String) : Except Fault (List Instruction) := do
  let commands ← parse source
  (({} : Generator).setFile file |>.translateAll commands).1

end HackVm
