import HackVm.Label
import HackVm.Code.Cell
import HackVm.Code.Operation
import HackVm.Code.Call

/-!
# The code of a command

Each command becomes one block of instructions. A block depends on the
command, on the name of its file, on the numbers of the labels it may
take, and on whether it is to begin with a comment that repeats the
command. Nothing else of the program reaches it.
-/

namespace HackVm

namespace Code

/-- The most values that a call can hand over: the way from the end of a
frame to the first argument must be a number that can be loaded. -/
def mostArguments : Nat := Cell.largestLiteral - frameSize.toNat

/-- Take the top of the stack and go to a label unless it is zero. -/
def ifGoto (name : String) : List Instruction :=
  popD ++ [.loadSymbol name, .jumpIf .d .jne]

/-- The instructions of a command, in the named file and with the next
labels of each family. -/
def ofCommand (file : String) (labels : Labels) (c : Command) :
    Except Cause (List Instruction) :=
  match c with
  | .push segment index => (Cell.resolve file segment index c).map push
  | .pop segment index => (Cell.resolve file segment index c).bind (pop c)
  | .operate op => .ok (operate labels.takeComparison.1 op)
  | .label name => .ok [.label name]
  | .goto name => .ok (goto name)
  | .ifGoto name => .ok (ifGoto name)
  | .function name locals => .ok (function name locals)
  | .call name args =>
    if args.toNat ≤ mostArguments then .ok (call name args labels.takeCall.1)
    else .error (.tooManyArguments c)
  | .ret => .ok ret

/-- A comment line, where comments are wanted. -/
def remark (comments : Bool) (text : String) : List Instruction :=
  if comments then [.comment text] else []

/-- The block of a command. -/
def block (file : String) (comments : Bool) (labels : Labels) (c : Command) :
    Except Cause (List Instruction) :=
  (ofCommand file labels c).map (remark comments c.text ++ ·)

/-! ## The bootstrap -/

/-- Where the stack begins. -/
def stackBase : UInt16 := 256

/-- What the bootstrap of a program does once the stack is set up. -/
def entryCall (entry : String) : Command := .call entry 0

/-- Set up the stack and call the entry function, with the next label for
a call. -/
def bootstrap (comments : Bool) (labels : Labels) (entry : String) : List Instruction :=
  remark comments "bootstrap" ++ loadD stackBase ++ storeD .sp ++
  remark comments (entryCall entry).text ++ call entry 0 labels.takeCall.1

end Code

end HackVm
