/-!
# Commands of the stack machine

A program of the stack machine is a list of commands, one to a source
line. Each command carries exactly the operands that its source form
asks for; numbers are machine words of 16 bits.

`Command.text` writes a command the way a source line spells it.
-/

namespace HackVm

/-- The address spaces that `push` and `pop` name. -/
inductive Segment where
  /-- The index itself, backed by no memory. -/
  | constant
  /-- The variables of the running function. -/
  | locals
  /-- The arguments of the running function. -/
  | arguments
  /-- A window on the heap, held in the first pointer. -/
  | this
  /-- A window on the heap, held in the second pointer. -/
  | that
  /-- A fixed window of scratch cells. -/
  | temp
  /-- The two pointers that hold the windows on the heap. -/
  | pointer
  /-- Cells that belong to one source file. -/
  | static
  /-- Cells counted from the stack pointer. -/
  | sp
deriving DecidableEq

namespace Segment

def all : List Segment :=
  [constant, locals, arguments, this, that, temp, pointer, static, sp]

def keyword : Segment → String
  | constant => "constant"
  | locals => "local"
  | arguments => "argument"
  | this => "this"
  | that => "that"
  | temp => "temp"
  | pointer => "pointer"
  | static => "static"
  | sp => "sp"

def ofKeyword? (word : String) : Option Segment :=
  all.find? (·.keyword == word)

theorem ofKeyword?_keyword (s : Segment) : ofKeyword? s.keyword = some s := by
  cases s <;> decide

end Segment

/-- The operations on the top of the stack, `y`, and the value below it, `x`. -/
inductive Operation where
  | add | sub | neg | eq | gt | lt | and | or | not
deriving DecidableEq

namespace Operation

def all : List Operation := [add, sub, neg, eq, gt, lt, and, or, not]

def keyword : Operation → String
  | add => "add"
  | sub => "sub"
  | neg => "neg"
  | eq => "eq"
  | gt => "gt"
  | lt => "lt"
  | and => "and"
  | or => "or"
  | not => "not"

def ofKeyword? (word : String) : Option Operation :=
  all.find? (·.keyword == word)

/-- Does the operation use `y` alone? -/
def isUnary : Operation → Bool
  | neg | not => true
  | _ => false

/-- Does the operation answer true or false? -/
def isComparison : Operation → Bool
  | eq | gt | lt => true
  | _ => false

theorem ofKeyword?_keyword (op : Operation) : ofKeyword? op.keyword = some op := by
  cases op <;> decide

end Operation

inductive Command where
  | push (segment : Segment) (index : UInt16)
  | pop (segment : Segment) (index : UInt16)
  | operate (op : Operation)
  | label (name : String)
  | goto (name : String)
  /-- Take the top of the stack and jump unless it is zero. -/
  | ifGoto (name : String)
  /-- The entry of a function with `locals` variables. -/
  | function (name : String) (locals : UInt16)
  /-- A call that hands over the top `args` values. -/
  | call (name : String) (args : UInt16)
  | ret
deriving DecidableEq

namespace Command

def text : Command → String
  | push segment index => "push " ++ segment.keyword ++ " " ++ toString index.toNat
  | pop segment index => "pop " ++ segment.keyword ++ " " ++ toString index.toNat
  | operate op => op.keyword
  | label name => "label " ++ name
  | goto name => "goto " ++ name
  | ifGoto name => "if-goto " ++ name
  | function name locals => "function " ++ name ++ " " ++ toString locals.toNat
  | call name args => "call " ++ name ++ " " ++ toString args.toNat
  | ret => "return"

/-- Does the command answer true or false? -/
def isComparison : Command → Bool
  | operate op => op.isComparison
  | _ => false

def isCall : Command → Bool
  | call _ _ => true
  | _ => false

end Command

end HackVm
