import HackVm.Symbol
import HackVm.Fault
import HackVm.Code.Stack

/-!
# Cells of the segments

`Cell.resolve` says where an index of a segment lies: it is a number
itself, or a cell a fixed way behind a base register, or a cell with a
fixed address. An index that has no such place is refused; it is never
clamped.

Static cells are symbols made of the file's name and the index, so each
file has its own. They need a file whose name is fit to be a symbol.
-/

namespace HackVm

inductive Cell where
  /-- Not a cell: the value itself. -/
  | value (n : UInt16)
  /-- The cell `offset` behind the one that the base register names. -/
  | behind (base : Register) (offset : UInt16)
  /-- The cell at a fixed address. -/
  | fixed (address : Address)
deriving DecidableEq

namespace Cell

/-- The first cell of the scratch window. -/
def tempBase : Nat := 5

/-- The last cell of the scratch window. -/
def tempLast : Nat := 15

/-- The greatest number that an address instruction can load. -/
def largestLiteral : Nat := 32767

/-- The symbol of a static cell. -/
def staticSymbol (file : String) (index : UInt16) : String :=
  file ++ "." ++ toString index.toNat

/-- A number that an address instruction can load. -/
def literal (value : UInt16) (context : Command) : Except Cause UInt16 :=
  if value.toNat ≤ largestLiteral then .ok value else .error (.valueTooLarge value context)

/-- Where an index of a segment lies, for a command in the named file. -/
def resolve (file : String) (segment : Segment) (index : UInt16) (context : Command) :
    Except Cause Cell :=
  match segment with
  | .constant => (literal index context).map value
  | .locals => (literal index context).map (behind .lcl)
  | .arguments => (literal index context).map (behind .arg)
  | .this => (literal index context).map (behind .this)
  | .that => (literal index context).map (behind .that)
  | .sp => (literal index context).map (behind .sp)
  | .temp =>
    if tempBase + index.toNat ≤ tempLast then
      .ok (fixed (.constant (UInt16.ofNat (tempBase + index.toNat))))
    else .error (.tempIndex index context)
  | .pointer =>
    if index = 0 then .ok (fixed (.symbol Register.this.symbol))
    else if index = 1 then .ok (fixed (.symbol Register.that.symbol))
    else .error (.pointerIndex index context)
  | .static =>
    if file.isEmpty then .error (.missingFileName context)
    else if isSymbol file then .ok (fixed (.symbol (staticSymbol file index)))
    else .error (.invalidFileName file context)

end Cell

namespace Code

/-- Put the value of a cell on the stack. -/
def push : Cell → List Instruction
  | .value n => loadD n ++ pushD
  | .behind base offset =>
    fetchD base ++ [.load offset, .assign .a .dPlusA, .assign .d .m] ++ pushD
  | .fixed address => [.address address, .assign .d .m] ++ pushD

/-- Move the top of the stack into a cell. Behind a base register, `D`
holds first the cell's address, then that plus the value; taking either
off the sum gives the other, so no scratch cell is needed. A number is no
cell to move anything into. -/
def pop (context : Command) : Cell → Except Cause (List Instruction)
  | .value _ => .error (.constantTarget context)
  | .behind base offset =>
    .ok (fetchD base ++ [.load offset, .assign .d .dPlusA] ++ lowerSp ++ atSp ++
      [.assign .d .dPlusM, .assign .a .dMinusM, .assign .m .dMinusA])
  | .fixed address => .ok (popD ++ [.address address, .assign .m .d])

end Code

end HackVm
