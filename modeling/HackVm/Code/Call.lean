import HackVm.Code.Stack

/-!
# Functions and calls

A call leaves a frame on the stack, between the arguments it hands over
and the variables of the function it enters:

```
ARG  ->  argument 0
         ...
         argument n-1
         where to go back to
         the caller's LCL
         the caller's ARG
         the caller's THIS
         the caller's THAT
LCL  ->  variable 0
```

A return puts its result where argument 0 was, or would have been, and
walks the frame back from `LCL`. It keeps the frame and the place to go
back to in the two scratch registers, because the result may overwrite
that part of the frame.
-/

namespace HackVm.Code

/-- The number of cells in a frame. -/
def frameSize : UInt16 := 5

/-- The registers that a call saves, in the order it pushes them. -/
def savedRegisters : List Register := [.lcl, .arg, .this, .that]

/-- The entry of a function: its label, and a zero for each variable. -/
def function (name : String) (locals : UInt16) : List Instruction :=
  .label name :: (List.replicate locals.toNat (loadD 0 ++ pushD)).flatten

/-- Push where to go back to and the saved registers. -/
def pushFrame (back : String) : List Instruction :=
  [.loadSymbol back, .assign .d .a] ++ pushD ++
  savedRegisters.flatMap fun r => fetchD r ++ pushD

/-- Call a function with `args` values from the stack; `back` is the label
behind the call. -/
def call (name : String) (args : UInt16) (back : String) : List Instruction :=
  pushFrame back ++
  fetchD .sp ++ [.load (args + frameSize), .assign .d .dMinusA] ++ storeD .arg ++
  fetchD .sp ++ storeD .lcl ++
  goto name ++ [.label back]

/-- Step the frame down and copy what it names to a register. -/
def restore (r : Register) : List Instruction :=
  [loadRegister .frame, .assign .am .mMinusOne, .assign .d .m] ++ storeD r

/-- Return from a function with the top of the stack as its result. -/
def ret : List Instruction :=
  fetchD .lcl ++ storeD .frame ++
  [.load frameSize, .assign .a .dMinusA, .assign .d .m] ++ storeD .link ++
  popD ++ [loadRegister .arg, .assign .a .m, .assign .m .d] ++
  [loadRegister .arg, .assign .d .mPlusOne] ++ storeD .sp ++
  savedRegisters.reverse.flatMap restore ++
  [loadRegister .link, .assign .a .m, .jumpIf .zero .jmp]

end HackVm.Code
