/-!
# Named cells of the memory

The assembler predefines symbols for the low cells of the memory. The
stack machine keeps its stack pointer and its four segment bases in the
first five of them, and uses two more as scratch while it returns from a
function.
-/

namespace HackVm

inductive Register where
  /-- The address of the first free cell above the stack. -/
  | sp
  /-- The base of the running function's variables. -/
  | lcl
  /-- The base of the running function's arguments. -/
  | arg
  /-- The base of the first window on the heap. -/
  | this
  /-- The base of the second window on the heap. -/
  | that
  /-- Scratch: the frame that a return walks back. -/
  | frame
  /-- Scratch: where a return goes. -/
  | link
deriving DecidableEq

namespace Register

def symbol : Register → String
  | sp => "SP"
  | lcl => "LCL"
  | arg => "ARG"
  | this => "THIS"
  | that => "THAT"
  | frame => "R13"
  | link => "R14"

def address : Register → Nat
  | sp => 0
  | lcl => 1
  | arg => 2
  | this => 3
  | that => 4
  | frame => 13
  | link => 14

end Register

end HackVm
