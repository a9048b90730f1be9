import HackVm.Hack.Instruction
import HackVm.Hack.Register

/-!
# Moves on the stack

The short instruction rows that all other code is built from. The stack
grows upward, and `SP` holds the address of the first free cell above it.
-/

namespace HackVm.Code

def loadRegister (r : Register) : Instruction := .loadSymbol r.symbol

def lowerSp : List Instruction := [loadRegister .sp, .assign .m .mMinusOne]

def raiseSp : List Instruction := [loadRegister .sp, .assign .m .mPlusOne]

/-- Point `A` at the cell that the stack pointer names. -/
def atSp : List Instruction := [loadRegister .sp, .assign .a .m]

/-- Move the top of the stack to `D`. -/
def popD : List Instruction := lowerSp ++ atSp ++ [.assign .d .m]

/-- Put `D` on the stack. -/
def pushD : List Instruction := atSp ++ [.assign .m .d] ++ raiseSp

/-- Move the top of the stack to `D` and point `A` and the stack pointer
at the value below it, so that a result can take its place. -/
def popDAtNext : List Instruction := popD ++ lowerSp ++ atSp

def storeD (r : Register) : List Instruction := [loadRegister r, .assign .m .d]

def fetchD (r : Register) : List Instruction := [loadRegister r, .assign .d .m]

def loadD (value : UInt16) : List Instruction := [.load value, .assign .d .a]

def goto (name : String) : List Instruction := [.loadSymbol name, .jumpIf .zero .jmp]

end HackVm.Code
