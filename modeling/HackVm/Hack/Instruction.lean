/-!
# Hack assembly

The instructions of the 16-bit Hack computer, in the form its assembler
reads. The machine has two registers, `A` and `D`, and a memory; `M` is
the memory cell whose address is in `A`.

An instruction is one line of text. Address instructions load a number or
the value of a symbol into `A`; compute instructions evaluate one of 28
fixed expressions, store it in any of the three places, and may jump to
the slot that `A` names. Labels and comments take no slot of the program.
-/

namespace HackVm

/-- What an address instruction loads. -/
inductive Address where
  | constant (value : UInt16)
  /-- A name that the assembler gives a value. -/
  | symbol (name : String)
deriving DecidableEq

/-- The places that a compute instruction stores to. -/
inductive Dest where
  | m | d | md | a | am | ad | amd
deriving DecidableEq

/-- The expressions that the machine can compute. -/
inductive Comp where
  | zero | one | minusOne
  | d | a | m
  | notD | notA | notM
  | negD | negA | negM
  | dPlusOne | aPlusOne | mPlusOne
  | dMinusOne | aMinusOne | mMinusOne
  | dPlusA | dPlusM
  | dMinusA | dMinusM
  | aMinusD | mMinusD
  | dAndA | dAndM
  | dOrA | dOrM
deriving DecidableEq

/-- The conditions on a computed value under which the machine jumps. -/
inductive Jump where
  | jgt | jeq | jge | jlt | jne | jle | jmp
deriving DecidableEq

inductive Instruction where
  | comment (text : String)
  | address (target : Address)
  | compute (dest : Option Dest) (comp : Comp) (jump : Option Jump)
  /-- A name for the slot of the next executable instruction. -/
  | label (name : String)
deriving DecidableEq

/-! ## Destinations -/

namespace Dest

def all : List Dest := [m, d, md, a, am, ad, amd]

def mnemonic : Dest → String
  | m => "M"
  | d => "D"
  | md => "MD"
  | a => "A"
  | am => "AM"
  | ad => "AD"
  | amd => "AMD"

def writesA : Dest → Bool
  | a | am | ad | amd => true
  | _ => false

def writesD : Dest → Bool
  | d | md | ad | amd => true
  | _ => false

def writesM : Dest → Bool
  | m | md | am | amd => true
  | _ => false

def ofMnemonic? (s : String) : Option Dest := all.find? (·.mnemonic == s)

theorem ofMnemonic?_mnemonic (x : Dest) : ofMnemonic? x.mnemonic = some x := by
  cases x <;> decide

end Dest

/-! ## Computations -/

namespace Comp

def all : List Comp :=
  [zero, one, minusOne, d, a, m, notD, notA, notM, negD, negA, negM,
   dPlusOne, aPlusOne, mPlusOne, dMinusOne, aMinusOne, mMinusOne,
   dPlusA, dPlusM, dMinusA, dMinusM, aMinusD, mMinusD, dAndA, dAndM, dOrA, dOrM]

def mnemonic : Comp → String
  | zero => "0"
  | one => "1"
  | minusOne => "-1"
  | d => "D"
  | a => "A"
  | m => "M"
  | notD => "!D"
  | notA => "!A"
  | notM => "!M"
  | negD => "-D"
  | negA => "-A"
  | negM => "-M"
  | dPlusOne => "D+1"
  | aPlusOne => "A+1"
  | mPlusOne => "M+1"
  | dMinusOne => "D-1"
  | aMinusOne => "A-1"
  | mMinusOne => "M-1"
  | dPlusA => "D+A"
  | dPlusM => "D+M"
  | dMinusA => "D-A"
  | dMinusM => "D-M"
  | aMinusD => "A-D"
  | mMinusD => "M-D"
  | dAndA => "D&A"
  | dAndM => "D&M"
  | dOrA => "D|A"
  | dOrM => "D|M"

def ofMnemonic? (s : String) : Option Comp := all.find? (·.mnemonic == s)

theorem ofMnemonic?_mnemonic (x : Comp) : ofMnemonic? x.mnemonic = some x := by
  cases x <;> decide

end Comp

/-! ## Jumps -/

namespace Jump

def all : List Jump := [jgt, jeq, jge, jlt, jne, jle, jmp]

def mnemonic : Jump → String
  | jgt => "JGT"
  | jeq => "JEQ"
  | jge => "JGE"
  | jlt => "JLT"
  | jne => "JNE"
  | jle => "JLE"
  | jmp => "JMP"

/-- Does a computed value, read as a signed word, meet the condition? -/
def isTaken (j : Jump) (value : Int) : Bool :=
  match j with
  | jgt => 0 < value
  | jeq => value = 0
  | jge => 0 ≤ value
  | jlt => value < 0
  | jne => value ≠ 0
  | jle => value ≤ 0
  | jmp => true

def ofMnemonic? (s : String) : Option Jump := all.find? (·.mnemonic == s)

theorem ofMnemonic?_mnemonic (x : Jump) : ofMnemonic? x.mnemonic = some x := by
  cases x <;> decide

end Jump

/-! ## Instructions -/

def Address.text : Address → String
  | constant value => toString value.toNat
  | symbol name => name

namespace Instruction

/-- Load a number. -/
def load (value : UInt16) : Instruction := address (.constant value)

/-- Load the value of a symbol. -/
def loadSymbol (name : String) : Instruction := address (.symbol name)

def assign (dest : Dest) (comp : Comp) : Instruction := compute (some dest) comp none

def jumpIf (comp : Comp) (jump : Jump) : Instruction := compute none comp (some jump)

def isComment : Instruction → Bool
  | comment _ => true
  | _ => false

def isJump : Instruction → Bool
  | compute _ _ (some _) => true
  | _ => false

/-- Does the instruction take a slot of the program? -/
def isExecutable : Instruction → Bool
  | address _ | compute _ _ _ => true
  | _ => false

/-- The line of text that spells an instruction. -/
def text : Instruction → String
  | comment t => "// " ++ t
  | address target => "@" ++ target.text
  | compute dest comp jump =>
    (match dest with
      | some x => x.mnemonic ++ "="
      | none => "") ++
    comp.mnemonic ++
    (match jump with
      | some j => ";" ++ j.mnemonic
      | none => "")
  | label name => "(" ++ name ++ ")"

end Instruction

/-- The text of a program: one line to an instruction, each closed by a
line end. -/
def render (program : List Instruction) : String :=
  String.join (program.map fun i => i.text ++ "\n")

end HackVm
