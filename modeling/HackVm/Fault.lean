import HackVm.Token
import HackVm.Command
import HackVm.Escaped

/-!
# Faults

Everything that can be wrong with a program is one `Cause`: a constructor
that names the mistake and keeps what a message has to quote. Code,
message and hint are read off the cause here and nowhere else.

A `Fault` is a cause at a place. `Fault.diagnostic` words it, and a
`Diagnostic` is what a report prints (`HackVm.Report`).
-/

namespace HackVm

/-- The published number of a kind of mistake. The first digit tells the
stage: 0 for the text itself, 1 for the form of a line, 2 for what a
well-formed command asks of the machine. -/
inductive ErrorCode where
  | invalidCharacter
  | integerTooLarge
  | unknownCommand
  | unknownSegment
  | missingOperand
  | unexpectedOperand
  | expectedInteger
  | invalidSymbol
  | invalidPointerIndex
  | tempIndexOutOfRange
  | cannotPopConstant
  | constantOutOfRange
  | missingFileName
  | misplacedBootstrap
  | invalidFileName
  | invalidEntryName
deriving DecidableEq

namespace ErrorCode

def text : ErrorCode → String
  | invalidCharacter => "E001"
  | integerTooLarge => "E020"
  | unknownCommand => "E100"
  | unknownSegment => "E101"
  | missingOperand => "E102"
  | unexpectedOperand => "E103"
  | expectedInteger => "E104"
  | invalidSymbol => "E105"
  | invalidPointerIndex => "E200"
  | tempIndexOutOfRange => "E201"
  | cannotPopConstant => "E202"
  | constantOutOfRange => "E203"
  | missingFileName => "E204"
  | misplacedBootstrap => "E205"
  | invalidFileName => "E206"
  | invalidEntryName => "E207"

end ErrorCode

/-- A mistake, with what its message quotes. -/
inductive Cause where
  /-- No token begins with this character. -/
  | strayCharacter (c : Char)
  /-- A run of digits too large for any number of the language. -/
  | literalTooLarge (digits : String)
  /-- A line begins with something other than a word. -/
  | notACommand (found : Token)
  | unknownCommand (word : String)
  | unknownSegment (found : Token)
  /-- The line ends where `what` should follow `after`. -/
  | missingOperand (what after : String)
  /-- The line goes on where the command `after` is complete. -/
  | unexpectedOperand (found : Token) (after : String)
  | expectedInteger (what after : String) (found : Token)
  /-- A number that is no machine word. -/
  | wideInteger (value : UInt32)
  | invalidName (name : String)
  | expectedName (after : String) (found : Token)
  /-- A source line that pops into the constants. -/
  | popConstant (index : UInt16)
  | pointerIndex (index : UInt16) (command : Command)
  | tempIndex (index : UInt16) (command : Command)
  /-- A command that pops into the constants, however it came about. -/
  | constantTarget (command : Command)
  | valueTooLarge (value : UInt16) (command : Command)
  | tooManyArguments (command : Command)
  | missingFileName (command : Command)
  | invalidFileName (file : String) (command : Command)
  | misplacedBootstrap
  | invalidEntry (name : String)
deriving DecidableEq

namespace Cause

/-- Every word that can begin a command. -/
def commandWords : String :=
  "push, pop, add, sub, neg, eq, gt, lt, and, or, not, " ++
  "label, goto, if-goto, function, call, return"

def segmentWords : String :=
  "constant, local, argument, this, that, temp, pointer, static, sp"

def code : Cause → ErrorCode
  | strayCharacter _ => .invalidCharacter
  | literalTooLarge _ => .integerTooLarge
  | notACommand _ => .unknownCommand
  | unknownCommand _ => .unknownCommand
  | unknownSegment _ => .unknownSegment
  | missingOperand _ _ => .missingOperand
  | unexpectedOperand _ _ => .unexpectedOperand
  | expectedInteger _ _ _ => .expectedInteger
  | wideInteger _ => .integerTooLarge
  | invalidName _ => .invalidSymbol
  | expectedName _ _ => .invalidSymbol
  | popConstant _ => .cannotPopConstant
  | pointerIndex _ _ => .invalidPointerIndex
  | tempIndex _ _ => .tempIndexOutOfRange
  | constantTarget _ => .cannotPopConstant
  | valueTooLarge _ _ => .constantOutOfRange
  | tooManyArguments _ => .constantOutOfRange
  | missingFileName _ => .missingFileName
  | invalidFileName _ _ => .invalidFileName
  | misplacedBootstrap => .misplacedBootstrap
  | invalidEntry _ => .invalidEntryName

def message : Cause → String
  | strayCharacter c => "Invalid character '" ++ escaped c ++ "'"
  | literalTooLarge digits => "Integer literal '" ++ digits ++ "' is too large"
  | notACommand found => "Expected a command, found " ++ found.text
  | unknownCommand word => "Unknown command '" ++ word ++ "'"
  | unknownSegment found => "Unknown segment " ++ found.text
  | missingOperand what after => "Expected " ++ what ++ " after '" ++ after ++ "'"
  | unexpectedOperand found after =>
      "Unexpected operand " ++ found.text ++ " after '" ++ after ++ "'"
  | expectedInteger what after found =>
      "Expected " ++ what ++ " after '" ++ after ++ "', found " ++ found.text
  | wideInteger value => "Integer " ++ toString value.toNat ++ " does not fit in 16 bits"
  | invalidName name => "Invalid name '" ++ name ++ "'"
  | expectedName after found =>
      "Expected a name after '" ++ after ++ "', found " ++ found.text
  | popConstant index =>
      "Cannot pop into the constant segment ('pop constant " ++ toString index.toNat ++ "')"
  | pointerIndex index command =>
      "Invalid pointer index " ++ toString index.toNat ++ " in '" ++ command.text ++ "'"
  | tempIndex index command =>
      "Temp index " ++ toString index.toNat ++ " is out of range in '" ++ command.text ++ "'"
  | constantTarget command =>
      "Cannot pop into the constant segment ('" ++ command.text ++ "')"
  | valueTooLarge value command =>
      "Value " ++ toString value.toNat ++ " in '" ++ command.text ++
      "' exceeds the largest loadable constant 32767"
  | tooManyArguments command =>
      "Too many arguments in '" ++ command.text ++ "': at most 32762 are supported"
  | missingFileName command =>
      "Cannot resolve '" ++ command.text ++ "' without a current file name"
  | invalidFileName file command =>
      "File name '" ++ file ++ "' cannot qualify the static in '" ++ command.text ++ "'"
  | misplacedBootstrap => "The bootstrap must be emitted once, before any command"
  | invalidEntry name => "Invalid entry function name '" ++ name ++ "'"

def hint : Cause → Option String
  | strayCharacter _ => some "comments start with '//'"
  | notACommand _ => some ("valid commands are: " ++ commandWords)
  | unknownCommand _ => some ("valid commands are: " ++ commandWords)
  | unknownSegment _ => some ("valid segments are: " ++ segmentWords)
  | invalidName _ => some "names may contain letters, digits, '_', '.', '$' and ':'"
  | expectedName _ _ => some "names must not start with a digit"
  | popConstant _ => some "use 'pop temp 0' to discard the top of the stack"
  | pointerIndex _ _ => some "pointer only accepts 0 (THIS) or 1 (THAT)"
  | tempIndex _ _ => some "temp covers RAM[5..=15], so the index must be 0..=10"
  | invalidFileName _ _ =>
      some ("statics are named after their file, so the file name must not start " ++
        "with a digit and may only contain letters, digits, '_', '.', '$' and ':'")
  | invalidEntry _ => some "pass a function name such as 'Sys.init' to --entry"
  | _ => none

end Cause

/-- A mistake and where it was made. -/
structure Fault where
  cause : Cause
  span : Span
deriving DecidableEq

/-- What a report says about a mistake. -/
structure Diagnostic where
  code : ErrorCode
  message : String
  span : Span
  hint : Option String
deriving DecidableEq

namespace Diagnostic

/-- The mistake in one line, without its place. -/
def headline (d : Diagnostic) : String := "[" ++ d.code.text ++ "] " ++ d.message

end Diagnostic

/-- A fault in words. -/
def Fault.diagnostic (f : Fault) : Diagnostic :=
  ⟨f.cause.code, f.cause.message, f.span, f.cause.hint⟩

end HackVm
