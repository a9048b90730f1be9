import HackVm.Command

/-!
# Generated labels

A comparison needs a label behind its code, and a call needs one to come
back to. These labels are numbered, each family from 0, and the numbers
run on over all the files of a program, since the assembler has one table
of symbols for all of it.
-/

namespace HackVm

/-- How many labels of each family are in use. -/
structure Labels where
  comparisons : Nat := 0
  calls : Nat := 0
deriving DecidableEq

namespace Labels

/-- The label behind the comparison of a number. -/
def comparison (n : Nat) : String := "__CMP_DONE_" ++ toString n

/-- The label behind the call of a number. -/
def back (n : Nat) : String := "__RETURN_" ++ toString n

/-- Take the next label for a comparison. -/
def takeComparison (l : Labels) : String × Labels :=
  (comparison l.comparisons, { l with comparisons := l.comparisons + 1 })

/-- Take the next label for a call. -/
def takeCall (l : Labels) : String × Labels :=
  (back l.calls, { l with calls := l.calls + 1 })

/-- The labels in use once the code of a command has been made. -/
def after (l : Labels) (c : Command) : Labels :=
  if c.isComparison then l.takeComparison.2
  else if c.isCall then l.takeCall.2
  else l

end Labels

end HackVm
