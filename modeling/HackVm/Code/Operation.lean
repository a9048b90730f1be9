import HackVm.Command
import HackVm.Code.Stack

/-!
# Operations on the stack

Binary operations leave their result where `x` was, unary ones where `y`
was. A comparison answers with all bits set for true and with 0 for
false. It first writes true and jumps over the code that writes false if
the difference `x - y`, taken as a machine word, has the right sign.
-/

namespace HackVm.Code

/-- Put the result of an expression in `D` (for `y`) and `M` (for `x`) in
place of both values. -/
def binary (comp : Comp) : List Instruction :=
  popDAtNext ++ [.assign .m comp] ++ raiseSp

/-- Put the result of an expression in `M` in place of the top value. -/
def unary (comp : Comp) : List Instruction :=
  lowerSp ++ atSp ++ [.assign .m comp] ++ raiseSp

/-- Replace both values by the truth of a condition on `x - y`. The label
`done` marks the end. -/
def compare (jump : Jump) (done : String) : List Instruction :=
  popDAtNext ++ [.assign .d .mMinusD] ++ atSp ++
  [.assign .m .minusOne, .loadSymbol done, .jumpIf .d jump] ++ atSp ++
  [.assign .m .zero, .label done] ++ raiseSp

/-- The code of an operation; a comparison uses the label `done`. -/
def operate (done : String) : Operation → List Instruction
  | .add => binary .dPlusM
  | .sub => binary .mMinusD
  | .and => binary .dAndM
  | .or => binary .dOrM
  | .neg => unary .negM
  | .not => unary .notM
  | .eq => compare .jeq done
  | .gt => compare .jgt done
  | .lt => compare .jlt done

end HackVm.Code
