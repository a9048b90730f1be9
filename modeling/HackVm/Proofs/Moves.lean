import HackVm.Code.Block
import HackVm.Proofs.Execution
import HackVm.Proofs.StackMachine

/-!
# What the short moves do

Every block is built from the moves of `HackVm.Code.Stack`. Each of them
is one operation of the stack machine on the memory, and leaves known
words in `A` and `D`; longer rows of moves are evaluated by rewriting with
these equations, without a look at single instructions.
-/

namespace HackVm

/-- Symbols of registers have the addresses of the registers. -/
def NamesRegisters (value : String → Word) : Prop := ∀ r : Register, value r.symbol = r.word

namespace Assembly

theorem namesRegisters_of_own {code : List Instruction}
    (hown : ∀ name ∈ labels code, predefined? name = none) : NamesRegisters (valueOf code) := by
  intro r
  have hr : r.symbol ∉ labels code := fun hmem => by
    have hnone := hown r.symbol hmem
    rw [predefined?_register] at hnone
    cases hnone
  rw [valueOf, slotOf?_eq_none hr, predefined?_register]

theorem Loadable.namesRegisters {code : List Instruction} (h : Loadable code) :
    NamesRegisters (valueOf code) :=
  namesRegisters_of_own h.own

end Assembly

def Address.word (value : String → Word) : Address → Word
  | constant n => n
  | symbol name => value name

/-- The address of a cell; a number has none. -/
def Cell.address? (value : String → Word) (m : Memory) : Cell → Option Word
  | .value _ => none
  | behind base offset => some (m.reg base + offset)
  | fixed address => some (address.word value)

namespace Code

open Assembly

section Moves

variable {value : String → Word} (hv : NamesRegisters value) (c : Core)

include hv

theorem exec_loadRegister (r : Register) :
    Instruction.exec value c (loadRegister r) = { c with a := r.word } := by
  rw [loadRegister, exec_loadSymbol, hv r]

theorem exec_lowerSp : exec value lowerSp c = ⟨Register.sp.word, c.d, c.ram.lower⟩ := by
  rw [lowerSp, exec_cons, exec_loadRegister hv]
  rfl

theorem exec_raiseSp : exec value raiseSp c = ⟨Register.sp.word, c.d, c.ram.raise⟩ := by
  rw [raiseSp, exec_cons, exec_loadRegister hv]
  rfl

theorem exec_atSp : exec value atSp c = ⟨c.ram.reg .sp, c.d, c.ram⟩ := by
  rw [atSp, exec_cons, exec_loadRegister hv]
  rfl

theorem exec_storeD (r : Register) :
    exec value (storeD r) c = ⟨r.word, c.d, c.ram.setReg r c.d⟩ := by
  rw [storeD, exec_cons, exec_loadRegister hv]
  rfl

theorem exec_fetchD (r : Register) :
    exec value (fetchD r) c = ⟨r.word, c.ram.reg r, c.ram⟩ := by
  rw [fetchD, exec_cons, exec_loadRegister hv]
  rfl

theorem exec_popD :
    exec value popD c = ⟨c.ram.lower.reg .sp, c.ram.lower.top, c.ram.lower⟩ := by
  rw [popD, exec_append, exec_append, exec_lowerSp hv, exec_atSp hv]
  rfl

theorem exec_pushD : exec value pushD c = ⟨Register.sp.word, c.d, c.ram.push c.d⟩ := by
  rw [pushD, exec_append, exec_append, exec_atSp hv, exec_raiseSp hv]
  rfl

theorem exec_popDAtNext :
    exec value popDAtNext c =
      ⟨c.ram.lower.lower.reg .sp, c.ram.lower.top, c.ram.lower.lower⟩ := by
  rw [popDAtNext, exec_append, exec_append, exec_popD hv, exec_lowerSp hv, exec_atSp hv]

omit hv in
theorem exec_loadD (n : Word) : exec value (loadD n) c = ⟨n, n, c.ram⟩ := rfl

/-! ## Cells -/

theorem exec_push {cell : Cell} {index : Word} (hvalue : ∀ n, cell = .value n → n = index) :
    (exec value (push cell) c).ram =
      c.ram.push (((cell.address? value c.ram).map c.ram).getD index) := by
  cases cell with
  | value n =>
    rw [push, exec_append, exec_loadD, exec_pushD hv, hvalue n rfl]
    rfl
  | behind base offset =>
    rw [push, exec_append, exec_append, exec_fetchD hv, exec_pushD hv]
    rfl
  | fixed address =>
    rw [push, exec_append, exec_pushD hv]
    cases address <;> rfl

/-- Both ends of the sum of address and value come off it exactly, also
when the sum wraps. -/
theorem exec_pop {context : Command} {cell : Cell} {block : List Instruction}
    (hblock : pop context cell = .ok block) :
    (exec value block c).ram =
      ((cell.address? value c.ram).map c.ram.popTo).getD c.ram := by
  cases cell with
  | value n => cases hblock
  | behind base offset =>
    obtain rfl := Except.ok.inj hblock
    have hval (t v : Word) : t + v - t = v := by
      rw [UInt16.add_comm, UInt16.add_sub_cancel]
    rw [exec_append, exec_append, exec_append, exec_append, exec_fetchD hv]
    simp only [exec_cons, exec_nil, exec_load, exec_assign, exec_lowerSp hv, exec_atSp hv]
    simp only [Core.value, Core.store, Comp.eval, Dest.writesA, Dest.writesD, Dest.writesM,
      Bool.false_eq_true, if_true, if_false]
    rw [UInt16.add_sub_cancel, hval]
    rfl
  | fixed address =>
    obtain rfl := Except.ok.inj hblock
    rw [exec_append, exec_popD hv]
    cases address <;> rfl

/-! ## Operations -/

theorem exec_unary {comp : Comp} {f : Word → Word} (hf : ∀ a d m, comp.eval a d m = f m) :
    (exec value (unary comp) c).ram = c.ram.unary f := by
  rw [unary, exec_append, exec_append, exec_append, exec_lowerSp hv, exec_atSp hv,
    exec_raiseSp hv, exec_cons, exec_nil, exec_assign, Core.value, hf]
  rfl

theorem exec_binary {comp : Comp} {f : Word → Word → Word}
    (hf : ∀ a d m, comp.eval a d m = f m d) :
    (exec value (binary comp) c).ram = c.ram.binary f := by
  rw [binary, exec_append, exec_append, exec_popDAtNext hv, exec_raiseSp hv, exec_cons,
    exec_nil, exec_assign, Core.value, hf]
  rfl

/-! ## Functions -/

theorem exec_function (name : String) (locals : UInt16) :
    (exec value (function name locals) c).ram = (Memory.push · 0)^[locals.toNat] c.ram := by
  rw [function, exec_cons, exec_label]
  induction locals.toNat generalizing c with
  | zero => rfl
  | succ n ih =>
    rw [List.replicate_succ, List.flatten_cons, exec_append, exec_append, exec_loadD,
      exec_pushD hv, ih, Function.iterate_succ_apply]

theorem exec_save (r : Register) :
    exec value (fetchD r ++ pushD) c = ⟨Register.sp.word, c.ram.reg r, c.ram.save r⟩ := by
  rw [exec_append, exec_fetchD hv, exec_pushD hv]
  rfl

theorem exec_saves (rs : List Register) :
    (exec value (rs.flatMap fun r => fetchD r ++ pushD) c).ram = rs.foldl Memory.save c.ram := by
  induction rs generalizing c with
  | nil => rfl
  | cons r rs ih => rw [List.flatMap_cons, exec_append, exec_save hv, ih, List.foldl_cons]

theorem exec_pushFrame (back : String) :
    (exec value (pushFrame back) c).ram = c.ram.pushFrame (value back) := by
  rw [pushFrame, exec_append, exec_saves hv, exec_append, exec_pushD hv]
  rfl

theorem exec_restore (r : Register) :
    (exec value (restore r) c).ram = c.ram.restore r := by
  rw [restore, exec_append, exec_storeD hv, exec_cons, exec_loadRegister hv]
  rfl

theorem exec_restores (rs : List Register) :
    (exec value (rs.flatMap restore) c).ram = rs.foldl Memory.restore c.ram := by
  induction rs generalizing c with
  | nil => rfl
  | cons r rs ih =>
    rw [List.flatMap_cons, exec_append, ih, exec_restore hv, List.foldl_cons]

end Moves

end Code

end HackVm
