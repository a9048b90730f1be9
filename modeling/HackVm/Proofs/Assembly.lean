import Mathlib.Data.List.Basic
import HackVm.Hack.Register
import HackVm.Proofs.Machine

/-!
# Assembling

The assembler gives every symbol one word: a declared label the slot it
stands in front of, a predefined symbol its fixed address, and any other
symbol a variable cell, counted from address 16 in the order of first use
(`valueOf`). Labels and comments take no slot.

`Loadable` is what a program needs for this to mean anything: it fits the
machine, no label stands twice, and none takes the name of a register.
Its words then keep apart what the names keep apart
(`valueOf_variable_inj`).
-/

namespace HackVm

namespace Instruction

def label? : Instruction → Option String
  | label name => some name
  | _ => none

def symbol? : Instruction → Option String
  | address (.symbol name) => some name
  | _ => none

/-- The operation of an instruction, once symbols have values. -/
def op? (value : String → Word) : Instruction → Option Op
  | comment _ | label _ => none
  | address (.constant n) => some (.load n)
  | address (.symbol name) => some (.load (value name))
  | compute dest comp jump => some (.compute dest comp jump)

theorem isSome_op? (value : String → Word) (i : Instruction) :
    (i.op? value).isSome = i.isExecutable := by
  rcases i with _ | (_ | _) | _ | _ <;> rfl

end Instruction

def Register.word (r : Register) : Word := UInt16.ofNat r.address

namespace Assembly

/-! ## Slots, labels and symbols -/

def slots (code : List Instruction) : Nat := code.countP Instruction.isExecutable

def labels (code : List Instruction) : List String := code.filterMap Instruction.label?

def symbols (code : List Instruction) : List String := code.filterMap Instruction.symbol?

@[simp] theorem slots_nil : slots [] = 0 := rfl

theorem slots_cons (i : Instruction) (code : List Instruction) :
    slots (i :: code) = slots [i] + slots code := by
  simp only [slots, List.countP_cons, List.countP_nil]
  omega

@[simp] theorem slots_append (s t : List Instruction) : slots (s ++ t) = slots s + slots t :=
  List.countP_append

@[simp] theorem labels_append (s t : List Instruction) :
    labels (s ++ t) = labels s ++ labels t :=
  List.filterMap_append

@[simp] theorem symbols_append (s t : List Instruction) :
    symbols (s ++ t) = symbols s ++ symbols t :=
  List.filterMap_append

theorem mem_labels {name : String} {code : List Instruction} :
    name ∈ labels code ↔ .label name ∈ code := by
  simp only [labels, List.mem_filterMap]
  constructor
  · rintro ⟨i, hi, hname⟩
    cases i <;> cases hname
    exact hi
  · exact fun h => ⟨_, h, rfl⟩

/-- The slot of the first label of a name. -/
def slotOf? (name : String) : List Instruction → Option Nat
  | [] => none
  | i :: rest => if i = .label name then some 0 else (slotOf? name rest).map (slots [i] + ·)

/-- A label that the code in front does not declare stands behind all of it. -/
theorem slotOf?_append {name : String} {pre : List Instruction} (h : name ∉ labels pre)
    (post : List Instruction) :
    slotOf? name (pre ++ .label name :: post) = some (slots pre) := by
  induction pre with
  | nil => simp [slotOf?]
  | cons i pre ih =>
    have hi : i ≠ .label name := by
      rintro rfl
      exact h (mem_labels.mpr (List.mem_cons_self ..))
    have hpre : name ∉ labels pre := fun hm =>
      h (mem_labels.mpr (List.mem_cons_of_mem _ (mem_labels.mp hm)))
    rw [List.cons_append, slotOf?, if_neg hi, ih hpre, Option.map_some, slots_cons i pre]

theorem slotOf?_eq_none {name : String} {code : List Instruction} (h : name ∉ labels code) :
    slotOf? name code = none := by
  induction code with
  | nil => rfl
  | cons i code ih =>
    have hi : i ≠ .label name := by
      rintro rfl
      exact h (mem_labels.mpr (List.mem_cons_self ..))
    rw [slotOf?, if_neg hi, ih fun hm =>
      h (mem_labels.mpr (List.mem_cons_of_mem _ (mem_labels.mp hm)))]
    rfl

/-! ## The symbol table -/

/-- The symbols with a fixed address. -/
def predefined : List (String × Word) :=
  [("SP", 0), ("LCL", 1), ("ARG", 2), ("THIS", 3), ("THAT", 4),
   ("SCREEN", 16384), ("KBD", 24576)] ++
  (List.range 16).map fun i => ("R" ++ toString i, UInt16.ofNat i)

def predefined? (name : String) : Option Word := predefined.lookup name

theorem predefined?_register (r : Register) : predefined? r.symbol = some r.word := by
  cases r <;> decide

/-- The symbols that become variables, in the order of first use. -/
def variableNames (code : List Instruction) : List String :=
  ((symbols code).filter fun name =>
    name ∉ labels code && (predefined? name).isNone).eraseDups

def firstVariable : Nat := 16

/-- The word that the assembler puts in the place of a symbol. -/
def valueOf (code : List Instruction) (name : String) : Word :=
  match slotOf? name code with
  | some slot => UInt16.ofNat slot
  | none =>
    match predefined? name with
    | some address => address
    | none => UInt16.ofNat (firstVariable + (variableNames code).idxOf name)

def assemble (code : List Instruction) : List Op :=
  code.filterMap (Instruction.op? (valueOf code))

theorem length_filterMap_op? (value : String → Word) (code : List Instruction) :
    (code.filterMap (Instruction.op? value)).length = slots code := by
  rw [List.length_filterMap_eq_countP, slots]
  exact List.countP_congr fun i _ => by rw [Instruction.isSome_op?]

/-- Code that fits the machine and whose labels mean one slot each. -/
structure Loadable (code : List Instruction) : Prop where
  short : slots code < 32768
  once : (labels code).Nodup
  own : ∀ name ∈ labels code, predefined? name = none

section Variables

theorem length_eraseDups_le : ∀ names : List String, names.eraseDups.length ≤ names.length
  | [] => Nat.le_refl _
  | name :: rest => by
    have hrest : (rest.filter fun other => !other == name).length ≤ rest.length :=
      (List.filter_sublist ..).length_le
    have ih := length_eraseDups_le (rest.filter fun other => !other == name)
    rw [List.eraseDups_cons, List.length_cons, List.length_cons]
    omega
termination_by names => names.length
decreasing_by exact Nat.lt_succ_of_le hrest

theorem length_symbols_le (code : List Instruction) : (symbols code).length ≤ slots code := by
  rw [symbols, List.length_filterMap_eq_countP, slots]
  refine List.countP_mono_left fun i _ h => ?_
  cases i with
  | address target => rfl
  | comment _ => cases h
  | compute _ _ _ => rfl
  | label _ => cases h

theorem length_variableNames_le (code : List Instruction) :
    (variableNames code).length ≤ slots code :=
  Nat.le_trans (length_eraseDups_le _)
    (Nat.le_trans (List.filter_sublist ..).length_le (length_symbols_le code))

variable {code : List Instruction} {name other : String}

theorem mem_variableNames :
    name ∈ variableNames code ↔
      name ∈ symbols code ∧ name ∉ labels code ∧ predefined? name = none := by
  simp [variableNames, List.mem_eraseDups]

theorem valueOf_variable (h : name ∈ variableNames code) :
    valueOf code name = UInt16.ofNat (firstVariable + (variableNames code).idxOf name) := by
  obtain ⟨-, hlabel, hfree⟩ := mem_variableNames.mp h
  rw [valueOf, slotOf?_eq_none hlabel, hfree]

theorem toNat_valueOf_variable (hshort : slots code < 32768) (h : name ∈ variableNames code) :
    (valueOf code name).toNat = firstVariable + (variableNames code).idxOf name := by
  have hlt := List.idxOf_lt_length_of_mem h
  have hle := length_variableNames_le code
  rw [valueOf_variable h, firstVariable]
  exact toNat_ofNat_of_lt (by omega)

/-- Every variable has a cell of its own. -/
theorem valueOf_variable_inj (hshort : slots code < 32768) (h : name ∈ variableNames code)
    (h' : other ∈ variableNames code) : valueOf code name = valueOf code other ↔ name = other := by
  rw [← UInt16.toNat_inj, toNat_valueOf_variable hshort h, toNat_valueOf_variable hshort h',
    Nat.add_left_cancel_iff]
  exact List.idxOf_inj h

end Variables

end Assembly

end HackVm
