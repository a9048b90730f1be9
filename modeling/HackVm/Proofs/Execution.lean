import HackVm.Proofs.Assembly

/-!
# Running a piece of code

`Placed code p piece` says that a piece stands in the code with its first
slot at `p`; it is all that a block needs to know about the code around
it. A piece without jumps is a function on registers and memory (`exec`),
and the machine follows that function to the slot behind the piece
(`Placed.run_straight`). A jump is a single step of its own
(`Placed.step_jump`), so a block is proved by cutting it at its jumps.
-/

namespace HackVm

def Instruction.exec (value : String → Word) (c : Core) (i : Instruction) : Core :=
  match i.op? value with
  | some op => op.exec c
  | none => c

namespace Assembly

/-- What code without jumps does to registers and memory. -/
def exec (value : String → Word) (code : List Instruction) (c : Core) : Core :=
  code.foldl (Instruction.exec value) c

/-! ## Symbolic execution -/

section Exec

variable (value : String → Word) (c : Core)

@[simp] theorem exec_nil : exec value [] c = c := rfl

@[simp] theorem exec_cons (i : Instruction) (code : List Instruction) :
    exec value (i :: code) c = exec value code (i.exec value c) := rfl

@[simp] theorem exec_append (s t : List Instruction) :
    exec value (s ++ t) c = exec value t (exec value s c) :=
  List.foldl_append

@[simp] theorem exec_label (name : String) : Instruction.exec value c (.label name) = c := rfl

@[simp] theorem exec_load (n : Word) :
    Instruction.exec value c (.load n) = { c with a := n } := rfl

@[simp] theorem exec_loadSymbol (name : String) :
    Instruction.exec value c (.loadSymbol name) = { c with a := value name } := rfl

@[simp] theorem exec_assign (dest : Dest) (comp : Comp) :
    Instruction.exec value c (.assign dest comp) = c.store (some dest) (c.value comp) := rfl

end Exec

def isStraight (code : List Instruction) : Bool := code.all fun i => !i.isJump

/-! ## Placed pieces -/

/-- A piece stands in the code, with its first slot at `p`. -/
def Placed (code : List Instruction) (p : Nat) (piece : List Instruction) : Prop :=
  ∃ pre post, code = pre ++ (piece ++ post) ∧ slots pre = p

namespace Placed

variable {code s t : List Instruction} {p : Nat} {i : Instruction}

theorem intro (pre s post : List Instruction) : Placed (pre ++ (s ++ post)) (slots pre) s :=
  ⟨pre, post, rfl, rfl⟩

theorem left (h : Placed code p (s ++ t)) : Placed code p s := by
  obtain ⟨pre, post, rfl, rfl⟩ := h
  exact ⟨pre, t ++ post, by rw [List.append_assoc], rfl⟩

theorem right (h : Placed code p (s ++ t)) : Placed code (p + slots s) t := by
  obtain ⟨pre, post, rfl, rfl⟩ := h
  exact ⟨pre ++ s, post, by simp only [List.append_assoc], slots_append ..⟩

theorem tail (h : Placed code p (i :: t)) : Placed code (p + slots [i]) t :=
  right (s := [i]) h

theorem slots_le (h : Placed code p s) : p + slots s ≤ slots code := by
  obtain ⟨pre, post, rfl, rfl⟩ := h
  simp only [slots_append]
  omega

/-- The operation of an instruction stands in its slot. -/
theorem getElem?_assemble (h : Placed code p (i :: t)) {op : Op}
    (hop : i.op? (valueOf code) = some op) : (assemble code)[p]? = some op := by
  obtain ⟨pre, post, hcode, rfl⟩ := h
  have hsplit : assemble code = pre.filterMap (Instruction.op? (valueOf code)) ++
      op :: (t ++ post).filterMap (Instruction.op? (valueOf code)) := by
    rw [assemble, ← List.filterMap_cons_some hop, ← List.filterMap_append]
    exact congrArg _ hcode
  rw [hsplit, ← length_filterMap_op? (valueOf code) pre, List.getElem?_append_right (Nat.le_refl _),
    Nat.sub_self, List.getElem?_cons_zero]

/-- A label means the slot that it stands in front of. -/
theorem valueOf_label {name : String} (honce : (labels code).Nodup)
    (h : Placed code p (.label name :: t)) : valueOf code name = UInt16.ofNat p := by
  obtain ⟨pre, post, rfl, rfl⟩ := h
  have hpre : name ∉ labels pre := by
    rw [labels_append, List.cons_append, List.nodup_append] at honce
    intro hmem
    exact honce.2.2 name hmem name (mem_labels.mpr (List.mem_cons_self ..)) rfl
  rw [valueOf, List.cons_append, slotOf?_append hpre]

theorem toNat_valueOf_label {name : String} (hcode : Loadable code)
    (h : Placed code p (.label name :: t)) : (valueOf code name).toNat = p := by
  have hle := h.slots_le
  have hlt := hcode.short
  rw [h.valueOf_label hcode.once]
  exact toNat_ofNat_of_lt (by omega)

/-! ## Runs through placed pieces -/

theorem step_op (h : Placed code p (i :: t)) {op : Op} (hop : i.op? (valueOf code) = some op)
    (c : Core) : Machine.step (assemble code) ⟨c, p⟩ = some (op.step ⟨c, p⟩) := by
  rw [Machine.step, h.getElem?_assemble hop, Option.map_some]

/-- The machine follows code without jumps to the slot behind it. The
induction is on the piece; each instruction either takes a step and a slot
or neither. -/
theorem run_straight (h : Placed code p s) (hs : isStraight s = true) (c : Core) :
    Machine.run (assemble code) (slots s) ⟨c, p⟩ =
      some ⟨exec (valueOf code) s c, p + slots s⟩ := by
  induction s generalizing p c with
  | nil => rfl
  | cons i s ih =>
    rw [isStraight, List.all_cons, Bool.and_eq_true, Bool.not_eq_true'] at hs
    have hih := ih h.tail hs.2 (i.exec (valueOf code) c)
    have hone : Machine.run (assemble code) (slots [i]) ⟨c, p⟩ =
        some ⟨i.exec (valueOf code) c, p + slots [i]⟩ := by
      have hi := hs.1
      rcases i with _ | (_ | _) | ⟨dest, comp, _ | jump⟩ | _
      · rfl
      · exact Machine.run_of_step (h.step_op rfl c)
      · exact Machine.run_of_step (h.step_op rfl c)
      · exact Machine.run_of_step (h.step_op rfl c)
      · cases hi
      · rfl
    rw [slots_cons, ← Nat.add_assoc]
    exact Machine.run_trans hone hih

/-- A jump goes to the slot that `A` names, or on to the next one. -/
theorem step_jump {comp : Comp} {jump : Jump} (h : Placed code p (.jumpIf comp jump :: t))
    (c : Core) :
    Machine.step (assemble code) ⟨c, p⟩ =
      some ⟨c, if jump.isTaken (signed (c.value comp)) then c.a.toNat else p + 1⟩ :=
  h.step_op rfl c

end Placed

/-- There is no step behind the last slot. -/
theorem step_end (code : List Instruction) (c : Core) :
    Machine.step (assemble code) ⟨c, slots code⟩ = none := by
  have hlength : (assemble code).length = slots code := length_filterMap_op? ..
  rw [Machine.step, List.getElem?_eq_none (Nat.le_of_eq hlength)]
  rfl

end Assembly

end HackVm
