import HackVm.Proofs.LabelTable
import HackVm.Proofs.Statics

/-!
# Captured names

Registers, static cells and labels share one table of symbols, and labels
come first in it: a name that the program declares means a slot, even if
it is the name of a cell (`meaning`).

A label that is issued for a comparison or a call never captures a cell.
It holds an underscore, as no predefined symbol does, and no dot, as every
symbol of a static cell does (`Job.not_namesCell_of_mem_issued`). The names
that commands declare are taken as they are written, and one of these can.
So a program reaches a cell by its name unless a command declares that very
name (`Job.mem_declaredNames_of_namesCell`).
-/

namespace HackVm

open Assembly

/-! ## What a symbol means -/

/-- What a symbol of an assembled program denotes. -/
inductive Meaning where
  | slot (n : Nat)
  | cell (address : Nat)
deriving DecidableEq

def Meaning.word : Meaning → Word
  | slot n => UInt16.ofNat n
  | cell address => UInt16.ofNat address

namespace Assembly

variable {code : List Instruction} {name : String}

def meaning (code : List Instruction) (name : String) : Meaning :=
  match slotOf? name code with
  | some slot => .slot slot
  | none =>
    match predefined? name with
    | some address => .cell address.toNat
    | none => .cell (firstVariable + (variableNames code).idxOf name)

/-- A declared name means the slot that its first label stands in front of. -/
theorem meaning_of_mem_labels (h : name ∈ labels code) :
    ∃ pre post, code = pre ++ .label name :: post ∧ meaning code name = .slot (slots pre) := by
  obtain ⟨pre, post, rfl, hfirst⟩ := List.eq_append_cons_of_mem (mem_labels.mp h)
  refine ⟨pre, post, rfl, ?_⟩
  rw [meaning, slotOf?_append fun hpre => hfirst (mem_labels.mp hpre)]

theorem meaning_of_predefined {address : Word} (h : name ∉ labels code)
    (hname : predefined? name = some address) : meaning code name = .cell address.toNat := by
  rw [meaning, slotOf?_eq_none h, hname]

theorem meaning_of_mem_variableNames (h : name ∈ variableNames code) :
    ∃ n < (variableNames code).length, meaning code name = .cell (firstVariable + n) := by
  obtain ⟨-, hlabel, hfree⟩ := mem_variableNames.mp h
  refine ⟨_, List.idxOf_lt_length_of_mem h, ?_⟩
  rw [meaning, slotOf?_eq_none hlabel, hfree]

end Assembly

/-! ## Issued labels -/

namespace Labels

/-- An issued label holds an underscore, and no dot. -/
theorem chars_of_mem_issued {l : Labels} {name : String} (h : name ∈ l.issued) :
    '_' ∈ name.toList ∧ '.' ∉ name.toList := by
  have hchars (stem : String) (n : Nat) (hmark : '_' ∈ stem.toList) (hdot : '.' ∉ stem.toList) :
      '_' ∈ (stem ++ toString n).toList ∧ '.' ∉ (stem ++ toString n).toList := by
    rw [String.toList_append]
    refine ⟨List.mem_append_left _ hmark, fun hmem => ?_⟩
    rcases List.mem_append.mp hmem with hmem | hmem
    · exact hdot hmem
    · exact dot_notMem_digits n hmem
  rcases mem_issued.mp h with ⟨n, -, rfl⟩ | ⟨n, -, rfl⟩
  · exact hchars _ n (by decide) (by decide)
  · exact hchars _ n (by decide) (by decide)

theorem predefined?_of_mem_issued {l : Labels} {name : String} (h : name ∈ l.issued) :
    predefined? name = none :=
  predefined?_eq_none_of_mem (by decide) (chars_of_mem_issued h).1

end Labels

/-! ## The cells of a program -/

namespace Job

variable {j : Job} {code : List Instruction} {name : String}

/-- The name of a register or of another predefined cell, or of a static
cell that the program uses. -/
def NamesCell (j : Job) (name : String) : Prop :=
  (predefined? name).isSome ∨ name ∈ j.staticSymbols

theorem not_namesCell_of_mem_issued {l : Labels} (h : name ∈ l.issued) : ¬j.NamesCell name := by
  obtain ⟨-, hdot⟩ := Labels.chars_of_mem_issued h
  rintro (hpredefined | hstatic)
  · rw [Labels.predefined?_of_mem_issued h] at hpredefined
    cases hpredefined
  · obtain ⟨s, -, hname⟩ := List.mem_filterMap.mp hstatic
    obtain ⟨i, -, rfl⟩ := Option.map_eq_some_iff.mp hname
    exact hdot (Cell.dot_mem_staticSymbol s.file i)

/-- What the names of cells mean in the code of a program. -/
structure CapturesDeclaredOnly (j : Job) (code : List Instruction) : Prop where
  /-- A label with the name of a cell is one that a command declares. -/
  declared : ∀ name ∈ labels code, j.NamesCell name →
    ∃ s ∈ j.sites, s.command.declared? = some name
  /-- A name that a command declares means the slot of its label. -/
  captured : ∀ name ∈ j.declaredNames, ∃ pre post, code = pre ++ .label name :: post
    ∧ meaning code name = .slot (slots pre)
  /-- A predefined symbol that no command declares means its own cell. -/
  predefined : ∀ name address, predefined? name = some address → name ∉ j.declaredNames →
    meaning code name = .cell address.toNat
  /-- The symbol of a static cell that no command declares means one of the
  variables of the program. -/
  static : ∀ s ∈ j.sites, ∀ i, s.command.static? = some i →
    Cell.staticSymbol s.file i ∉ j.declaredNames →
    ∃ n < (variableNames code).length,
      meaning code (Cell.staticSymbol s.file i) = .cell (firstVariable + n)

theorem mem_declaredNames_of_namesCell (h : j.translate = .ok code) (hlabel : name ∈ labels code)
    (hname : j.NamesCell name) : name ∈ j.declaredNames := by
  rcases List.mem_append.mp ((labels_perm h).mem_iff.mp hlabel) with hdeclared | hissued
  · exact hdeclared
  · exact absurd hname (not_namesCell_of_mem_issued hissued)

theorem captures_declared_only (h : j.translate = .ok code) : j.CapturesDeclaredOnly code where
  declared name hlabel hname :=
    List.mem_filterMap.mp (mem_declaredNames_of_namesCell h hlabel hname)
  captured name hdeclared :=
    meaning_of_mem_labels ((labels_perm h).mem_iff.mpr (List.mem_append_left _ hdeclared))
  predefined name address hname hfree := by
    refine meaning_of_predefined (fun hlabel => hfree ?_) hname
    exact mem_declaredNames_of_namesCell h hlabel (.inl (by rw [hname]; rfl))
  static s hs i hi hfree := by
    refine meaning_of_mem_variableNames (mem_variableNames.mpr ⟨mem_symbols_static h hs hi, ?_, ?_⟩)
    · intro hlabel
      exact hfree (mem_declaredNames_of_namesCell h hlabel (.inr (mem_staticSymbols hs hi)))
    · exact predefined?_staticSymbol s.file i

/-- A push of a static cell, and two names. -/
def pushAndDeclare (name name' : String) : Job :=
  ⟨{}, false, [⟨"A.vm", "push static 0\nlabel " ++ name ++ "\nlabel " ++ name'⟩]⟩

/-- With other names, the stack pointer and the static cell are cells. -/
theorem captures_declared_only_loop :
    meaning (pushAndDeclare "SP.0" "A").output Register.sp.symbol = .cell 0
      ∧ ∃ n, meaning (pushAndDeclare "SP.0" "A").output "A.0" = .cell (firstVariable + n) := by
  have hkept := captures_declared_only (j := pushAndDeclare "SP.0" "A")
    (translate_output (by decide +kernel))
  refine ⟨hkept.predefined _ 0 rfl (by decide +kernel), ?_⟩
  obtain ⟨n, -, hn⟩ := hkept.static ⟨"A.vm", .push .static 0⟩ (by decide +kernel) 0 rfl
    (by decide +kernel)
  exact ⟨n, hn⟩

/-- A label of the source can take the name of the stack pointer, and that
of a static cell. -/
theorem cells_captured :
    ∃ j code, Job.translate j = .ok code
      ∧ Register.sp.symbol ∈ labels code ∧ meaning code Register.sp.symbol = .slot 7
      ∧ "A.0" ∈ j.staticSymbols ∧ "A.0" ∈ labels code ∧ meaning code "A.0" = .slot 7 :=
  ⟨pushAndDeclare "SP" "A.0", _, translate_output (by decide +kernel), by decide +kernel,
    by decide +kernel, by decide +kernel, by decide +kernel, by decide +kernel⟩

end Job

end HackVm
