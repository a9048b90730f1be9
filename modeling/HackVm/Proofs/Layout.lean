import HackVm.Proofs.Blocks
import HackVm.Proofs.Listing

/-!
# Where commands stand

The code of each command begins at a slot of its own (`Job.start`) and
ends where that of the next one begins. Comments take no slot, so it does
not matter whether they are wanted.

Labels take no slot either: several commands may begin at one slot. A slot
that is come back to means the first of them (`Job.starting?`), and behind
a call this is the command that follows it (`Job.starting?_behind`).
-/

namespace HackVm

open Assembly

def Command.declared? : Command → Option String
  | label name | function name _ => some name
  | _ => none

def Command.target? : Command → Option String
  | goto name | ifGoto name | call name _ => some name
  | _ => none

/-- The index of the static cell that a command moves. -/
def Command.static? : Command → Option UInt16
  | push .static index | pop .static index => some index
  | _ => none

namespace Code

/-- The code of a command that declares a name begins with the label. -/
theorem ofCommand_declared {file : String} {labels : Labels} {c : Command} {name : String}
    {body : List Instruction} (h : ofCommand file labels c = .ok body)
    (hname : c.declared? = some name) : ∃ rest, body = .label name :: rest := by
  cases c <;> cases hname <;> cases h
  · exact ⟨[], rfl⟩
  · exact ⟨_, rfl⟩

end Code

theorem Source.name_of_mem_sites {f : Source} {s : Site} (h : s ∈ f.sites) : s.name = f.name := by
  rw [sites] at h
  split at h
  · obtain ⟨c, -, rfl⟩ := List.mem_map.mp h
    rfl
  · cases h

namespace Job

variable (j : Job)

def labelsAt (k : Nat) : Labels := j.firstLabels.behind (j.sites.take k)

/-- The code in front of the command at an index. -/
def before (k : Nat) : List Instruction := j.head ++ (j.blocks.take k).flatten

/-- The slot at which the code of the command at an index begins. -/
def start (k : Nat) : Nat := slots (j.before k)

def declaring? (name : String) : Option Nat :=
  j.sites.findIdx? fun s => s.command.declared? = some name

/-- The first command whose code begins at a slot. The end of the program
counts as a command. -/
def starting? (slot : Nat) : Option Nat :=
  (List.range (j.sites.length + 1)).find? fun k => j.start k = slot

theorem start_zero : j.start 0 = slots j.head := by
  simp [start, before]

theorem start_mono {k k' : Nat} (h : k ≤ k') : j.start k ≤ j.start k' := by
  obtain ⟨d, rfl⟩ := Nat.exists_eq_add_of_le h
  simp only [start, before, List.take_add, List.flatten_append, slots_append]
  omega

variable {j} {code : List Instruction} {k : Nat} {s : Site}

theorem start_length (h : j.translate = .ok code) : j.start j.sites.length = slots code := by
  obtain ⟨hlist, rfl⟩ := translate_ok h
  rw [start, before, ← listBlocks_length hlist, List.take_length]

/-- The code of each command stands between its own first slot and that of
the next command. -/
theorem placed_body (h : j.translate = .ok code) (hk : j.sites[k]? = some s) :
    ∃ body, Code.ofCommand s.file (j.labelsAt k) s.command = .ok body
      ∧ Placed code (j.start k) body ∧ j.start (k + 1) = j.start k + slots body := by
  obtain ⟨hlist, rfl⟩ := translate_ok h
  obtain ⟨block, hget, hblock⟩ := listBlocks_getElem? hlist hk
  obtain ⟨hlt, rfl⟩ := List.getElem?_eq_some_iff.mp hget
  have hsplit : j.blocks.flatten = (j.blocks.take k).flatten ++
      (j.blocks[k] ++ (j.blocks.drop (k + 1)).flatten) := by
    rw [← List.flatten_cons, ← List.drop_eq_getElem_cons hlt, ← List.flatten_append,
      List.take_append_drop]
  have hplaced : Placed (j.head ++ j.blocks.flatten) (j.start k) j.blocks[k] :=
    ⟨j.before k, (j.blocks.drop (k + 1)).flatten, by rw [hsplit, before, List.append_assoc], rfl⟩
  obtain ⟨body, hbody, hplaced, hslots⟩ := Code.placed_of_block hblock hplaced
  refine ⟨body, hbody, hplaced, ?_⟩
  rw [← hslots, start, start, before, before, List.take_add_one, hget, Option.toList_some,
    List.flatten_append, List.flatten_singleton, ← List.append_assoc, slots_append]

theorem start_le (h : j.translate = .ok code) (hk : k ≤ j.sites.length) :
    j.start k ≤ slots code :=
  start_length h ▸ j.start_mono hk

/-! ## Files -/

/-- The index of a command of a file, counted through the whole program. -/
def index (j : Job) (file i : Nat) : Nat := ((j.files.take file).flatMap Source.sites).length + i

def site? (j : Job) (file i : Nat) : Option Site := j.files[file]?.bind (·.sites[i]?)

theorem site?_eq_some {file i : Nat} (h : j.site? file i = some s) :
    j.sites[j.index file i]? = some s ∧ ∃ f, j.files[file]? = some f ∧ s.name = f.name := by
  obtain ⟨f, hf, hi⟩ := Option.bind_eq_some_iff.mp h
  obtain ⟨hlt, hget⟩ := List.getElem?_eq_some_iff.mp hf
  have hsplit : j.sites = (j.files.take file).flatMap Source.sites ++
      (f.sites ++ (j.files.drop (file + 1)).flatMap Source.sites) := by
    rw [← hget, ← List.flatMap_cons, ← List.drop_eq_getElem_cons hlt, ← List.flatMap_append,
      List.take_append_drop, sites]
  refine ⟨?_, f, hf, Source.name_of_mem_sites (List.mem_of_getElem? hi)⟩
  rw [hsplit, index, List.getElem?_append_right (Nat.le_add_right ..), Nat.add_sub_cancel_left,
    List.getElem?_append_left (List.getElem?_eq_some_iff.mp hi).1, hi]

/-! ## Names and slots find commands -/

theorem declaring?_some {name : String} (h : j.declaring? name = some k) :
    ∃ s, j.sites[k]? = some s ∧ s.command.declared? = some name := by
  obtain ⟨hlt, hs, -⟩ := List.findIdx?_eq_some_iff_getElem.mp h
  exact ⟨j.sites[k], List.getElem?_eq_getElem hlt, of_decide_eq_true hs⟩

theorem isSome_declaring? {name : String} :
    (j.declaring? name).isSome ↔ ∃ s ∈ j.sites, s.command.declared? = some name := by
  simp [declaring?, List.findIdx?_isSome]

/-- A name means the slot at which the code of the command that declares
it begins. -/
theorem start_declaring (h : j.translate = .ok code) (hcode : Loadable code) {name : String}
    (hk : j.declaring? name = some k) : (valueOf code name).toNat = j.start k := by
  obtain ⟨s, hs, hname⟩ := declaring?_some hk
  obtain ⟨body, hbody, hplaced, -⟩ := placed_body h hs
  obtain ⟨rest, rfl⟩ := Code.ofCommand_declared hbody hname
  exact hplaced.toNat_valueOf_label hcode

theorem start_starting {slot : Nat} (hk : j.starting? slot = some k) : j.start k = slot := by
  have hfound := List.find?_some hk
  exact of_decide_eq_true hfound

theorem isSome_starting? {slot : Nat} :
    (j.starting? slot).isSome ↔ ∃ k ≤ j.sites.length, j.start k = slot := by
  simp only [starting?, List.find?_isSome, List.mem_range, Nat.lt_succ_iff, decide_eq_true_eq]

/-- Behind a command that takes a slot, the command that begins there is
the next one. -/
theorem starting?_behind (hk : k < j.sites.length) (hlt : j.start k < j.start (k + 1)) :
    j.starting? (j.start (k + 1)) = some (k + 1) := by
  rw [starting?, List.find?_range_eq_some]
  refine ⟨decide_eq_true rfl, List.mem_range.mpr (Nat.succ_lt_succ hk), fun i hi => ?_⟩
  have hle := j.start_mono (Nat.le_of_lt_succ hi)
  rw [Bool.not_eq_true', decide_eq_false_iff_not]
  omega

end Job

end HackVm
