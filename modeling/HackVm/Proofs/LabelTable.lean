import Mathlib.Data.List.Nodup
import Mathlib.Data.List.Perm.Basic
import Std.Data.String.ToNat
import HackVm.Proofs.Layout

/-!
# The table of labels

The labels of a program are the names that its commands declare and the
labels that were issued for its comparisons and calls, each of them once
(`Job.labels_perm`). Issued labels never clash with each other. Names are
taken as they are written, and nothing keeps them from looking like issued
labels: no clash at all is the same as no such name
(`Job.nodup_labels_iff`).
-/

namespace HackVm

open Assembly

namespace Labels

/-! ## Issued labels -/

theorem comparison_inj {n n' : Nat} : comparison n = comparison n' ↔ n = n' := by
  rw [comparison, comparison, String.append_right_inj]
  exact Nat.repr_inj

theorem back_inj {n n' : Nat} : back n = back n' ↔ n = n' := by
  rw [back, back, String.append_right_inj]
  exact Nat.repr_inj

theorem comparison_ne_back (n n' : Nat) : comparison n ≠ back n' := by
  intro h
  have hthird := congrArg (fun s : String => s.toList[2]?) h
  simp [comparison, back] at hthird

def issued (l : Labels) : List String :=
  (List.range l.comparisons).map comparison ++ (List.range l.calls).map back

theorem mem_issued {l : Labels} {name : String} :
    name ∈ l.issued ↔
      (∃ i < l.comparisons, comparison i = name) ∨ ∃ i < l.calls, back i = name := by
  simp only [issued, List.mem_append, List.mem_map, List.mem_range]

theorem nodup_issued (l : Labels) : l.issued.Nodup := by
  refine List.nodup_append.mpr ⟨?_, ?_, ?_⟩
  · exact List.Nodup.map (fun _ _ => comparison_inj.mp) List.nodup_range
  · exact List.Nodup.map (fun _ _ => back_inj.mp) List.nodup_range
  · intro a ha b hb
    obtain ⟨n, -, rfl⟩ := List.mem_map.mp ha
    obtain ⟨n', -, rfl⟩ := List.mem_map.mp hb
    exact comparison_ne_back n n'

/-- The label that a command takes, if it takes one. -/
def taken (l : Labels) (c : Command) : List String :=
  if c.isComparison then [l.takeComparison.1]
  else if c.isCall then [l.takeCall.1]
  else []

theorem issued_after (l : Labels) (c : Command) :
    ((l.after c).issued).Perm (l.taken c ++ l.issued) := by
  rw [after, taken]
  split
  · simp only [takeComparison, issued, List.range_succ, List.map_append, List.map_singleton,
      List.append_assoc]
    exact List.perm_middle
  · split
    · simp only [takeCall, issued, List.range_succ, List.map_append, List.map_singleton]
      rw [← List.append_assoc]
      exact List.perm_append_comm
    · exact List.Perm.refl _

theorem after_eq (l : Labels) (c : Command) :
    l.after c = ⟨l.comparisons + if c.isComparison then 1 else 0,
      l.calls + if c.isCall then 1 else 0⟩ := by
  cases c with
  | operate op => cases op <;> rfl
  | _ => rfl

theorem behind_eq (l : Labels) (sites : List Site) :
    l.behind sites =
      ⟨l.comparisons + sites.countP (·.command.isComparison),
        l.calls + sites.countP (·.command.isCall)⟩ := by
  induction sites generalizing l with
  | nil => rfl
  | cons s rest ih =>
    rw [behind_cons, ih, after_eq, List.countP_cons, List.countP_cons]
    simp only [Labels.mk.injEq]
    omega

end Labels

/-! ## Labels of the blocks -/

namespace Code

theorem labels_push (cell : Cell) : labels (push cell) = [] := by
  cases cell <;> rfl

theorem labels_pop {c : Command} {cell : Cell} {block : List Instruction}
    (h : pop c cell = .ok block) : labels block = [] := by
  cases cell <;> cases h <;> rfl

theorem labels_function (name : String) (locals : UInt16) :
    labels (function name locals) = [name] := by
  have hzeros : labels (List.replicate locals.toNat (loadD 0 ++ pushD)).flatten = [] := by
    induction locals.toNat with
    | zero => rfl
    | succ n ih =>
      rw [List.replicate_succ, List.flatten_cons, labels_append, ih]
      rfl
  rw [function, ← List.singleton_append, labels_append, hzeros]
  rfl

/-- A command declares its own name and the label that it takes. -/
theorem labels_ofCommand {file : String} {l : Labels} {c : Command} {body : List Instruction}
    (h : ofCommand file l c = .ok body) : labels body = c.declared?.toList ++ l.taken c := by
  cases c with
  | push s index =>
    obtain ⟨cell, -, rfl⟩ := except_map_ok h
    exact labels_push cell
  | pop s index =>
    obtain ⟨cell, -, hpop⟩ := except_bind_ok h
    exact labels_pop hpop
  | operate op =>
    obtain rfl := Except.ok.inj h
    cases op <;> rfl
  | function name locals =>
    obtain rfl := Except.ok.inj h
    exact labels_function name locals
  | call name args =>
    obtain rfl := ofCommand_call h
    rfl
  | _ =>
    obtain rfl := Except.ok.inj h
    rfl

theorem labels_block {file : String} {comments : Bool} {l : Labels} {c : Command}
    {block : List Instruction} (h : Code.block file comments l c = .ok block) :
    labels block = c.declared?.toList ++ l.taken c := by
  obtain ⟨body, hbody, rfl⟩ := except_map_ok h
  rw [labels_append, labels_remark, List.nil_append, labels_ofCommand hbody]

end Code

/-- The labels of a row of blocks, and those issued before it, are the
declared names and the labels issued behind it. -/
theorem labels_listBlocks {comments : Bool} {l : Labels} {sites : List Site}
    {blocks : List (List Instruction)} (h : listBlocks comments l sites = .ok blocks) :
    (labels blocks.flatten ++ l.issued).Perm
      (sites.filterMap (·.command.declared?) ++ (l.behind sites).issued) := by
  induction sites generalizing l blocks with
  | nil =>
    obtain rfl := Except.ok.inj h
    exact List.Perm.refl _
  | cons s rest ih =>
    obtain ⟨block, more, hblock, hrest, rfl⟩ := listBlocks_cons_ok.mp h
    have hdeclared : (s :: rest).filterMap (·.command.declared?) =
        s.command.declared?.toList ++ rest.filterMap (·.command.declared?) := by
      cases hname : s.command.declared? <;> simp [hname]
    rw [List.flatten_cons, labels_append, Code.labels_block hblock, hdeclared]
    simp only [List.append_assoc]
    refine List.Perm.append_left _ ?_
    calc l.taken s.command ++ (labels more.flatten ++ l.issued)
        |>.Perm (labels more.flatten ++ (l.taken s.command ++ l.issued)) :=
          List.perm_append_comm_assoc ..
      _ |>.Perm (labels more.flatten ++ (l.after s.command).issued) :=
          (Labels.issued_after l s.command).symm.append_left _
      _ |>.Perm _ := ih hrest

/-! ## Labels of a program -/

namespace Job

variable {j : Job} {code : List Instruction}

def declaredNames (j : Job) : List String := j.sites.filterMap (·.command.declared?)

def comparisons (j : Job) : Nat := j.sites.countP (·.command.isComparison)

/-- The number of calls in the program, with that of the bootstrap. -/
def calls (j : Job) : Nat :=
  j.sites.countP (·.command.isCall) + if j.withBootstrap then 1 else 0

def lastLabels (j : Job) : Labels := ⟨j.comparisons, j.calls⟩

theorem behind_sites (j : Job) : j.firstLabels.behind j.sites = j.lastLabels := by
  rw [Labels.behind_eq, lastLabels, comparisons, calls, firstLabels]
  cases j.withBootstrap
  · simp
  · simp [Labels.takeCall, Nat.add_comm]

theorem labels_head (j : Job) : labels j.head = j.firstLabels.issued := by
  obtain ⟨⟨entry, bootstrap, comments⟩, withBootstrap, files⟩ := j
  cases withBootstrap <;> cases comments <;> rfl

theorem labels_perm (h : j.translate = .ok code) :
    (labels code).Perm (j.declaredNames ++ j.lastLabels.issued) := by
  obtain ⟨hlist, rfl⟩ := translate_ok h
  rw [labels_append, labels_head, ← behind_sites]
  exact List.perm_append_comm.trans (labels_listBlocks hlist)

/-- Labels are unique if and only if declared names are, and none of them
is an issued label. -/
theorem nodup_labels_iff (h : j.translate = .ok code) :
    (labels code).Nodup ↔
      j.declaredNames.Nodup ∧ ∀ name ∈ j.declaredNames, name ∉ j.lastLabels.issued := by
  rw [(labels_perm h).nodup_iff, List.nodup_append']
  simp only [Labels.nodup_issued, true_and, List.disjoint_left]

/-- An issued label is declared once if labels are unique. -/
theorem count_issued (h : j.translate = .ok code) (hunique : (labels code).Nodup) {name : String}
    (hname : name ∈ j.lastLabels.issued) : (labels code).count name = 1 :=
  List.count_eq_one_of_mem hunique
    ((labels_perm h).mem_iff.mpr (List.mem_append_right _ hname))

/-- Where declared names are distinct, no label is declared twice exactly
if none of these names is an issued label; and then each issued label is
declared once. -/
theorem labels_unique_iff (h : j.translate = .ok code) (hnames : j.declaredNames.Nodup) :
    ((labels code).Nodup ↔
      (∀ i < j.comparisons, Labels.comparison i ∉ j.declaredNames)
        ∧ ∀ i < j.calls, Labels.back i ∉ j.declaredNames)
      ∧ ((labels code).Nodup →
        (∀ i < j.comparisons, (labels code).count (Labels.comparison i) = 1)
          ∧ ∀ i < j.calls, (labels code).count (Labels.back i) = 1) := by
  constructor
  · rw [nodup_labels_iff h]
    constructor
    · rintro ⟨-, hclear⟩
      exact ⟨fun i hi hmem => hclear _ hmem (Labels.mem_issued.mpr (.inl ⟨i, hi, rfl⟩)),
        fun i hi hmem => hclear _ hmem (Labels.mem_issued.mpr (.inr ⟨i, hi, rfl⟩))⟩
    · rintro ⟨hcomparison, hback⟩
      refine ⟨hnames, fun name hmem hissued => ?_⟩
      rcases Labels.mem_issued.mp hissued with ⟨i, hi, rfl⟩ | ⟨i, hi, rfl⟩
      · exact hcomparison i hi hmem
      · exact hback i hi hmem
  · intro hunique
    exact ⟨fun i hi => count_issued h hunique (Labels.mem_issued.mpr (.inl ⟨i, hi, rfl⟩)),
      fun i hi => count_issued h hunique (Labels.mem_issued.mpr (.inr ⟨i, hi, rfl⟩))⟩

/-- A comparison, a declared name and the call of the bootstrap. -/
def compareAndDeclare (name : String) : Job :=
  ⟨{}, true, [⟨"A.vm", "push constant 1\npush constant 1\neq\nlabel " ++ name⟩]⟩

theorem labels_unique_iff_loop :
    (labels (compareAndDeclare "LOOP").output).Nodup :=
  ((labels_unique_iff (translate_output (by decide +kernel)) (by decide +kernel)).1).mpr
    (by decide +kernel)

/-- A label of the source can stand where a comparison needs its own. -/
theorem labels_clash :
    ∃ j code, Job.translate j = .ok code ∧ j.declaredNames.Nodup ∧ ¬(labels code).Nodup :=
  ⟨compareAndDeclare "__CMP_DONE_0", _, translate_output (by decide +kernel), by decide +kernel,
    by decide +kernel⟩

end Job

end HackVm
