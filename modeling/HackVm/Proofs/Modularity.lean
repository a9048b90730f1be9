import Mathlib.Data.List.Basic
import HackVm.Proofs.LabelTable

/-!
# Modular builds

One generator makes the code of a whole program, and all it hands from one
command to the next is how many labels are in use. These numbers reach a
block in one place: the label that the block takes. A block is therefore
the one that a fresh generator makes of the command alone, with that label
renumbered (`Code.block_renumber`), and whether a command has a block does
not depend on the labels at all.

So a program has code exactly if each of its files has code when it is
translated alone, and else it fails as the first file that fails alone
(`Job.modular`).

Renumbering goes by place, not by name: a call may be one of a function
that is called like its label, and this name stays as it is.
-/

namespace HackVm

open Assembly

/-! ## Renumbering the label of a block -/

def redeclare (old new : String) (code : List Instruction) : List Instruction :=
  code.map fun i => if i = .label old then .label new else i

/-- Put one label in the place of another, where it is first loaded and
where it is declared behind that. -/
def relabel (old new : String) : List Instruction → List Instruction
  | [] => []
  | i :: rest =>
    if i = .loadSymbol old then .loadSymbol new :: redeclare old new rest
    else i :: relabel old new rest

/-- Put the next label of its family in the place of the label that the
block of a command takes from a fresh generator. -/
def Command.renumber (c : Command) (l : Labels) (block : List Instruction) : List Instruction :=
  if c.isComparison then relabel (Labels.comparison 0) (Labels.comparison l.comparisons) block
  else if c.isCall then relabel (Labels.back 0) (Labels.back l.calls) block
  else block

theorem redeclare_of_no_labels {old new : String} {s : List Instruction} (h : labels s = []) :
    redeclare old new s = s := by
  have hne : ∀ i ∈ s, (if i = .label old then .label new else i) = i := by
    intro i hi
    refine if_neg fun heq => ?_
    have hmem : old ∈ labels s := mem_labels.mpr (heq ▸ hi)
    rw [h] at hmem
    cases hmem
  exact (List.map_congr_left hne).trans (List.map_id' s)

theorem relabel_append {old new : String} {s : List Instruction} (h : old ∉ symbols s)
    (t : List Instruction) : relabel old new (s ++ t) = s ++ relabel old new t := by
  induction s with
  | nil => rfl
  | cons i s ih =>
    have hi : i ≠ .loadSymbol old := by
      rintro rfl
      exact h (List.mem_filterMap.mpr ⟨_, List.mem_cons_self .., rfl⟩)
    have hs : old ∉ symbols s := by
      intro hmem
      obtain ⟨i', hi', hname⟩ := List.mem_filterMap.mp hmem
      exact h (List.mem_filterMap.mpr ⟨i', List.mem_cons_of_mem _ hi', hname⟩)
    rw [List.cons_append, relabel, if_neg hi, ih hs, List.cons_append]

namespace Code

/-- The code first loads the label that it is given, and then declares it.
It declares no other, and in front of it loads no symbol but the stack
pointer. -/
structure Encloses (code : String → List Instruction) (s t u : List Instruction) : Prop where
  eq : ∀ name, code name = s ++ .loadSymbol name :: (t ++ .label name :: u)
  symbols : ∀ name ∈ symbols s, name = Register.sp.symbol
  before : labels s = []
  between : labels t = []
  behind : labels u = []

theorem Encloses.relabel {code : String → List Instruction} {s t u : List Instruction}
    (h : Encloses code s t u) {old : String} (hold : old ≠ Register.sp.symbol) (new : String) :
    relabel old new (code old) = code new := by
  have hs : old ∉ Assembly.symbols s := fun hmem => hold (h.symbols old hmem)
  have htail : redeclare old new (t ++ .label old :: u) = t ++ .label new :: u := by
    have happend : redeclare old new (t ++ .label old :: u) =
        redeclare old new t ++ redeclare old new (.label old :: u) := List.map_append
    have hcons : redeclare old new (.label old :: u) = .label new :: redeclare old new u := by
      simp [redeclare]
    rw [happend, hcons, redeclare_of_no_labels h.between, redeclare_of_no_labels h.behind]
  rw [h.eq, h.eq, relabel_append hs, HackVm.relabel, if_pos rfl, htail]

theorem exists_encloses_compare (jump : Jump) : ∃ s t u, Encloses (compare jump) s t u := by
  refine ⟨popDAtNext ++ [.assign .d .mMinusD] ++ atSp ++ [.assign .m .minusOne],
    [.jumpIf .d jump] ++ atSp ++ [.assign .m .zero], raiseSp, ?_, by decide, rfl, rfl, rfl⟩
  intro name
  simp [compare]

theorem exists_encloses_operate {op : Operation} (h : op.isComparison = true) :
    ∃ s t u, Encloses (operate · op) s t u := by
  cases op with
  | eq => exact exists_encloses_compare .jeq
  | gt => exact exists_encloses_compare .jgt
  | lt => exact exists_encloses_compare .jlt
  | _ => cases h

theorem exists_encloses_call (name : String) (args : UInt16) :
    ∃ s t u, Encloses (call name args) s t u := by
  let frame := [.assign .d .a] ++ pushD ++ savedRegisters.flatMap fun r => fetchD r ++ pushD
  let enter := fetchD .sp ++ [.load (args + frameSize), .assign .d .dMinusA] ++ storeD .arg ++
    fetchD .sp ++ storeD .lcl ++ goto name
  refine ⟨[], frame ++ enter, [], ?_, nofun, rfl, rfl, rfl⟩
  intro back
  simp [call, pushFrame, frame, enter]

/-! ## The block of a command alone -/

theorem renumber_eq_id {c : Command} (hcomparison : c.isComparison = false)
    (hcall : c.isCall = false) (l : Labels) : c.renumber l = id := by
  funext block
  simp only [Command.renumber, hcomparison, hcall, Bool.false_eq_true, if_false, id]

theorem renumber_comparison {op : Operation} (h : op.isComparison = true) (l : Labels)
    (block : List Instruction) : (Command.operate op).renumber l block =
      relabel (Labels.comparison 0) (Labels.comparison l.comparisons) block :=
  if_pos h

theorem renumber_call (name : String) (args : UInt16) (l : Labels) (block : List Instruction) :
    (Command.call name args).renumber l block =
      relabel (Labels.back 0) (Labels.back l.calls) block := rfl

theorem operate_renumber (l : Labels) (op : Operation) :
    operate l.takeComparison.1 op =
      (Command.operate op).renumber l (operate (Labels.takeComparison {}).1 op) := by
  cases hop : op.isComparison with
  | false =>
    rw [renumber_eq_id (c := .operate op) hop rfl, id]
    cases op <;> first | rfl | cases hop
  | true =>
    obtain ⟨s, t, u, hshape⟩ := exists_encloses_operate hop
    rw [renumber_comparison hop]
    exact (hshape.relabel (by decide) _).symm

/-- The labels in use reach the code of a command through the label that it
takes. -/
theorem ofCommand_renumber (file : String) (l : Labels) (c : Command) :
    ofCommand file l c = (ofCommand file {} c).map (c.renumber l) := by
  -- Only an operation and a call look at the labels in use.
  cases c with
  | operate op => exact congrArg _ (operate_renumber l op)
  | call name args =>
    rw [ofCommand, ofCommand]
    split
    · obtain ⟨s, t, u, hshape⟩ := exists_encloses_call name args
      have hcall := hshape.relabel (by decide : Labels.back 0 ≠ _) (Labels.back l.calls)
      rw [← renumber_call] at hcall
      exact congrArg _ hcall.symm
    · rfl
  | _ =>
    rw [renumber_eq_id rfl rfl, Except.map_id]
    rfl

theorem renumber_remark (c : Command) (l : Labels) (comments : Bool) (text : String)
    (body : List Instruction) :
    c.renumber l (remark comments text ++ body) = remark comments text ++ c.renumber l body := by
  have hnone : symbols (remark comments text) = [] := by cases comments <;> rfl
  have hpass (old new : String) :
      relabel old new (remark comments text ++ body) =
        remark comments text ++ relabel old new body :=
    relabel_append (by rw [hnone]; exact List.not_mem_nil) body
  simp only [Command.renumber, hpass]
  split
  · rfl
  · split <;> rfl

/-- The block of a command is the one that it has alone, with its label
renumbered. -/
theorem block_renumber (file : String) (comments : Bool) (l : Labels) (c : Command) :
    block file comments l c = (block file comments {} c).map (c.renumber l) := by
  rw [block, block, ofCommand_renumber]
  cases ofCommand file {} c with
  | error cause => rfl
  | ok body => exact congrArg Except.ok (renumber_remark c l comments c.text body).symm

/-! ## What makes a command fail -/

/-- The fault of a command in the named file, wherever it comes in a
program. -/
def fault? (file : String) (c : Located Command) : Option Fault :=
  (failure? (ofCommand file {} c.node)).map (⟨·, c.span⟩)

theorem failure?_block (file : String) (comments : Bool) (l : Labels) (c : Command) :
    failure? (block file comments l c) = failure? (ofCommand file {} c) := by
  rw [block, failure?_map, ofCommand_renumber, failure?_map]

end Code

namespace Generator

theorem failure?_translate (g : Generator) (c : Located Command) :
    failure? (g.translate c).1 = Code.fault? g.file c := by
  have hblock := Code.failure?_block g.file g.comments g.labels c.node
  rw [Code.fault?, ← hblock, translate]
  cases Code.block g.file g.comments g.labels c.node <;> rfl

/-- A row of commands fails as the first command that has no code. -/
theorem failure?_translateAll (g : Generator) (cs : List (Located Command)) :
    failure? (g.translateAll cs).1 = cs.findSome? (Code.fault? g.file) := by
  induction cs generalizing g with
  | nil => rfl
  | cons c rest ih =>
    have hfault := failure?_translate g c
    rw [translate] at hfault
    rw [translateAll_cons, List.findSome?_cons, ← hfault]
    cases Code.block g.file g.comments g.labels c.node with
    | error cause => rfl
    | ok block =>
      -- Later commands fail as they would at once, since the file stays.
      exact (failure?_map _ _).trans (ih (g.after c.node))

/-- A generator at the start of its work. -/
def fresh (comments : Bool) : Generator := ({} : Generator).withComments comments

theorem bootstrap_fresh (comments : Bool) (entry : String) :
    ((fresh comments).bootstrap entry).1 =
      if isSymbol entry then .ok (Code.bootstrap comments {} entry)
      else .error ⟨.invalidEntry entry, .nowhere⟩ := by
  rw [bootstrap]
  cases isSymbol entry <;> rfl

theorem fresh_translate {file name : String} {comments : Bool} {c : Located Command}
    {block : List Instruction} (hname : baseName name = file)
    (h : Code.block file comments {} c.node = .ok block) :
    (((fresh comments).setFile name).translate c).1 = .ok block := by
  let g := (fresh comments).setFile name
  have hcode : Code.block g.file g.comments g.labels c.node = .ok block := by
    rw [show g.file = file from hname]
    exact h
  rw [translate, hcode]

end Generator

/-! ## Files -/

/-- A file alone fails in reading or as its first command that has no
code. -/
theorem failure?_translate (text name : String) :
    failure? (HackVm.translate text name) =
      match parse text with
      | .error fault => some fault
      | .ok cs => cs.findSome? (Code.fault? (baseName name)) := by
  rw [HackVm.translate]
  cases parse text with
  | error fault => rfl
  | ok cs => exact Generator.failure?_translateAll _ cs

namespace Program

/-- A source of a program fails as it does alone. -/
theorem failure?_source (g : Generator) (s : Source) :
    failure? (source g s) = (failure? (HackVm.translate s.text s.name)).map s.blame := by
  rw [failure?_translate, source, Source.commands]
  cases parse s.text with
  | error fault => rfl
  | ok cs =>
    have hall := Generator.failure?_translateAll (g.setFile s.name) cs
    rw [show (g.setFile s.name).file = baseName s.name from rfl] at hall
    simp only
    rw [← hall, Except.mapError]
    rcases hcs : (g.setFile s.name).translateAll cs with ⟨fault | code, g₁⟩ <;>
      simp [bind, Except.bind, hcs]

theorem failure?_sources (g : Generator) (files : List Source) :
    failure? (sources g files) =
      files.findSome? fun s => (failure? (HackVm.translate s.text s.name)).map s.blame := by
  induction files generalizing g with
  | nil => rfl
  | cons s rest ih =>
    rw [sources, List.findSome?_cons, ← failure?_source g]
    cases source g s with
    | error fault => rfl
    | ok result =>
      obtain ⟨code, g₁⟩ := result
      rw [failure?_ok, ← ih g₁]
      cases hrest : sources g₁ rest <;> simp [bind, Except.bind, hrest, pure, Except.pure]

theorem exists_first_failing {files : List Source} {e : SourceFault}
    (h : files.findSome? (fun s => (failure? (HackVm.translate s.text s.name)).map s.blame) =
      some e) :
    ∃ (before : List Source) (s : Source) (after : List Source) (fault : Fault),
      files = before ++ s :: after
      ∧ (∀ t ∈ before, ∃ code, HackVm.translate t.text t.name = .ok code)
      ∧ HackVm.translate s.text s.name = .error fault ∧ e = s.blame fault := by
  obtain ⟨before, s, after, hsplit, hs, hbefore⟩ := List.findSome?_eq_some_iff.mp h
  obtain ⟨fault, hfault, rfl⟩ := Option.map_eq_some_iff.mp hs
  refine ⟨before, s, after, fault, hsplit, fun t ht => ?_, failure?_eq_some.mp hfault, rfl⟩
  exact failure?_eq_none.mp (Option.map_eq_none_iff.mp (hbefore t ht))

end Program

/-! ## Builds -/

namespace Job

variable {j : Job} {code : List Instruction}

/-- A program fails as its bootstrap, or else as the first of its files
that fails alone. -/
theorem failure?_translate (j : Job) :
    failure? j.translate =
      ((if j.withBootstrap then
          (failure? ((Generator.fresh j.config.comments).bootstrap j.config.entry).1).map
            Program.blameBootstrap
        else none) <|>
        j.files.findSome? fun s => (failure? (HackVm.translate s.text s.name)).map s.blame) := by
  obtain ⟨config, withBootstrap, files⟩ := j
  simp only [translate, Program.translate]
  cases withBootstrap with
  | false => exact Program.failure?_sources _ files
  | true =>
    simp only [if_true]
    have hsame : (Generator.mk {} "" config.comments false 0) = Generator.fresh config.comments := rfl
    rw [hsame]
    rcases (Generator.fresh config.comments).bootstrap config.entry with ⟨fault | start, g₁⟩
    · rfl
    · simp [Program.failure?_sources]

/-- The comparisons and the calls in front of a command. The bootstrap
counts as one call. -/
def countsBefore (j : Job) (k : Nat) : Labels :=
  ⟨(j.sites.take k).countP (·.command.isComparison),
    (if j.withBootstrap then 1 else 0) + (j.sites.take k).countP (·.command.isCall)⟩

theorem labelsAt_eq (j : Job) (k : Nat) : j.labelsAt k = j.countsBefore k := by
  rw [labelsAt, Labels.behind_eq, firstLabels, countsBefore]
  cases j.withBootstrap <;> simp [Labels.takeCall]

theorem isOk_iff (j : Job) :
    (∃ code, j.translate = .ok code) ↔
      (j.withBootstrap = true → isSymbol j.config.entry = true)
        ∧ ∀ s ∈ j.files, ∃ code, HackVm.translate s.text s.name = .ok code := by
  simp only [← failure?_eq_none]
  rw [failure?_translate, Generator.bootstrap_fresh]
  cases j.withBootstrap with
  | false => simp
  | true => cases isSymbol j.config.entry <;> simp

/-- A build is made of its files, each translated alone. -/
structure IsModular (j : Job) : Prop where
  /-- It succeeds exactly if its bootstrap can be made and each file alone
  succeeds. -/
  isOk_iff : (∃ code, j.translate = .ok code) ↔
    (j.withBootstrap = true → isSymbol j.config.entry = true)
      ∧ ∀ s ∈ j.files, ∃ code, HackVm.translate s.text s.name = .ok code
  /-- Its code is the bootstrap, if wanted, and one block for each command,
  the one that a fresh generator makes of the command alone but for the
  number of its label. -/
  ok : ∀ code, j.translate = .ok code →
    ∃ (start : List Instruction) (blocks : List (List Instruction)), code = start ++ blocks.flatten
    ∧ (if j.withBootstrap then
        ((Generator.fresh j.config.comments).bootstrap j.config.entry).1 = .ok start
      else start = [])
    ∧ blocks.length = j.sites.length
    ∧ ∀ k (s : Site), j.sites[k]? = some s → ∃ alone,
      (∀ name (c : Located Command), baseName name = s.file → c.node = s.command →
        (((Generator.fresh j.config.comments).setFile name).translate c).1 = .ok alone)
      ∧ blocks[k]? = some (s.command.renumber (j.countsBefore k) alone)
  /-- Its error is that of the bootstrap, or else that of the first file
  that fails alone. -/
  error : ∀ e, j.translate = .error e →
    (j.withBootstrap = true ∧ ∃ fault,
        ((Generator.fresh j.config.comments).bootstrap j.config.entry).1 = .error fault
        ∧ e = Program.blameBootstrap fault)
    ∨ ((j.withBootstrap = true → isSymbol j.config.entry = true)
      ∧ ∃ (before : List Source) (s : Source) (after : List Source) (fault : Fault),
        j.files = before ++ s :: after
        ∧ (∀ t ∈ before, ∃ code, HackVm.translate t.text t.name = .ok code)
        ∧ HackVm.translate s.text s.name = .error fault
        ∧ e = s.blame fault)

theorem modular (j : Job) : j.IsModular where
  isOk_iff := j.isOk_iff
  ok code h := by
    obtain ⟨hentry, -⟩ := j.isOk_iff.mp ⟨code, h⟩
    obtain ⟨hlist, rfl⟩ := translate_ok h
    refine ⟨j.head, j.blocks, rfl, ?_, listBlocks_length hlist, fun k s hk => ?_⟩
    · rw [head, Generator.bootstrap_fresh]
      split
      · rename_i hboot
        rw [if_pos (hentry hboot)]
      · rfl
    · obtain ⟨block, hget, hblock⟩ := listBlocks_getElem? hlist hk
      rw [Code.block_renumber] at hblock
      obtain ⟨alone, halone, rfl⟩ := except_map_ok hblock
      refine ⟨alone, fun name c hname hc => ?_, ?_⟩
      · exact Generator.fresh_translate hname (hc ▸ halone)
      · rw [hget, ← labelsAt_eq]
        rfl
  error e h := by
    have hfail := failure?_translate j
    rw [h, failure?_error, Generator.bootstrap_fresh] at hfail
    by_cases hentry : j.withBootstrap = true → isSymbol j.config.entry = true
    · -- The bootstrap can be made, so that a file is to blame.
      have hfiles : j.files.findSome? (fun s =>
          (failure? (HackVm.translate s.text s.name)).map s.blame) = some e := by
        cases hboot : j.withBootstrap with
        | false => simpa [hboot] using hfail.symm
        | true => simpa [hboot, hentry hboot] using hfail.symm
      exact .inr ⟨hentry, Program.exists_first_failing hfiles⟩
    · obtain ⟨hboot, hinvalid⟩ := Classical.not_imp.mp hentry
      have hbad : isSymbol j.config.entry = false := Bool.eq_false_iff.mpr hinvalid
      refine .inl ⟨hboot, ⟨.invalidEntry j.config.entry, .nowhere⟩, ?_, ?_⟩
      · rw [Generator.bootstrap_fresh, hbad]
        rfl
      · simpa [hboot, hbad] using hfail

end Job

end HackVm
