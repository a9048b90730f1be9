import HackVm.Proofs.Modularity

/-!
# Comments

Comments can be wanted or not, and nothing else about a translation
depends on it. Every command has the same code in both cases, and the code
itself never holds a comment (`Code.remarks_ofCommand`); where comments
are wanted, one that repeats the command is put in front of it. Whether
the code exists does not depend on the comments either, because a fault is
found in the command and its file alone.

So the two translations of a program fail alike, or they list the same
bodies, once behind comments and once without (`Job.comments_transparent`).
-/

namespace HackVm

/-! ## The comments of a program -/

def Instruction.remark? : Instruction → Option String
  | comment text => some text
  | _ => none

namespace Assembly

/-- The texts of the comments in a program, in order. -/
def remarks (code : List Instruction) : List String := code.filterMap Instruction.remark?

/-- A program without its comments. -/
def bare (code : List Instruction) : List Instruction := code.filter fun i => !i.isComment

@[simp] theorem remarks_append (s t : List Instruction) :
    remarks (s ++ t) = remarks s ++ remarks t :=
  List.filterMap_append

@[simp] theorem bare_append (s t : List Instruction) : bare (s ++ t) = bare s ++ bare t :=
  List.filter_append ..

theorem remarks_eq_nil {code : List Instruction} :
    remarks code = [] ↔ ∀ i ∈ code, i.isComment = false := by
  rw [remarks, List.filterMap_eq_nil_iff]
  refine forall_congr' fun i => imp_congr_right fun _ => ?_
  cases i <;> simp [Instruction.remark?, Instruction.isComment]

theorem bare_of_no_remarks {code : List Instruction} (h : remarks code = []) :
    bare code = code := by
  refine List.filter_eq_self.mpr fun i hi => ?_
  rw [remarks_eq_nil.mp h i hi]
  rfl

end Assembly

open Assembly

/-! ## The code of a command holds no comment -/

namespace Code

theorem remarks_push (cell : Cell) : remarks (push cell) = [] := by
  cases cell <;> rfl

theorem remarks_pop {c : Command} {cell : Cell} {block : List Instruction}
    (h : pop c cell = .ok block) : remarks block = [] := by
  cases cell <;> cases h <;> rfl

theorem remarks_function (name : String) (locals : UInt16) :
    remarks (function name locals) = [] := by
  have hzeros : ∀ n, remarks (List.replicate n (loadD 0 ++ pushD)).flatten = [] := by
    intro n
    induction n with
    | zero => rfl
    | succ n ih =>
      rw [List.replicate_succ, List.flatten_cons, remarks_append, ih]
      rfl
  exact hzeros locals.toNat

theorem remarks_ofCommand {file : String} {l : Labels} {c : Command} {body : List Instruction}
    (h : ofCommand file l c = .ok body) : remarks body = [] := by
  cases c with
  | push s index =>
    obtain ⟨cell, -, rfl⟩ := except_map_ok h
    exact remarks_push cell
  | pop s index =>
    obtain ⟨cell, -, hpop⟩ := except_bind_ok h
    exact remarks_pop hpop
  | operate op =>
    obtain rfl := Except.ok.inj h
    cases op <;> rfl
  | function name locals =>
    obtain rfl := Except.ok.inj h
    exact remarks_function name locals
  | call name args =>
    obtain rfl := ofCommand_call h
    rfl
  | _ =>
    obtain rfl := Except.ok.inj h
    rfl

theorem block_plain (file : String) (l : Labels) (c : Command) :
    block file false l c = ofCommand file l c :=
  congrFun Except.map_id _

theorem block_commented {file : String} {l : Labels} {c : Command} {body : List Instruction}
    (h : ofCommand file l c = .ok body) :
    block file true l c = .ok (.comment c.text :: body) := by
  rw [block, h]
  rfl

end Code

/-! ## Blocks with comments in front -/

/-- Put the text of each command in front of its code. -/
def annotate (sites : List Site) (bodies : List (List Instruction)) : List Instruction :=
  (List.zipWith (fun s body => .comment s.command.text :: body) sites bodies).flatten

section Bodies

variable {l : Labels} {sites : List Site} {bodies : List (List Instruction)}

theorem remarks_bodies (h : listBlocks false l sites = .ok bodies) :
    remarks bodies.flatten = [] := by
  induction sites generalizing l bodies with
  | nil =>
    obtain rfl := Except.ok.inj h
    rfl
  | cons s rest ih =>
    obtain ⟨body, more, hbody, hmore, rfl⟩ := listBlocks_cons_ok.mp h
    rw [Code.block_plain] at hbody
    rw [List.flatten_cons, remarks_append, ih hmore, Code.remarks_ofCommand hbody, List.nil_append]

/-- The blocks with comments are those without, each behind a comment. -/
theorem listBlocks_commented (h : listBlocks false l sites = .ok bodies) :
    ∃ blocks, listBlocks true l sites = .ok blocks ∧ blocks.flatten = annotate sites bodies := by
  induction sites generalizing l bodies with
  | nil =>
    obtain rfl := Except.ok.inj h
    exact ⟨[], rfl, rfl⟩
  | cons s rest ih =>
    obtain ⟨body, more, hbody, hmore, rfl⟩ := listBlocks_cons_ok.mp h
    rw [Code.block_plain] at hbody
    obtain ⟨blocks, hblocks, hflatten⟩ := ih hmore
    have hfirst := Code.block_commented hbody
    refine ⟨_, listBlocks_cons_ok.mpr ⟨_, blocks, hfirst, hblocks, rfl⟩, ?_⟩
    rw [List.flatten_cons, hflatten]
    rfl

theorem annotate_cons (s : Site) (body : List Instruction) :
    annotate (s :: sites) (body :: bodies) =
      .comment s.command.text :: body ++ annotate sites bodies := rfl

theorem bare_annotate (hlength : bodies.length = sites.length)
    (hnone : remarks bodies.flatten = []) : bare (annotate sites bodies) = bodies.flatten := by
  induction sites generalizing bodies with
  | nil =>
    obtain rfl := List.eq_nil_of_length_eq_zero hlength
    rfl
  | cons s rest ih =>
    obtain ⟨body, more, rfl⟩ := List.exists_cons_of_length_eq_add_one hlength
    rw [List.flatten_cons, remarks_append, List.append_eq_nil_iff] at hnone
    rw [annotate_cons, bare_append, ih (Nat.succ.inj hlength) hnone.2, List.flatten_cons]
    exact congrArg (· ++ _) (bare_of_no_remarks hnone.1)

theorem remarks_annotate (hlength : bodies.length = sites.length)
    (hnone : remarks bodies.flatten = []) :
    remarks (annotate sites bodies) = sites.map (·.command.text) := by
  induction sites generalizing bodies with
  | nil =>
    obtain rfl := List.eq_nil_of_length_eq_zero hlength
    rfl
  | cons s rest ih =>
    obtain ⟨body, more, rfl⟩ := List.exists_cons_of_length_eq_add_one hlength
    rw [List.flatten_cons, remarks_append, List.append_eq_nil_iff] at hnone
    rw [annotate_cons, remarks_append, ih (Nat.succ.inj hlength) hnone.2]
    exact congrArg (_ :: · ++ _) hnone.1

end Bodies

/-! ## A program with comments and without -/

/-- The commands of some sources, if all of them can be read. -/
theorem exists_rows {files : List Source} (h : ∀ s ∈ files, ∃ cs, parse s.text = .ok cs) :
    ∃ rows, files.mapM (fun s => parse s.text) = .ok rows
      ∧ (files.flatMap Source.sites).map Site.command = rows.flatten.map Located.node := by
  induction files with
  | nil => exact ⟨[], rfl, rfl⟩
  | cons s rest ih =>
    obtain ⟨cs, hcs⟩ := h s (List.mem_cons_self ..)
    obtain ⟨rows, hrows, hcommands⟩ := ih fun t ht => h t (List.mem_cons_of_mem _ ht)
    refine ⟨cs :: rows, ?_, ?_⟩
    · rw [List.mapM_cons, hcs, hrows]
      rfl
    · rw [List.flatMap_cons, List.map_append, hcommands, List.flatten_cons, List.map_append,
        Source.sites, hcs]
      simp

namespace Job

variable {j : Job} {full plain code : List Instruction}

/-- The same program, with comments or without. -/
def commented (j : Job) (wanted : Bool) : Job :=
  { j with config := { j.config with comments := wanted } }

theorem exists_rows (h : j.translate = .ok code) :
    ∃ rows, j.files.mapM (fun s => parse s.text) = .ok rows
      ∧ j.sites.map Site.command = rows.flatten.map Located.node := by
  refine HackVm.exists_rows fun s hs => ?_
  obtain ⟨alone, halone⟩ := (j.isOk_iff.mp ⟨code, h⟩).2 s hs
  obtain ⟨cs, hcs, -⟩ := except_bind_ok halone
  exact ⟨cs, hcs⟩

/-- What the comments in front of all commands say: those of the
bootstrap. -/
def headRemarks (j : Job) : List String :=
  if j.withBootstrap then ["bootstrap", (Code.entryCall j.config.entry).text] else []

theorem remarks_head (j : Job) : remarks (j.commented true).head = j.headRemarks := by
  obtain ⟨config, withBootstrap, files⟩ := j
  cases withBootstrap <;> rfl

theorem remarks_head_plain (j : Job) : remarks (j.commented false).head = [] := by
  obtain ⟨config, withBootstrap, files⟩ := j
  cases withBootstrap <;> rfl

theorem bare_head (j : Job) : bare (j.commented true).head = (j.commented false).head := by
  obtain ⟨config, withBootstrap, files⟩ := j
  cases withBootstrap <;> rfl

/-- Comments are no reason to fail. -/
theorem failure?_commented (j : Job) :
    failure? (j.commented true).translate = failure? (j.commented false).translate := by
  rw [failure?_translate, failure?_translate, Generator.bootstrap_fresh, Generator.bootstrap_fresh]
  cases hentry : isSymbol j.config.entry <;> simp [commented, hentry]

/-- The code of a program with comments, beside its code without. -/
structure IsCommented (j : Job) (full plain : List Instruction) : Prop where
  bare : bare full = plain
  no_comment : ∀ i ∈ plain, i.isComment = false
  /-- All files can be read, and one comment after the other repeats what
  they hold. -/
  remarks : ∃ rows, j.files.mapM (fun s => parse s.text) = .ok rows
    ∧ remarks full = j.headRemarks ++ rows.flatten.map (·.node.text)
  /-- Each comment stands right in front of the code of its command. -/
  blocks : ∃ bodies : List (List Instruction),
    plain = (j.commented false).head ++ bodies.flatten
    ∧ full = (j.commented true).head ++ annotate j.sites bodies
    ∧ bodies.length = j.sites.length
    ∧ ∀ k (s : Site), j.sites[k]? = some s → ∃ body, bodies[k]? = some body
      ∧ Code.ofCommand s.file (j.labelsAt k) s.command = .ok body

theorem isCommented (hfull : (j.commented true).translate = .ok full)
    (hplain : (j.commented false).translate = .ok plain) : j.IsCommented full plain := by
  obtain ⟨rows, hrows, hcommands⟩ := exists_rows hplain
  obtain ⟨hbodies, rfl⟩ := translate_ok hplain
  obtain ⟨hblocks, rfl⟩ := translate_ok hfull
  let bodies := (j.commented false).blocks
  have hlength : bodies.length = j.sites.length := listBlocks_length hbodies
  have hnone : Assembly.remarks bodies.flatten = [] := remarks_bodies hbodies
  -- Both listings are made of the bodies that the plain one shows.
  have hfull : (j.commented true).blocks.flatten = annotate j.sites bodies := by
    obtain ⟨blocks, hlist, hflatten⟩ := listBlocks_commented hbodies
    obtain rfl := Except.ok.inj (hblocks.symm.trans hlist)
    exact hflatten
  have htexts : j.sites.map (·.command.text) = rows.flatten.map (·.node.text) := by
    have hmapped := congrArg (List.map Command.text) hcommands
    rw [List.map_map, List.map_map] at hmapped
    exact hmapped
  rw [hfull]
  refine ⟨?_, remarks_eq_nil.mp ?_, ⟨rows, hrows, ?_⟩, bodies, rfl, rfl, hlength, fun k s hk => ?_⟩
  · rw [bare_append, bare_head, bare_annotate hlength hnone]
  · rw [remarks_append, remarks_head_plain, hnone, List.nil_append]
  · rw [remarks_append, remarks_head, remarks_annotate hlength hnone, htexts]
  · obtain ⟨body, hget, hbody⟩ := listBlocks_getElem? hbodies hk
    exact ⟨body, hget, (Code.block_plain ..).symm.trans hbody⟩

/-- With comments and without, a program fails alike, or it has the same
code but for the comments. -/
theorem comments_transparent (j : Job) :
    match (j.commented true).translate, (j.commented false).translate with
    | .ok full, .ok plain => j.IsCommented full plain
    | .error e, .error e' => e = e'
    | _, _ => False := by
  have hfail := failure?_commented j
  cases hfull : (j.commented true).translate with
  | error e =>
    cases hplain : (j.commented false).translate with
    | error e' => simpa [hfull, hplain] using hfail
    | ok plain => simp [hfull, hplain] at hfail
  | ok full =>
    cases hplain : (j.commented false).translate with
    | error e' => simp [hfull, hplain] at hfail
    | ok plain => exact isCommented hfull hplain

end Job

end HackVm
