import HackVm.Proofs.Alignment
import HackVm.Proofs.Layout

/-!
# What the name of a file is for

The name of a file reaches its code through static cells only. A row of
commands is translated under two names side by side: whatever a command
that is no static one makes is the same, and a static command makes a
block in which one instruction loads another symbol (`Code.Twins`). What
is handed on to the next command is the same in both runs, so this goes
through whole files (`Generator.translateAll_twins`).

Under names that are no symbols a static command fails, and the name is in
the message. No other command asks what the name is like.
-/

namespace HackVm

/-! ## Blocks -/

namespace Code

/-- The blocks of a command in two files: the same block, or, for a static
command, blocks that differ in the instruction that loads the symbol of
the cell. -/
inductive Twins (file file' : String) : Command → List Instruction → List Instruction → Prop
  | same {c : Command} (block : List Instruction) (h : c.static? = none) :
    Twins file file' c block block
  | static {c : Command} {index : UInt16} (h : c.static? = some index)
      (front back : List Instruction) :
    Twins file file' c (front ++ .loadSymbol (Cell.staticSymbol file index) :: back)
      (front ++ .loadSymbol (Cell.staticSymbol file' index) :: back)

/-- The commands have code in two files, which is block by block the
same but for the symbols of static cells. -/
inductive Rows (file file' : String) (comments : Bool) :
    Labels → List Command → List Instruction → List Instruction → Prop
  | nil (l : Labels) : Rows file file' comments l [] [] []
  | cons {l : Labels} {c : Command} {rest : List Command}
      {block block' more more' : List Instruction}
      (hblock : Code.block file comments l c = .ok block)
      (hblock' : Code.block file' comments l c = .ok block')
      (htwins : Twins file file' c block block')
      (hrest : Rows file file' comments (l.after c) rest more more') :
    Rows file file' comments l (c :: rest) (block ++ more) (block' ++ more')

variable {file file' : String} {comments : Bool} {l : Labels} {c : Command} {cs : List Command}
  {block block' code code' : List Instruction}

theorem Twins.append (s t : List Instruction) (h : Twins file file' c block block') :
    Twins file file' c (s ++ block ++ t) (s ++ block' ++ t) := by
  cases h with
  | same block h => exact .same _ h
  | static h front back =>
    have hstatic : Twins file file' c _ _ := .static h (s ++ front) (back ++ t)
    simpa using hstatic

/-- Without static commands, the code is the same. -/
theorem Rows.eq_of_static?_none (hnone : ∀ c ∈ cs, c.static? = none)
    (h : Rows file file' comments l cs code code') : code = code' := by
  induction h with
  | nil => rfl
  | cons _ _ htwins _ ih =>
    obtain ⟨hc, hrest⟩ := List.forall_mem_cons.mp hnone
    cases htwins with
    | same block _ => rw [ih hrest]
    | static h => cases hc.symm.trans h

/-- Only a static cell is resolved by the name of the file. -/
theorem resolve_of_ne_static {s : Segment} (h : s ≠ .static) (index : UInt16) (c : Command) :
    Cell.resolve file s index c = Cell.resolve file' s index c := by
  cases s with
  | static => exact absurd rfl h
  | _ => rfl

theorem ofCommand_of_static?_none (h : c.static? = none) (l : Labels) :
    ofCommand file l c = ofCommand file' l c := by
  cases c with
  | push s index =>
    have hs : s ≠ .static := by rintro rfl; cases h
    rw [ofCommand, ofCommand, resolve_of_ne_static hs]
  | pop s index =>
    have hs : s ≠ .static := by rintro rfl; cases h
    rw [ofCommand, ofCommand, resolve_of_ne_static hs]
  | _ => rfl

/-- A static command has code in files whose names are symbols. -/
theorem ofCommand_static {index : UInt16} (hfile : isSymbol file = true)
    (hfile' : isSymbol file' = true) (h : c.static? = some index) (l : Labels) :
    ∃ block block', ofCommand file l c = .ok block ∧ ofCommand file' l c = .ok block'
      ∧ Twins file file' c block block' := by
  cases c with
  | push s i =>
    cases s <;> cases h
    rw [ofCommand, ofCommand, resolve_static_ok hfile, resolve_static_ok hfile']
    exact ⟨_, _, rfl, rfl, .static rfl [] ([.assign .d .m] ++ pushD)⟩
  | pop s i =>
    cases s <;> cases h
    rw [ofCommand, ofCommand, resolve_static_ok hfile, resolve_static_ok hfile']
    exact ⟨_, _, rfl, rfl, .static rfl popD [.assign .m .d]⟩
  | _ => cases h

/-- A command has twin blocks in two files, or it has none in either and
for the same cause. -/
theorem block_twins (hnames : c.static? ≠ none → isSymbol file = true ∧ isSymbol file' = true)
    (comments : Bool) (l : Labels) :
    (∃ cause, Code.block file comments l c = .error cause
        ∧ Code.block file' comments l c = .error cause)
      ∨ ∃ block block', Code.block file comments l c = .ok block
        ∧ Code.block file' comments l c = .ok block' ∧ Twins file file' c block block' := by
  rw [Code.block, Code.block]
  cases hstatic : c.static? with
  | none =>
    have hsame : ofCommand file l c = ofCommand file' l c := ofCommand_of_static?_none hstatic l
    rw [hsame]
    cases ofCommand file' l c with
    | error cause => exact .inl ⟨cause, rfl, rfl⟩
    | ok block => exact .inr ⟨_, _, rfl, rfl, .same _ hstatic⟩
  | some index =>
    obtain ⟨hfile, hfile'⟩ := hnames (by rw [hstatic]; exact nofun)
    obtain ⟨block, block', hblock, hblock', htwins⟩ := ofCommand_static hfile hfile' hstatic l
    rw [hblock, hblock']
    exact .inr ⟨_, _, rfl, rfl, by simpa using htwins.append (remark comments c.text) []⟩

end Code

/-! ## Files -/

/-- Two runs that differ in the name of the file fail at the same command,
or they make the same code but for the symbols of static cells. -/
theorem Generator.translateAll_twins {file file' : String} {cs : List (Located Command)}
    (hnames : ∀ c ∈ cs, c.node.static? ≠ none → isSymbol file = true ∧ isSymbol file' = true)
    (g : Generator) :
    Agree Eq (Code.Rows file file' g.comments g.labels (cs.map Located.node))
      (({ g with file := file }).translateAll cs).1
      (({ g with file := file' }).translateAll cs).1 := by
  induction cs generalizing g with
  | nil => exact .ok (.nil _)
  | cons c rest ih =>
    obtain ⟨hc, hrest⟩ := List.forall_mem_cons.mp hnames
    rw [translateAll_cons, translateAll_cons]
    rcases Code.block_twins hc g.comments g.labels with
      ⟨cause, hblock, hblock'⟩ | ⟨block, block', hblock, hblock', htwins⟩
    · rw [hblock, hblock']
      exact .error cause rfl
    · rw [hblock, hblock']
      exact (ih hrest (g.after c.node)).map fun _ _ hmore => .cons hblock hblock' htwins hmore

/-- Codes of a source in two files, the same but for the symbols of static
cells. -/
def SameButStatics (text file file' : String) (code code' : List Instruction) : Prop :=
  ∃ cs, parse text = .ok cs
    ∧ Code.Rows file file' true {} (cs.map Located.node) code code'

theorem translate_twins {text name name' : String}
    (hnames : ∀ cs, parse text = .ok cs → ∀ c ∈ cs, c.node.static? ≠ none →
      isSymbol (baseName name) = true ∧ isSymbol (baseName name') = true) :
    Agree Eq (SameButStatics text (baseName name) (baseName name'))
      (translate text name) (translate text name') := by
  rw [translate, translate]
  cases hcs : parse text with
  | error fault => exact .error fault.cause rfl
  | ok cs =>
    have hrows := Generator.translateAll_twins (hnames cs hcs) {}
    exact hrows.imp fun _ _ hcode => ⟨cs, hcs, hcode⟩

/-- A source without static commands is translated the same under any
names. Under names whose base names are symbols, any source has the same
mistake, or code that is the same but for the symbol that the block of
each static command loads. -/
theorem translate_renamed (text name name' : String) :
    ((∀ cs, parse text = .ok cs → ∀ c ∈ cs, c.node.static? = none) →
        translate text name = translate text name')
      ∧ (isSymbol (baseName name) = true → isSymbol (baseName name') = true →
        Agree Eq (SameButStatics text (baseName name) (baseName name'))
          (translate text name) (translate text name')) := by
  constructor
  · intro hnone
    have htwins : Agree Eq (SameButStatics text (baseName name) (baseName name'))
        (translate text name) (translate text name') :=
      translate_twins fun cs hcs c hc hstatic => absurd (hnone cs hcs c hc) hstatic
    refine (htwins.imp ?_).eq
    rintro code code' ⟨cs, hcs, hrows⟩
    refine hrows.eq_of_static?_none fun c hc => ?_
    obtain ⟨located, hmem, rfl⟩ := List.mem_map.mp hc
    exact hnone cs hcs located hmem
  · exact fun hname hname' => translate_twins fun _ _ _ _ _ => ⟨hname, hname'⟩

/-- A label that is called like a static cell stays when the cell does
not. -/
theorem translate_renamed_label :
    translate "goto A.3" "" = translate "goto A.3" "1-2.vm"
      ∧ isSymbol (baseName "lib/A.vm") = true ∧ isSymbol (baseName "B.vm") = true
      ∧ Agree Eq (SameButStatics "goto A.3\npop static 3" "A" "B")
        (translate "goto A.3\npop static 3" "lib/A.vm") (translate "goto A.3\npop static 3" "B.vm")
      ∧ Except.map render (translate "goto A.3\npop static 3" "B.vm") =
        .ok "// goto A.3\n@A.3\n0;JMP\n// pop static 3\n@SP\nM=M-1\n@SP\nA=M\nD=M\n@B.3\nM=D\n" := by
  have hparse : parse "goto A.3" = .ok [⟨.goto "A.3", ⟨0, 8⟩, 1⟩] := by decide +kernel
  have hnone : ∀ cs, parse "goto A.3" = .ok cs → ∀ c ∈ cs, c.node.static? = none := by
    intro cs hcs c hc
    obtain rfl := Except.ok.inj (hparse.symm.trans hcs)
    rw [List.mem_singleton.mp hc]
    rfl
  have hname : isSymbol (baseName "lib/A.vm") = true := by decide +kernel
  have hname' : isSymbol (baseName "B.vm") = true := by decide +kernel
  have hbase : baseName "lib/A.vm" = "A" := by decide +kernel
  have hbase' : baseName "B.vm" = "B" := by decide +kernel
  have hrenamed := (translate_renamed "goto A.3\npop static 3" "lib/A.vm" "B.vm").2 hname hname'
  rw [hbase, hbase'] at hrenamed
  exact ⟨(translate_renamed "goto A.3" "" "1-2.vm").1 hnone, hname, hname', hrenamed,
    by decide +kernel⟩

end HackVm
