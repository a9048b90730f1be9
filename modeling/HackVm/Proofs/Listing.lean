import HackVm.Program
import HackVm.Proofs.Results

/-!
# The listing of a program

A translated program is the bootstrap, if there is one, and then one block
for each command of each file, in order. `Job.blocks` lists these blocks
without a generator: the only thing that is handed from one command to the
next is how many labels are in use.

`Job.translate_ok` ties the listing to the translation. All that is proved
about whole programs goes through it, so nothing else looks at the state
of a generator.
-/

namespace HackVm

/-- A command and the name of the file that it stands in. -/
structure Site where
  name : String
  command : Command
deriving DecidableEq

def Site.file (s : Site) : String := baseName s.name

/-- The commands of a source; there are none in a faulty one. -/
def Source.sites (s : Source) : List Site :=
  match parse s.text with
  | .ok commands => commands.map fun c => ⟨s.name, c.node⟩
  | .error _ => []

def Labels.behind (l : Labels) (sites : List Site) : Labels :=
  sites.foldl (fun l s => l.after s.command) l

@[simp] theorem Labels.behind_cons (l : Labels) (s : Site) (rest : List Site) :
    l.behind (s :: rest) = (l.after s.command).behind rest := rfl

/-! ## Blocks of a row of commands -/

/-- The blocks of a row of commands, with some labels in use before it. -/
def listBlocks (comments : Bool) : Labels → List Site → Except Cause (List (List Instruction))
  | _, [] => .ok []
  | l, s :: rest =>
    (Code.block s.file comments l s.command).bind fun block =>
      (listBlocks comments (l.after s.command) rest).map (block :: ·)

section ListBlocks

variable {comments : Bool} {l : Labels} {s : Site} {rest sites : List Site}
  {block : List Instruction} {blocks : List (List Instruction)}

theorem listBlocks_cons_ok :
    listBlocks comments l (s :: rest) = .ok blocks ↔
      ∃ block more, Code.block s.file comments l s.command = .ok block
        ∧ listBlocks comments (l.after s.command) rest = .ok more ∧ blocks = block :: more := by
  constructor
  · intro h
    obtain ⟨block, hblock, h⟩ := except_bind_ok h
    obtain ⟨more, hmore, rfl⟩ := except_map_ok h
    exact ⟨block, more, hblock, hmore, rfl⟩
  · rintro ⟨block, more, hblock, hmore, rfl⟩
    rw [listBlocks, hblock, hmore]
    rfl

theorem listBlocks_append_ok {t : List Site} {more : List (List Instruction)}
    (hs : listBlocks comments l sites = .ok blocks)
    (ht : listBlocks comments (l.behind sites) t = .ok more) :
    listBlocks comments l (sites ++ t) = .ok (blocks ++ more) := by
  induction sites generalizing l blocks with
  | nil =>
    obtain rfl := Except.ok.inj hs
    exact ht
  | cons s rest ih =>
    obtain ⟨block, bs, hblock, hrest, rfl⟩ := listBlocks_cons_ok.mp hs
    exact listBlocks_cons_ok.mpr ⟨block, bs ++ more, hblock, ih hrest ht, rfl⟩

/-- The block of a command depends on the commands before it through the
labels in use only. -/
theorem listBlocks_getElem? (h : listBlocks comments l sites = .ok blocks) {k : Nat}
    (hk : sites[k]? = some s) :
    ∃ block, blocks[k]? = some block
      ∧ Code.block s.file comments (l.behind (sites.take k)) s.command = .ok block := by
  induction sites generalizing l blocks k with
  | nil => cases hk
  | cons s' rest ih =>
    obtain ⟨block, more, hblock, hrest, rfl⟩ := listBlocks_cons_ok.mp h
    cases k with
    | zero =>
      obtain rfl := Option.some.inj hk
      exact ⟨block, rfl, hblock⟩
    | succ k => exact ih hrest hk

theorem listBlocks_length (h : listBlocks comments l sites = .ok blocks) :
    blocks.length = sites.length := by
  induction sites generalizing l blocks with
  | nil =>
    obtain rfl := Except.ok.inj h
    rfl
  | cons s rest ih =>
    obtain ⟨block, more, -, hrest, rfl⟩ := listBlocks_cons_ok.mp h
    rw [List.length_cons, List.length_cons, ih hrest]

end ListBlocks

/-! ## The generator makes the listing -/

theorem Generator.translate_ok {g g' : Generator} {c : Located Command}
    {code : List Instruction} (h : g.translate c = (.ok code, g')) :
    Code.block g.file g.comments g.labels c.node = .ok code ∧ g' = g.after c.node := by
  rw [Generator.translate] at h
  cases hblock : Code.block g.file g.comments g.labels c.node with
  | error cause =>
    rw [hblock] at h
    cases h
  | ok block =>
    rw [hblock] at h
    cases h
    exact ⟨rfl, rfl⟩

namespace Generator

variable {g : Generator} {c : Located Command} {cs rest : List (Located Command)}
  {code : List Instruction}

theorem translateAll_cons (g : Generator) (c : Located Command) (rest : List (Located Command)) :
    (g.translateAll (c :: rest)).1 =
      ((Code.block g.file g.comments g.labels c.node).mapError (⟨·, c.span⟩)).bind fun block =>
        ((g.after c.node).translateAll rest).1.map (block ++ ·) := by
  rw [translateAll, translate]
  cases Code.block g.file g.comments g.labels c.node with
  | error cause => rfl
  | ok block =>
    dsimp only
    rcases (g.after c.node).translateAll rest with ⟨fault | more, g₂⟩ <;> rfl

theorem translateAll_cons_ok :
    (g.translateAll (c :: rest)).1 = .ok code ↔
      ∃ block more, Code.block g.file g.comments g.labels c.node = .ok block
        ∧ ((g.after c.node).translateAll rest).1 = .ok more ∧ code = block ++ more := by
  rw [translateAll_cons]
  cases Code.block g.file g.comments g.labels c.node with
  | error cause => simp [Except.mapError, Except.bind]
  | ok block =>
    cases ((g.after c.node).translateAll rest).1 <;>
      simp [Except.mapError, Except.bind, Except.map, eq_comm]

theorem translateAll_append_ok (h : (g.translateAll (cs ++ rest)).1 = .ok code) :
    ∃ front back g', (g.translateAll cs).1 = .ok front ∧ (Generator.translateAll g' rest).1 = .ok back
      ∧ code = front ++ back := by
  induction cs generalizing g code with
  | nil => exact ⟨[], code, g, rfl, h, rfl⟩
  | cons c cs ih =>
    obtain ⟨block, more, hblock, hmore, rfl⟩ := translateAll_cons_ok.mp h
    obtain ⟨front, back, g', hfront, hback, rfl⟩ := ih hmore
    exact ⟨block ++ front, back, g', translateAll_cons_ok.mpr ⟨block, front, hblock, hfront, rfl⟩,
      hback, (List.append_assoc ..).symm⟩

end Generator

/-- The code of a row of commands, and what the generator keeps of it. -/
theorem Generator.translateAll_ok {name : String} {g g' : Generator}
    {cs : List (Located Command)} {code : List Instruction} (hfile : g.file = baseName name)
    (h : g.translateAll cs = (.ok code, g')) :
    ∃ blocks, listBlocks g.comments g.labels (cs.map fun c => ⟨name, c.node⟩) = .ok blocks
      ∧ code = blocks.flatten ∧ g'.comments = g.comments
      ∧ g'.labels = g.labels.behind (cs.map fun c => ⟨name, c.node⟩) := by
  induction cs generalizing g g' code with
  | nil =>
    cases h
    exact ⟨[], rfl, rfl, rfl, rfl⟩
  | cons c rest ih =>
    rw [Generator.translateAll] at h
    rcases hc : g.translate c with ⟨_ | block, g₁⟩
    · rw [hc] at h
      cases h
    · obtain ⟨hblock, rfl⟩ := Generator.translate_ok hc
      rw [hc] at h
      rcases hrest : (g.after c.node).translateAll rest with ⟨_ | more, g₂⟩
      · simp only [hrest] at h
        cases h
      · simp only [hrest] at h
        cases h
        obtain ⟨blocks, hblocks, rfl, hcomments, hlabels⟩ := ih (g := g.after c.node) hfile hrest
        rw [hfile] at hblock
        exact ⟨block :: blocks, listBlocks_cons_ok.mpr ⟨block, blocks, hblock, hblocks, rfl⟩,
          rfl, hcomments, hlabels⟩

theorem Generator.bootstrap_ok {g g' : Generator} {entry : String} {code : List Instruction}
    (h : g.bootstrap entry = (.ok code, g')) :
    isSymbol entry = true ∧ code = Code.bootstrap g.comments g.labels entry
      ∧ g' = { g with labels := g.labels.takeCall.2, started := true } := by
  rw [Generator.bootstrap] at h
  split at h
  · cases h
  · split at h
    · rename_i hentry
      cases h
      exact ⟨hentry, rfl, rfl⟩
    · cases h

theorem Program.source_ok {g g' : Generator} {s : Source} {code : List Instruction}
    (h : Program.source g s = .ok (code, g')) :
    ∃ blocks, listBlocks g.comments g.labels s.sites = .ok blocks ∧ code = blocks.flatten
      ∧ g'.comments = g.comments ∧ g'.labels = g.labels.behind s.sites := by
  obtain ⟨cs, hcs, h⟩ := except_bind_ok h
  have hparse : parse s.text = .ok cs := by
    rw [Source.commands] at hcs
    cases hp : parse s.text with
    | error fault =>
      rw [hp] at hcs
      cases hcs
    | ok cs' =>
      rw [hp] at hcs
      cases hcs
      rfl
  rcases hall : (g.setFile s.name).translateAll cs with ⟨_ | code', g₁⟩
  · simp only [hall] at h
    cases h
  · simp only [hall] at h
    cases h
    simp only [Source.sites, hparse]
    exact Generator.translateAll_ok (g := g.setFile s.name) rfl hall

theorem Program.sources_ok {g : Generator} {files : List Source} {code : List Instruction}
    (h : Program.sources g files = .ok code) :
    ∃ blocks, listBlocks g.comments g.labels (files.flatMap Source.sites) = .ok blocks
      ∧ code = blocks.flatten := by
  induction files generalizing g code with
  | nil =>
    cases h
    exact ⟨[], rfl, rfl⟩
  | cons s rest ih =>
    obtain ⟨⟨first, g₁⟩, hfirst, h⟩ := except_bind_ok h
    obtain ⟨more, hmore, h⟩ := except_bind_ok h
    cases h
    obtain ⟨blocks, hblocks, rfl, hcomments, hlabels⟩ := Program.source_ok hfirst
    obtain ⟨blocks', hblocks', rfl⟩ := ih hmore
    rw [hcomments, hlabels] at hblocks'
    exact ⟨blocks ++ blocks', listBlocks_append_ok hblocks hblocks', List.flatten_append.symm⟩

/-! ## The listing of a whole program -/

structure Job where
  config : Config
  withBootstrap : Bool
  files : List Source

namespace Job

variable (j : Job)

def translate : Except SourceFault (List Instruction) :=
  Program.translate j.config j.withBootstrap j.files

/-- The code of the program; there is none for a faulty one. -/
def output : List Instruction := (j.translate.toOption).getD []

def sites : List Site := j.files.flatMap Source.sites

/-- The code in front of all commands. -/
def head : List Instruction :=
  if j.withBootstrap then Code.bootstrap j.config.comments {} j.config.entry else []

def firstLabels : Labels :=
  if j.withBootstrap then (Labels.takeCall {}).2 else {}

/-- The blocks of the commands; there are none if a command has no block. -/
def blocks : List (List Instruction) :=
  match listBlocks j.config.comments j.firstLabels j.sites with
  | .ok blocks => blocks
  | .error _ => []

variable {j} {code : List Instruction}

theorem translate_output (h : j.translate.toOption.isSome = true) : j.translate = .ok j.output := by
  rw [output]
  cases hcode : j.translate with
  | error fault =>
    rw [hcode] at h
    cases h
  | ok code => rfl

/-- A translated program is its head and one block for each command. -/
theorem translate_ok (h : j.translate = .ok code) :
    listBlocks j.config.comments j.firstLabels j.sites = .ok j.blocks
      ∧ code = j.head ++ j.blocks.flatten := by
  have hlisted {bs : List (List Instruction)}
      (hbs : listBlocks j.config.comments j.firstLabels j.sites = .ok bs) :
      listBlocks j.config.comments j.firstLabels j.sites = .ok j.blocks ∧ bs = j.blocks := by
    simp only [blocks, hbs, and_self]
  obtain ⟨config, withBootstrap, files⟩ := j
  cases withBootstrap with
  | false =>
    obtain ⟨bs, hbs, rfl⟩ := Program.sources_ok h
    obtain ⟨hok, rfl⟩ := hlisted hbs
    exact ⟨hok, rfl⟩
  | true =>
    rw [translate, Program.translate, if_pos rfl] at h
    rcases hstart : Generator.bootstrap { comments := config.comments } config.entry with
      ⟨_ | start, g₁⟩
    · simp only [hstart] at h
      cases h
    · simp only [hstart] at h
      obtain ⟨hentry, rfl, rfl⟩ := Generator.bootstrap_ok hstart
      obtain ⟨more, hmore, rfl⟩ := except_map_ok h
      obtain ⟨bs, hbs, rfl⟩ := Program.sources_ok hmore
      obtain ⟨hok, rfl⟩ := hlisted hbs
      exact ⟨hok, rfl⟩

end Job

end HackVm
