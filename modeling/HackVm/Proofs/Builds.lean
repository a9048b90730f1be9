import HackVm.Build
import HackVm.Proofs.Answers

/-!
# Steps of a build

Everything that a build does in front of its last step is to ask: for the
kind of its input, for names, and for texts. What it finds that way is said
here about any state of any file system (`Build.Collected`,
`Build.Supplies`), and so are the ways in which it fails (`Build.Fails`).
A build fails at one of these steps, or it makes the code of its sources
(`Build.fails_or_makes`), and each case determines its answer.

The last step stores the code, and what becomes of that is up to the file
system (`Build.run_of_code`).
-/

namespace HackVm

open FileSystem (Still kindAt entriesAt readAt writeAt)

/-! ## What a build finds -/

namespace Build

section Findings

variable {σ : Type} [FileSystem (StateM σ)]

/-- The source files among the names in a directory, in order. A name counts
if the path that it makes with the directory leads to a file. -/
def sourcesAmong (s : σ) (directory : Path) (names : List String) : List String :=
  inOrder (names.filter fun name =>
    kindAt s (directory.child name) == some .file && isSourceName name)

/-- The source files that an input stands for, in the order in which they
are translated. -/
inductive Collected (s : σ) (input : Path) : List Path → Prop
  | file {kind : FileKind} (hkind : kindAt s input = some kind) (hne : kind ≠ .directory)
      (hending : input.extension? = some sourceEnding) : Collected s input [input]
  | directory {names : List String} (hkind : kindAt s input = some .directory)
      (hnames : entriesAt s input = .ok names) (hsome : sourcesAmong s input names ≠ []) :
    Collected s input ((sourcesAmong s input names).map input.child)

/-- A path leads to the text of a source, which is called after it. -/
structure Holds (s : σ) (path : Path) (source : Source) : Prop where
  text : readAt s path = .ok source.text
  name : source.name = path.fileName?.getD path.text

/-- What a build reads: the texts of all source files. -/
def Supplies (s : σ) (input : Path) (sources : List Source) : Prop :=
  ∃ paths, Collected s input paths ∧ List.Forall₂ (Holds s) paths sources

/-- The code of an input's sources. The bootstrap is part of it if the
mode asks for it with an input of this kind. -/
def code (s : σ) (config : Config) (input : Path) (sources : List Source) :
    Except SourceFault (List Instruction) :=
  Program.translate config (config.bootstrap.applies (kindAt s input = some .directory)) sources

/-- A build fails at a step in front of the last one, once all steps before
it have succeeded. The error is the one that it reports, and the number is
the exit code. -/
inductive Fails (s : σ) (config : Config) (input : Path) : BuildError → UInt8 → Prop
  | unlisted {reason : IoError} (hkind : kindAt s input = some .directory)
      (hnames : entriesAt s input = .error reason) :
    Fails s config input (.unreadable input reason) 3
  | noSources {names : List String} (hkind : kindAt s input = some .directory)
      (hnames : entriesAt s input = .ok names) (hnone : sourcesAmong s input names = []) :
    Fails s config input (.noSources input) 2
  | invalidInput (hkind : kindAt s input ≠ some .directory)
      (hending : input.extension? ≠ some sourceEnding) :
    Fails s config input (.invalidInput input) 2
  | missing (hkind : kindAt s input = none) (hending : input.extension? = some sourceEnding) :
    Fails s config input (.unreadable input .noSource) 3
  | unreadable {before after : List Path} {path : Path} {reason : IoError} {sources : List Source}
      (hpaths : Collected s input (before ++ path :: after))
      (hbefore : List.Forall₂ (Holds s) before sources) (hread : readAt s path = .error reason) :
    Fails s config input (.unreadable path reason) 3
  | source {sources : List Source} {fault : SourceFault} (hsources : Supplies s input sources)
      (hcode : code s config input sources = .error fault) :
    Fails s config input (.source fault) 1

end Findings

variable {σ : Type} [FileSystem (StateM σ)] {s : σ} {input output path : Path} {config : Config}
  {paths : List Path} {sources : List Source} {instructions : List Instruction}

theorem Fails.exitCode_eq {e : BuildError} {exitCode : UInt8}
    (h : Fails s config input e exitCode) : e.exitCode = exitCode := by
  cases h <;> rfl

/-! ## A build fails at a step or makes code -/

theorem collected_or_fails (s : σ) (config : Config) (input : Path) :
    (∃ paths, Collected s input paths) ∨ ∃ e exitCode, Fails s config input e exitCode := by
  by_cases hkind : kindAt s input = some .directory
  · cases hnames : entriesAt s input with
    | error reason => exact .inr ⟨_, _, .unlisted hkind hnames⟩
    | ok names =>
      by_cases hnone : sourcesAmong s input names = []
      · exact .inr ⟨_, _, .noSources hkind hnames hnone⟩
      · exact .inl ⟨_, .directory hkind hnames hnone⟩
  · by_cases hending : input.extension? = some sourceEnding
    · cases hfile : kindAt s input with
      | none => exact .inr ⟨_, _, .missing hfile hending⟩
      | some kind => exact .inl ⟨_, .file hfile (fun heq => hkind (heq ▸ hfile)) hending⟩
    · exact .inr ⟨_, _, .invalidInput hkind hending⟩

theorem holds_or_unreadable (s : σ) (paths : List Path) :
    (∃ sources, List.Forall₂ (Holds s) paths sources)
      ∨ ∃ before path after sources reason, paths = before ++ path :: after
        ∧ List.Forall₂ (Holds s) before sources ∧ readAt s path = .error reason := by
  induction paths with
  | nil => exact .inl ⟨[], .nil⟩
  | cons path rest ih =>
    cases hread : readAt s path with
    | error reason => exact .inr ⟨[], path, rest, [], reason, rfl, .nil, hread⟩
    | ok text =>
      have hholds : Holds s path ⟨path.fileName?.getD path.text, text⟩ := ⟨hread, rfl⟩
      rcases ih with ⟨sources, hrest⟩ | ⟨before, p, after, sources, reason, rfl, hbefore, hp⟩
      · exact .inl ⟨_, .cons hholds hrest⟩
      · exact .inr ⟨path :: before, p, after, _, reason, rfl, .cons hholds hbefore, hp⟩

theorem fails_or_makes (s : σ) (config : Config) (input : Path) :
    (∃ e exitCode, Fails s config input e exitCode)
      ∨ ∃ sources instructions, Supplies s input sources
        ∧ code s config input sources = .ok instructions := by
  -- The steps in order: each of them succeeds, or it is the one that fails.
  rcases collected_or_fails s config input with ⟨paths, hpaths⟩ | hfails
  · rcases holds_or_unreadable s paths with ⟨sources, hholds⟩ | hunreadable
    · have hsources : Supplies s input sources := ⟨paths, hpaths, hholds⟩
      cases hcode : code s config input sources with
      | error fault => exact .inl ⟨_, _, .source hsources hcode⟩
      | ok instructions => exact .inr ⟨sources, instructions, hsources, hcode⟩
    · obtain ⟨before, path, after, sources, reason, rfl, hbefore, hread⟩ := hunreadable
      exact .inl ⟨_, _, .unreadable hpaths hbefore hread⟩
  · exact .inl hfails

/-! ## The steps have these answers -/

section Steps

variable (hs : Still s)

include hs

theorem isSource_ok (directory : Path) (name : String) : Answers s (isSource directory name)
    (.ok (kindAt s (directory.child name) == some .file && isSourceName name)) :=
  .ask (hs.kind _) (.pure _)

/-- A directory stands for the source files in it, if there are any. -/
theorem collect_directory {names : List String} (hkind : kindAt s input = some .directory)
    (hnames : entriesAt s input = .ok names) : Answers s (collect input)
      (if sourcesAmong s input names = [] then .error (.noSources input)
        else .ok ((sourcesAmong s input names).map input.child)) := by
  refine .ask (hs.kind input) ?_
  rw [if_pos hkind]
  refine .ask (hs.entries input) ?_
  rw [hnames]
  refine (Answers.filterM (isSource_ok hs input) names).bind ?_
  rw [← sourcesAmong]
  cases sourcesAmong s input names with
  | nil => exact .throw _
  | cons name rest => exact .pure _

theorem collect_ok (h : Collected s input paths) : Answers s (collect input) (.ok paths) := by
  cases h with
  | file hkind hne hending =>
    refine .ask (hs.kind input) ?_
    rw [hkind, if_neg fun heq => hne (Option.some.inj heq), if_pos hending]
    exact .pure _
  | directory hkind hnames hsome =>
    have hcollect := collect_directory hs hkind hnames
    rwa [if_neg hsome] at hcollect

theorem readSource_ok {source : Source} (h : Holds s path source) :
    Answers s (readSource path) (.ok source) := by
  refine .ask (hs.read path) ?_
  rw [h.text, ← h.name]
  exact .pure source

theorem readSource_error {reason : IoError} (h : readAt s path = .error reason) :
    Answers s (readSource path) (.error (.unreadable path reason)) := by
  refine .ask (hs.read path) ?_
  rw [h]
  exact .throw _

theorem readSources_ok (h : List.Forall₂ (Holds s) paths sources) :
    Answers s (paths.mapM readSource) (.ok sources) :=
  .mapM_ok (h.imp fun _ _ => readSource_ok hs)

theorem translate_ok (hsources : Supplies s input sources)
    (hcode : code s config input sources = .ok instructions) :
    Answers s (translate config input) (.ok ⟨instructions, sources.map Source.name⟩) := by
  obtain ⟨paths, hpaths, hholds⟩ := hsources
  refine (collect_ok hs hpaths).bind ((readSources_ok hs hholds).bind (.ask (hs.kind input) ?_))
  rw [code] at hcode
  rw [hcode]
  exact .pure _

theorem translate_error {e : BuildError} {exitCode : UInt8} (h : Fails s config input e exitCode) :
    Answers s (translate config input) (.error e) := by
  cases h with
  | unlisted hkind hnames =>
    refine .bind_error (.ask (hs.kind input) ?_)
    rw [if_pos hkind]
    refine .ask (hs.entries input) ?_
    rw [hnames]
    exact .throw _
  | noSources hkind hnames hnone =>
    have hcollect := collect_directory hs hkind hnames
    rw [if_pos hnone] at hcollect
    exact hcollect.bind_error
  | invalidInput hkind hending =>
    refine .bind_error (.ask (hs.kind input) ?_)
    rw [if_neg hkind, if_neg hending]
    exact .throw _
  | missing hkind hending =>
    refine .bind_error (.ask (hs.kind input) ?_)
    rw [hkind, if_neg nofun, if_pos hending]
    exact .throw _
  | unreadable hpaths hbefore hread =>
    refine (collect_ok hs hpaths).bind (.bind_error ?_)
    exact .mapM_error (hbefore.imp fun _ _ => readSource_ok hs) (readSource_error hs hread)
  | source hsources hcode =>
    obtain ⟨paths, hpaths, hholds⟩ := hsources
    refine (collect_ok hs hpaths).bind ((readSources_ok hs hholds).bind (.ask (hs.kind input) ?_))
    rw [code] at hcode
    rw [hcode]
    exact .throw _

/-- A step that fails ends the build. -/
theorem Fails.answers {e : BuildError} {exitCode : UInt8} (h : Fails s config input e exitCode)
    (output : Path) : Answers s (run config input output) (.error e) :=
  (translate_error hs h).bind_error

/-- The result of a build whose code has been made is up to its store. -/
theorem run_of_code (hsources : Supplies s input sources)
    (hcode : code s config input sources = .ok instructions) :
    (run config input output : ExceptT BuildError (StateM σ) Artifact).run s =
      match writeAt s output (render instructions) with
      | (.ok (), s') => (.ok ⟨instructions, sources.map Source.name⟩, s')
      | (.error reason, s') => (.error (.unwritable output reason), s') := by
  have hlift : (liftM (FileSystem.write output (render instructions) : StateM σ _) :
      ExceptT BuildError (StateM σ) (Except IoError Unit)).run s =
        (.ok (writeAt s output (render instructions)).1,
          (writeAt s output (render instructions)).2) := rfl
  rw [run, (translate_ok hs hsources hcode).run_then, Answers.run_bind, store, Answers.run_bind,
    hlift]
  rcases writeAt s output (render instructions) with ⟨reason | ⟨⟩, s'⟩ <;> rfl

theorem run_ok {s' : σ} (hsources : Supplies s input sources)
    (hcode : code s config input sources = .ok instructions)
    (hwrite : writeAt s output (render instructions) = (.ok (), s')) :
    (run config input output : ExceptT BuildError (StateM σ) Artifact).run s =
      (.ok ⟨instructions, sources.map Source.name⟩, s') := by
  rw [run_of_code hs hsources hcode, hwrite]

theorem run_error {s' : σ} {reason : IoError} (hsources : Supplies s input sources)
    (hcode : code s config input sources = .ok instructions)
    (hwrite : writeAt s output (render instructions) = (.error reason, s')) :
    (run config input output : ExceptT BuildError (StateM σ) Artifact).run s =
      (.error (.unwritable output reason), s') := by
  rw [run_of_code hs hsources hcode, hwrite]

/-- A build that succeeds has stored the code of its sources. -/
theorem made_of_run {artifact : Artifact} {s' : σ}
    (h : (run config input output : ExceptT BuildError (StateM σ) Artifact).run s =
      (.ok artifact, s')) :
    ∃ sources instructions, Supplies s input sources
      ∧ code s config input sources = .ok instructions
      ∧ artifact = ⟨instructions, sources.map Source.name⟩
      ∧ writeAt s output (render instructions) = (.ok (), s') := by
  rcases fails_or_makes s config input with
    ⟨e, exitCode, hfails⟩ | ⟨sources, instructions, hsources, hcode⟩
  · cases (Prod.mk.inj (h.symm.trans (hfails.answers hs output))).1
  · rw [run_of_code hs hsources hcode] at h
    rcases hwrite : writeAt s output (render instructions) with ⟨reason | ⟨⟩, s₁⟩
    · rw [hwrite] at h
      cases (Prod.mk.inj h).1
    · rw [hwrite] at h
      obtain ⟨hartifact, rfl⟩ := Prod.mk.inj h
      exact ⟨sources, instructions, hsources, hcode, (Except.ok.inj hartifact).symm, hwrite⟩

/-- Asking for the default place of the output changes nothing. -/
theorem defaultOutput_snd (input : Path) : (defaultOutput (m := StateM σ) input s).2 = s := by
  rw [defaultOutput, bind_eq, hs.kind]
  rcases kindAt s input with - | - | - | -
  · rfl
  · rfl
  · exact hs.locate input
  · rfl

end Steps

end Build

end HackVm
