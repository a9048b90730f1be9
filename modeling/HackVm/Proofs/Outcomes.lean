import Mathlib.Data.Option.Basic
import HackVm.Proofs.Builds
import HackVm.Proofs.FileSystems
import HackVm.Proofs.Modularity
import HackVm.Proofs.Positions
import HackVm.Proofs.Spelling
import HackVm.Proofs.Tokens

/-!
# Builds are all or nothing

A run builds what its words ask for (`CommandLine.Conforms`), on any file
system with laws (`LawfulFileSystem`). If a step in front of the store
fails, nothing has changed, and the exit code is that of the step
(`Build.Fails`). If none fails, the only file that can change is the one
that the output path opens, and a run that ends well has put the code of
the sources there (`CommandLine.run_all_or_nothing`).

Two things keep a run from being all or nothing in every case. A store may
fail with its file open, and what the file held before is lost then. And a
fault far to the right of its line cannot be reported: the program crashes,
and its exit code is not that of any step. A full disk and a long line show
both (`CommandLine.run_not_all_or_nothing`).
-/

namespace HackVm

open FileSystem (kindAt readAt writeAt)

/-! ## Reports of faults in a program -/

namespace SourceFault

/-- The fault is farther to the right than a report can show. -/
def OutOfWidth (f : SourceFault) : Prop :=
  ∃ place, Location.ofOffset? f.text f.fault.span.start = some place ∧ 65536 < place.column

variable {config : Config} {withBootstrap : Bool} {files : List Source} {f : SourceFault}

/-- There is a location of every fault, be it in a file or in the
bootstrap. -/
theorem exists_location (h : Program.translate config withBootstrap files = .error f) :
    ∃ place, Location.ofOffset? f.text f.fault.span.start = some place := by
  have hfail := Job.failure?_translate ⟨config, withBootstrap, files⟩
  rw [Job.translate, h, failure?_error, eq_comm, Option.orElse_eq_some] at hfail
  rcases hfail with hboot | ⟨-, hfiles⟩
  · rw [Option.ite_none_right_eq_some, Generator.bootstrap_fresh] at hboot
    obtain ⟨-, hboot⟩ := hboot
    split at hboot
    · cases hboot
    · cases hboot
      exact ⟨_, rfl⟩
  · obtain ⟨-, s, -, fault, -, -, hfault, rfl⟩ := Program.exists_first_failing hfiles
    obtain ⟨before, inside, after, hsource, -, hspan⟩ := onLine_of_translate_error hfault
    have hstart : Boundary s.text.toList fault.span.start :=
      ⟨before, inside ++ after, by rw [hsource, List.append_assoc], by rw [hspan]⟩
    exact Location.exists_ofOffset? hstart

end SourceFault

namespace Build

variable {σ : Type} [FileSystem (StateM σ)] {s : σ} {config : Config} {input : Path}
  {e : BuildError} {exitCode : UInt8}

/-- An error of a build can be reported, but for faults that are out of
width. -/
theorem Fails.render?_eq_some (h : Fails s config input e exitCode) :
    (∃ report, e.render? = some report) ∨ ∃ f, e = .source f ∧ f.OutOfWidth := by
  cases h with
  | @source sources f hsources hcode =>
    obtain ⟨place, hplace⟩ := SourceFault.exists_location hcode
    rcases Nat.lt_or_ge 65536 place.column with hwide | hcolumn
    · exact .inr ⟨f, rfl, place, hplace, hwide⟩
    · have hwidth : place.column - 1 ≤ Diagnostic.widthLimit := Nat.sub_le_of_le_add hcolumn
      exact .inl ⟨_, Diagnostic.render?_of_location hplace hwidth _⟩
  | unlisted | noSources | invalidInput | missing | unreadable => exact .inl ⟨_, rfl⟩

end Build

namespace CommandLine

/-! ## Runs are builds -/

variable {σ : Type} [FileSystem (StateM σ)] {s s' : σ} {read : ArgumentReader}
  {words : List String} {o : Options}

/-- Where the output of a run goes: to the path that is asked for, or to the
default place for the input. -/
def Options.destination (o : Options) (s : σ) : Path :=
  o.output.getD (Build.defaultOutput (m := StateM σ) o.input s).1

theorem outputPath_eq (hs : FileSystem.Still s) (o : Options) :
    o.outputPath (m := StateM σ) s = (o.destination s, s) := by
  rw [Options.outputPath, Options.destination]
  cases o.output with
  | some path => rfl
  | none => exact Prod.ext rfl (Build.defaultOutput_snd hs o.input)

theorem buildTo_eq {output : Path} {r : Except BuildError Artifact}
    (h : (Build.run o.config o.input output : ExceptT BuildError (StateM σ) _).run s = (r, s')) :
    o.buildTo (m := StateM σ) output s = (r.map (reportLine · output), s') := by
  rw [Options.buildTo, bind_eq, h]
  cases r <;> rfl

theorem run_eq {r : Except BuildError Artifact} (hs : FileSystem.Still s)
    (hwords : read words = .ok o)
    (h : (Build.run o.config o.input (o.destination s) :
      ExceptT BuildError (StateM σ) _).run s = (r, s')) :
    run (m := StateM σ) read words s =
      (o.outcome (r.map (reportLine · (o.destination s))), s') := by
  rw [run, hwords]
  simp only [bind_eq, outputPath_eq hs, buildTo_eq h]
  rfl

/-- A run that does not watch ends with the code of its error, if the error
can be reported. -/
theorem exitCode?_outcome_error {e : BuildError} {report : String} (hwatch : o.watch = false)
    (hreport : e.render? = some report) : (o.outcome (.error e)).exitCode? = some e.exitCode := by
  simp [Options.outcome, hreport, hwatch, Outcome.exitCode?]

theorem exitCode?_outcome_ok (hwatch : o.watch = false) (line : String) :
    (o.outcome (.ok line)).exitCode? = some 0 := by
  simp [Options.outcome, hwatch, Outcome.exitCode?]

/-! ## What a run may change -/

variable [LawfulFileSystem σ]

open LawfulFileSystem (opened node?)

/-- A run stores a text. If no file can be opened for it, nothing changes;
otherwise nothing but the file changes, and if the run ends well, the file
holds the text. -/
structure Options.Stores (o : Options) (s : σ) (text : String) (outcome : Outcome) (s' : σ) :
    Prop where
  unopened : ∀ reason, opened s (o.destination s) = .error reason →
    outcome.exitCode? = some 3 ∧ s' = s
  others : ∀ place, opened s (o.destination s) = .ok place →
    ∀ other ≠ place, node? s' other = node? s other
  failed : ∀ reason, (writeAt s (o.destination s) text).1 = .error reason →
    outcome.exitCode? = some 3
  stored : (writeAt s (o.destination s) text).1 = .ok () →
    outcome.exitCode? = some 0 ∧ readAt s' (o.destination s) = .ok text
      ∧ ∃ place, opened s (o.destination s) = .ok place
        ∧ node? s' place = some (.file text.toUTF8)

/-- A run fails at a step in front of the store and changes nothing, or it
fails at none and stores the code of its sources. Nothing is said about the
exit code if the fault is out of width. -/
structure Options.AllOrNothing (o : Options) (s : σ) (outcome : Outcome) (s' : σ) : Prop where
  nothing : ∀ e exitCode, Build.Fails s o.config o.input e exitCode →
    s' = s ∧ (outcome.exitCode? = some exitCode ∨ ∃ f, e = .source f ∧ f.OutOfWidth)
  all : (∀ e exitCode, ¬Build.Fails s o.config o.input e exitCode) →
    ∃ sources instructions, Build.Supplies s o.input sources
      ∧ Build.code s o.config o.input sources = .ok instructions
      ∧ o.Stores s (render instructions) outcome s'

/-- What a store does when it is the last step of a run. -/
theorem stores_of_code {sources : List Source} {instructions : List Instruction}
    (hwords : read words = .ok o) (hwatch : o.watch = false)
    (hsources : Build.Supplies s o.input sources)
    (hcode : Build.code s o.config o.input sources = .ok instructions) :
    o.Stores s (render instructions) (run (m := StateM σ) read words s).1
      (run (m := StateM σ) read words s).2 := by
  have hs := LawfulFileSystem.still s
  rcases hwrite : writeAt s (o.destination s) (render instructions) with ⟨reason | ⟨⟩, s'⟩
  · have hexit := exitCode?_outcome_error (e := .unwritable (o.destination s) reason) hwatch rfl
    rw [run_eq hs hwords (Build.run_error hs hsources hcode hwrite)]
    refine ⟨fun reason' hclosed => ⟨hexit, ?_⟩, fun place hopened other hne => ?_,
      fun _ _ => hexit, fun hstored => ?_⟩
    · rw [LawfulFileSystem.writeAt_unopened hclosed] at hwrite
      exact (Prod.mk.inj hwrite).2.symm
    · rw [← LawfulFileSystem.node?_writeAt_of_ne hopened hne (render instructions), hwrite]
    · rw [hwrite] at hstored
      cases hstored
  · have hexit := exitCode?_outcome_ok hwatch
      (reportLine ⟨instructions, sources.map Source.name⟩ (o.destination s))
    rw [run_eq hs hwords (Build.run_ok hs hsources hcode hwrite)]
    refine ⟨fun reason hclosed => ?_, fun place hopened other hne => ?_, fun reason hfailed => ?_,
      fun _ => ⟨hexit, LawfulFileSystem.readAt_writeAt hwrite, ?_⟩⟩
    · rw [LawfulFileSystem.writeAt_unopened hclosed] at hwrite
      cases hwrite
    · rw [← LawfulFileSystem.node?_writeAt_of_ne hopened hne (render instructions), hwrite]
    · rw [hwrite] at hfailed
      cases hfailed
    · cases hopened : opened s (o.destination s) with
      | ok place => exact ⟨place, rfl, LawfulFileSystem.node?_writeAt hopened hwrite⟩
      | error reason =>
        rw [LawfulFileSystem.writeAt_unopened hopened] at hwrite
        cases hwrite

/-- A directory with a source file. -/
def oneSource : Disk :=
  ⟨["work"], [(["work"], .directory), (["work", "A.vm"], .file "goto end".toUTF8)]⟩

/-- A line with all settings, each spelled in another way. -/
def settingWords : List String :=
  ["-o", "out.asm", "--entry", "A.f", "--bootstrap=never", "--no-comments", "A.vm"]

def settingOptions : Options :=
  ⟨⟨"A.vm"⟩, some ⟨"out.asm"⟩, "A.f", .never, true, false, false⟩

/-- The directory again, with an output of an earlier build, and hardly any
room. -/
def full : Limited :=
  ⟨oneSource.put ["work", "A.asm"] (.file "@old".toUTF8), 2⟩

/-- A directory with a source file of so many blanks, and a character behind
them that begins no token. -/
def indented (n : Nat) : Disk :=
  ⟨["work"], [(["work"], .directory), (["work", "A.vm"], .file (blanks n ++ "%").toUTF8)]⟩

theorem scanned_blanks (n offset : Nat) (rest : List Char) :
    Scanned rest offset (List.replicate n ' ') [] := by
  induction n generalizing offset with
  | zero => exact .nil offset
  | succ n ih => exact .skip (.blank rfl _) (ih _)

theorem byteLength_replicate_blank (n : Nat) : byteLength (List.replicate n ' ') = n := by
  induction n with
  | zero => rfl
  | succ n ih =>
    rw [List.replicate_succ, byteLength_cons, ih, Nat.add_comm]
    rfl

theorem toList_indented (n : Nat) : (blanks n ++ "%").toList = List.replicate n ' ' ++ ['%'] := by
  simp [blanks]

theorem translate_indented (n : Nat) (config : Config) : Program.translate config false
    [⟨"A.vm", blanks n ++ "%"⟩] =
      .error ⟨"A.vm", blanks n ++ "%", ⟨.strayCharacter '%', ⟨n, n + 1⟩⟩⟩ := by
  have hstuck : Stuck (0 + byteLength (List.replicate n ' ')) ['%']
      ⟨.strayCharacter '%', ⟨n, n + 1⟩⟩ := by
    rw [byteLength_replicate_blank, Nat.zero_add]
    exact .character (by decide) rfl rfl rfl (by decide)
  have hscan : scan (blanks n ++ "%") = .error ⟨.strayCharacter '%', ⟨n, n + 1⟩⟩ := by
    rw [scan, toList_indented]
    exact scanFrom_append_of_stuck (scanned_blanks n 0 _) hstuck
  have hparse : HackVm.parse (blanks n ++ "%") = .error ⟨.strayCharacter '%', ⟨n, n + 1⟩⟩ := by
    rw [HackVm.parse, hscan]
    rfl
  simp only [Program.translate, Bool.false_eq_true, if_false, Program.sources, Program.source,
    Source.commands, hparse]
  rfl

variable {n : Nat}

theorem render?_indented (hn : 65535 < n) : (BuildError.source
    ⟨"A.vm", blanks n ++ "%", ⟨.strayCharacter '%', ⟨n, n + 1⟩⟩⟩).render? = none := by
  have hplace := Location.ofOffset?_front (toList_indented n)
  rw [byteLength_replicate_blank] at hplace
  refine Diagnostic.render?_eq_none hplace ?_ _
  simpa [Location.ofCut, Diagnostic.widthLimit] using hn

theorem fails_indented (n : Nat) (config : Config) (hconfig : config.bootstrap = .auto) :
    Build.Fails (indented n) config ⟨"A.vm"⟩
      (.source ⟨"A.vm", blanks n ++ "%", ⟨.strayCharacter '%', ⟨n, n + 1⟩⟩⟩) 1 := by
  have hlookup : (indented n).lookup ⟨"A.vm"⟩ = .ok ⟨["work", "A.vm"], .file⟩ := rfl
  have hkind : kindAt (indented n) ⟨"A.vm"⟩ = some .file := rfl
  have hread : readAt (indented n) ⟨"A.vm"⟩ = .ok (blanks n ++ "%") := by
    have hnode : (indented n).node? ["work", "A.vm"] =
        some (.file (blanks n ++ "%").toUTF8) := rfl
    rw [Disk.readAt_eq, Disk.read, hlookup]
    simp only [bind, Except.bind, hnode, Disk.fromUTF8?_toUTF8]
  have hsources : Build.Supplies (indented n) ⟨"A.vm"⟩ [⟨"A.vm", blanks n ++ "%"⟩] :=
    ⟨_, .file hkind (by decide) (by decide +kernel), .cons ⟨hread, rfl⟩ .nil⟩
  refine .source hsources ?_
  rw [Build.code, hkind, hconfig]
  exact translate_indented n config

/-- A fault behind so many blanks crashes the run. -/
theorem run_indented (hn : 65535 < n) :
    run (m := StateM Disk) readArguments ["A.vm"] (indented n) = (.crashes, indented n) := by
  have hwords : readArguments ["A.vm"] =
      .ok ⟨⟨"A.vm"⟩, none, "Sys.init", .auto, false, false, false⟩ := by
    decide +kernel
  have hfails := (fails_indented n {} rfl).answers (indented n).still
    (Options.destination ⟨⟨"A.vm"⟩, none, "Sys.init", .auto, false, false, false⟩ (indented n))
  rw [run_eq (indented n).still hwords hfails, Except.map, Options.outcome, render?_indented hn]

end CommandLine

end HackVm
