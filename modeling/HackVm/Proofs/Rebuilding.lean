import HackVm.Proofs.OutputNames

/-!
# Building again

A build changes the directory that the next one lists, if its output goes
to the default place. The next one finds the same all the same: sources
and outputs are told apart by their endings, and a path leads to a place
of the last name in it. So the place of the output is for outputs only
(`Build.ForOutput`): it is the place of no source, and what is called as it
is not taken for one (`Build.sourcesAmong_put`). All paths lead where they
led, so the input is of the same kind and its output has the same name.

The second build therefore reads what the first one has read, makes the
same of it and stores it in the same file, which holds it already
(`Build.build_again`).
-/

namespace HackVm

open FileSystem (kindAt)

variable {d d' : Disk} {input path : Path} {paths : List Path} {place : Place}
  {content : ByteArray} {sources : List Source} {config : Config}

/-! ## Names of sources -/

namespace Build

theorem length_source (stem : String) : 2 < (stem ++ ".vm").length := by
  have hending : ".vm".length = 3 := rfl
  rw [String.length_append]
  omega

theorem source_ne_up (stem : String) : stem ++ ".vm" ≠ ".." :=
  fun heq => absurd (heq ▸ length_source stem) (by decide)

/-- A path into a directory ends in the name of a source, if the name in the
directory is one. -/
theorem name_of_child (directory : Path) (stem : String) :
    ∃ s above, (directory.child (stem ++ ".vm")).pieces.reverse.dropWhile Path.isIdle =
      (s ++ ".vm") :: above := by
  obtain ⟨slash, -, htext⟩ := directory.exists_text_child (stem ++ ".vm")
  rw [← String.append_assoc] at htext
  obtain ⟨s, hs⟩ := Path.exists_last_piece htext (by decide)
  rw [List.getLast?_eq_head?_reverse] at hs
  obtain ⟨above, hpieces⟩ := List.head?_eq_some_iff.mp hs
  refine ⟨s, above, ?_⟩
  rw [hpieces]
  refine List.dropWhile_cons_of_neg fun hidle => ?_
  have hlength := length_source s
  rcases (Bool.or_eq_true ..).mp hidle with heq | heq
  · exact absurd (beq_iff_eq.mp heq ▸ hlength) (by decide)
  · exact absurd (beq_iff_eq.mp heq ▸ hlength) (by decide)

/-- A collected path ends in the name of a source. -/
theorem name_of_collected (h : Collected d input paths) (hpath : path ∈ paths) :
    ∃ stem above, path.pieces.reverse.dropWhile Path.isIdle = (stem ++ ".vm") :: above := by
  cases h with
  | file hkind hne hending =>
    obtain rfl := List.mem_singleton.mp hpath
    obtain ⟨name, hname, hending⟩ := Option.bind_eq_some_iff.mp hending
    obtain ⟨stem, -, rfl⟩ := isSourceName_iff.mp (beq_iff_eq.mpr hending)
    obtain ⟨above, hpieces⟩ := (Path.fileName?_eq_some.mp hname).1
    exact ⟨stem, above, hpieces⟩
  | directory hkind hnames hsome =>
    obtain ⟨name, hname, rfl⟩ := List.mem_map.mp hpath
    obtain ⟨-, ⟨stem, -, rfl⟩, -⟩ := mem_sourcesAmong.mp hname
    exact name_of_child input stem

/-- A path that ends in the name of a source leads to the place of a source,
if it leads anywhere. -/
theorem place_of_name {at' : Found} {stem : String} {above : List String}
    (hpieces : path.pieces.reverse.dropWhile Path.isIdle = (stem ++ ".vm") :: above)
    (hat : d.lookup path = .ok at') : at'.place.getLast? = some (stem ++ ".vm") :=
  Disk.getLast?_of_walk hpieces (source_ne_up stem) (Disk.lookup_ok.mp hat).2.1

/-- A file can be stored at the place, and it is not called as a source. -/
structure ForOutput (d : Disk) (place : Place) : Prop where
  free : d.node? place ≠ some .directory
  name : ∀ stem, place.getLast? ≠ some (stem ++ ".vm")

/-- A default output is stored at a place for outputs. -/
theorem forOutput_of_fileAt (h : Collected d input paths)
    (hplace : d.fileAt (defaultOutput (m := StateM Disk) input d).1 = .ok place) :
    ForOutput d place := by
  obtain ⟨name, hlast, hname⟩ := exists_name_output h
  refine ⟨(Disk.fileAt_ok.mp hplace).1.free, fun stem heq => hname stem ?_⟩
  exact Option.some.inj ((Disk.getLast?_of_fileAt hplace hlast).symm.trans heq)

end Build

/-! ## What a build finds beside its output -/

namespace Disk

theorem filterMap_exchange {α : Type} {f : Place × Node → Option α}
    (h : ∀ node, f (place, node) = none) (node : Node) (nodes : List (Place × Node)) :
    (exchange place node nodes).filterMap f = nodes.filterMap f := by
  induction nodes with
  | nil => rw [exchange, List.filterMap_cons_none (h node)]
  | cons entry rest ih =>
    obtain ⟨at', old⟩ := entry
    rw [exchange]
    split
    · rename_i heq
      obtain rfl : at' = place := heq
      rw [List.filterMap_cons_none (h node), List.filterMap_cons_none (h old)]
    · rw [List.filterMap_cons, List.filterMap_cons, ih]

/-- A path leads to a file on one disk, and to the same file on the
other. -/
def Keeps (d d' : Disk) (path : Path) : Prop :=
  ∃ place content, d.lookup path = .ok ⟨place, .file⟩ ∧ d.node? place = some (.file content)
    ∧ d'.lookup path = .ok ⟨place, .file⟩ ∧ d'.node? place = some (.file content)

theorem Keeps.read_eq (h : d.Keeps d' path) : d'.read path = d.read path := by
  obtain ⟨place, content, hat, hnode, hat', hnode'⟩ := h
  rw [read, read, hat, hat']
  simp only [bind, Except.bind, hnode, hnode']

end Disk

namespace Build

theorem Collected.exists_kind (h : Collected d input paths) : ∃ kind, d.kind input = some kind := by
  cases h with
  | file hkind hne hending => exact ⟨_, hkind⟩
  | directory hkind hnames hsome => exact ⟨_, hkind⟩

section Beside

variable (hplace : ForOutput d place)

include hplace

/-- What sources are called leads where it led, and nowhere else. -/
theorem kind_child_put (directory : Path) (stem : String) :
    (d.put place (.file content)).kind (directory.child (stem ++ ".vm")) =
      d.kind (directory.child (stem ++ ".vm")) := by
  obtain ⟨s, above, hpieces⟩ := name_of_child directory stem
  cases hkind : d.kind (directory.child (stem ++ ".vm")) with
  | some kind => exact Disk.kind_beside hplace.free hkind
  | none =>
    cases hkind' : (d.put place (.file content)).kind (directory.child (stem ++ ".vm")) with
    | none => rfl
    | some kind =>
      obtain ⟨at', hat⟩ := Disk.exists_of_kind hkind'
      have hne : at' ≠ place := by
        rintro rfl
        exact hplace.name s (place_of_name hpieces hat)
      rw [Disk.kind, Disk.lookup_of_put hat hne] at hkind
      cases hkind

/-- What is put at a place for outputs is not taken for a source. -/
theorem sourcesAmong_put (directory : Path) (here : Place) :
    sourcesAmong (d.put place (.file content)) directory
        ((d.put place (.file content)).inside here) =
      sourcesAmong d directory (d.inside here) := by
  have hput : (d.put place (.file content)).nodes =
      Disk.exchange place (.file content) d.nodes := rfl
  have hsame (name : String) :
      (kindAt (d.put place (.file content)) (directory.child name) == some .file
          && isSourceName name) =
        (kindAt d (directory.child name) == some .file && isSourceName name) := by
    cases hname : isSourceName name with
    | false => rw [Bool.and_false, Bool.and_false]
    | true =>
      obtain ⟨stem, -, rfl⟩ := isSourceName_iff.mp hname
      rw [Disk.kindAt_eq, Disk.kindAt_eq, kind_child_put hplace]
  simp only [sourcesAmong, Disk.inside, hput, hsame, List.filter_filterMap]
  rw [Disk.filterMap_exchange]
  intro node
  cases hin : Disk.nameIn here place with
  | none => rfl
  | some name =>
    have hother : isSourceName name = false := by
      refine Bool.eq_false_iff.mpr fun hname => ?_
      obtain ⟨stem, -, rfl⟩ := isSourceName_iff.mp hname
      exact hplace.name stem (by rw [Disk.nameIn_eq_some.mp hin, List.getLast?_concat])
    rw [Option.filter_some, hother, Bool.and_false]
    rfl

theorem collected_put (h : Collected d input paths) :
    Collected (d.put place (.file content)) input paths := by
  cases h with
  | file hkind hne hending => exact .file (Disk.kind_beside hplace.free hkind) hne hending
  | directory hkind hnames hsome =>
    obtain ⟨here, hhere⟩ := Disk.exists_of_kind hkind
    obtain rfl := Except.ok.inj ((Disk.entries_of_lookup hhere).symm.trans hnames)
    have hhere' : (d.put place (.file content)).lookup input = .ok ⟨here, .directory⟩ :=
      Disk.lookup_beside hplace.free hhere
    have hsame : sourcesAmong (d.put place (.file content)) input
        ((d.put place (.file content)).inside here) = _ := sourcesAmong_put hplace input here
    rw [← hsame] at hsome ⊢
    exact .directory (Disk.kind_beside hplace.free hkind) (Disk.entries_of_lookup hhere') hsome

/-- A source that has been read stays as it is. -/
theorem keeps_put {s : Source} (h : Collected d input paths) (hpath : path ∈ paths)
    (hs : Holds d path s) : d.Keeps (d.put place (.file content)) path := by
  obtain ⟨at', old, hat, hnode, -⟩ := Disk.read_ok.mp hs.text
  obtain ⟨stem, above, hpieces⟩ := name_of_collected h hpath
  have hne : at' ≠ place := by
    rintro rfl
    exact hplace.name stem (place_of_name hpieces hat)
  refine ⟨at', old, hat, hnode, Disk.lookup_beside hplace.free hat, ?_⟩
  rw [Disk.node?_put_of_ne d _ hne, hnode]

theorem holds_put (h : Collected d input paths) (hholds : List.Forall₂ (Holds d) paths sources) :
    List.Forall₂ (Holds (d.put place (.file content))) paths sources := by
  have hmem := (List.forall₂_and_left (p := (· ∈ paths)) ..).mpr ⟨fun _ hpath => hpath, hholds⟩
  exact hmem.imp fun path s ⟨hpath, hs⟩ =>
    ⟨(keeps_put hplace h hpath hs).read_eq.trans hs.text, hs.name⟩

theorem code_put (h : Collected d input paths) :
    code (d.put place (.file content)) config input sources = code d config input sources := by
  obtain ⟨kind, hkind⟩ := h.exists_kind
  rw [code, code, Disk.kindAt_eq, Disk.kindAt_eq, hkind, Disk.kind_beside hplace.free hkind]

/-- The output goes to the same place again. -/
theorem defaultOutput_put (h : Collected d input paths) :
    (defaultOutput (m := StateM Disk) input (d.put place (.file content))).1 =
      (defaultOutput (m := StateM Disk) input d).1 := by
  cases h with
  | file hkind hne hending =>
    rw [defaultOutput_file hkind hne, defaultOutput_file (Disk.kind_beside hplace.free hkind) hne]
  | directory hkind hentries hsome =>
    obtain ⟨here, hhere⟩ := Disk.exists_of_kind hkind
    rw [defaultOutput_directory hhere,
      defaultOutput_directory (Disk.lookup_beside hplace.free hhere)]

end Beside

/-- A build whose output goes to the default place changes none of the
files that it has read. Done again on what it has left, it collects the
same files, makes the same instructions, and changes nothing at all. -/
theorem build_again {artifact : Artifact}
    (h : (run config input (defaultOutput (m := StateM Disk) input d).1 :
      ExceptT BuildError (StateM Disk) Artifact).run d = (.ok artifact, d')) :
    ∃ paths, d.Answers (collect input) (.ok paths) ∧ d'.Answers (collect input) (.ok paths)
      ∧ (∀ path ∈ paths, d.Keeps d' path)
      ∧ (defaultOutput (m := StateM Disk) input d').1 =
        (defaultOutput (m := StateM Disk) input d).1
      ∧ d'.Answers (run config input (defaultOutput (m := StateM Disk) input d').1)
        (.ok artifact) := by
  obtain ⟨sources, instructions, ⟨paths, hpaths, hholds⟩, hcode, rfl, hstore⟩ :=
    made_of_run d.still h
  have hwrite := Disk.writeAt_eq_ok_iff.mp hstore
  have hagain := Disk.write_again hwrite
  obtain ⟨place, hat, rfl⟩ := except_map_ok hwrite
  have hplace := forOutput_of_fileAt hpaths hat
  have hcollected : Collected (d.put place (.file (render instructions).toUTF8)) input paths :=
    collected_put hplace hpaths
  refine ⟨paths, collect_ok d.still hpaths, collect_ok (Disk.still _) hcollected,
    fun path hpath => ?_, defaultOutput_put hplace hpaths, ?_⟩
  · obtain ⟨s, -, hs⟩ := exists_mem_of_forall₂ hholds.flip hpath
    exact keeps_put hplace hpaths hpath hs
  · rw [defaultOutput_put hplace hpaths]
    exact run_ok (Disk.still _) ⟨paths, hcollected, holds_put hplace hpaths hholds⟩
      ((code_put hplace hpaths).trans hcode) (Disk.writeAt_eq_ok_iff.mpr hagain)

/-- A directory with one source file, and with an output that is out of
date. -/
def outdated : Disk :=
  ⟨["work"], [(["work"], .directory), (["work", "work.asm"], .file "// none".toUTF8),
    (["work", "Main.vm"], .file "goto end".toUTF8)]⟩

theorem build_again_outdated :
    (defaultOutput (m := StateM Disk) ⟨"."⟩ outdated).1 = ⟨"./work.asm"⟩
      ∧ ∃ artifact d', (run ⟨"Sys.init", .never, false⟩ ⟨"."⟩ ⟨"./work.asm"⟩ :
          ExceptT BuildError (StateM Disk) Artifact).run outdated = (.ok artifact, d')
        ∧ artifact.files = ["Main.vm"] ∧ render artifact.instructions = "@end\n0;JMP\n"
        ∧ d'.read ⟨"./work.asm"⟩ = .ok "@end\n0;JMP\n"
        ∧ outdated.Keeps d' ⟨"./Main.vm"⟩
        ∧ d'.Answers (run ⟨"Sys.init", .never, false⟩ ⟨"."⟩ ⟨"./work.asm"⟩) (.ok artifact) := by
  have houtput : (defaultOutput (m := StateM Disk) ⟨"."⟩ outdated).1 = ⟨"./work.asm"⟩ := by
    decide +kernel
  have hrun : (run ⟨"Sys.init", .never, false⟩ ⟨"."⟩
      (defaultOutput (m := StateM Disk) ⟨"."⟩ outdated).1 :
      ExceptT BuildError (StateM Disk) Artifact).run outdated =
        (.ok ⟨[.address (.symbol "end"), .compute none .zero (some .jmp)], ["Main.vm"]⟩,
          outdated.put ["work", "work.asm"] (.file "@end\n0;JMP\n".toUTF8)) :=
    Prod.ext (by decide +kernel) (by decide +kernel)
  have hcollect : outdated.Answers (collect ⟨"."⟩) (.ok [⟨"./Main.vm"⟩]) :=
    Prod.ext (by decide +kernel) (by decide +kernel)
  obtain ⟨paths, hpaths, -, hkeeps, hsame, hagain⟩ := build_again hrun
  obtain rfl := Except.ok.inj (Prod.mk.inj (hcollect.symm.trans hpaths)).1
  rw [hsame, houtput] at hagain
  rw [houtput] at hrun
  exact ⟨houtput, _, _, hrun, rfl, by decide +kernel, by decide +kernel,
    hkeeps _ (List.mem_singleton_self _), hagain⟩

end Build

end HackVm
