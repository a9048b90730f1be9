import HackVm.Proofs.Collection

/-!
# Names of outputs

The output of a directory lies in the directory and is called after it.
The name that it is called after is where the path leads, not how it is
written, so `.` and `..` and a slash at the end make no difference.

The name is not kept as it is: its ending is exchanged for that of
outputs, as it would be for a source file. What stays is its stem
(`Path.Stem`), which is the whole name only if no dot stands behind the
first character (`Build.output_named_by_stem`). Directories that are told
apart by what follows their last dot have outputs of one name.

Whatever the input, its output is never called as a source
(`Build.exists_name_output`), so it is not taken for one in a later build.
-/

namespace HackVm

/-! ## Stems -/

namespace Path

/-- What stands in front of the ending of a name: all of it, if it has no
ending. -/
inductive Stem : String → String → Prop
  | whole {name : String} (h : '.' ∉ name.toList.tail) : Stem name name
  | cut {stem ending : String} (hstem : stem ≠ "") (hending : '.' ∉ ending.toList) :
    Stem (stem ++ "." ++ ending) stem

theorem stem_splitName (name : String) : Stem name (splitName name).1 := by
  rcases splitName_cases name with ⟨hdot, hsplit⟩ | ⟨stem, ending, hstem, hending, rfl, hsplit⟩
  · rw [hsplit]
    exact .whole hdot
  · rw [hsplit]
    exact .cut hstem hending

/-- The stem is all of the name only if the name has no ending. -/
theorem Stem.eq_name_iff {name stem : String} (h : Stem name stem) :
    stem = name ↔ '.' ∉ name.toList.tail := by
  cases h with
  | whole hdot => exact iff_of_true rfl hdot
  | cut hstem hending =>
    rename_i ending
    refine iff_of_false (fun heq => ?_) (fun hdot => hdot ?_)
    · have hlength := congrArg String.length heq
      simp only [String.length_append] at hlength
      have hone : ".".length = 1 := rfl
      omega
    · obtain ⟨c, cs, hcs⟩ := List.exists_cons_of_ne_nil (mt String.toList_eq_nil_iff.mp hstem)
      rw [String.toList_append, String.toList_append, hcs]
      simp

/-! ## The last piece of a path -/

theorem getLast?_splitOn_append (front : List Char) {behind : List Char} (h : '/' ∉ behind) :
    ∃ s, ((front ++ behind).splitOn '/').getLast? = some (s ++ behind) := by
  induction front with
  | nil =>
    have hnone : ∀ c ∈ behind, (c == '/') = false := by
      intro c hc
      rw [beq_eq_false_iff_ne]
      rintro rfl
      exact h hc
    refine ⟨[], ?_⟩
    rw [List.splitOn, List.nil_append, List.splitOnP_eq_singleton hnone]
    rfl
  | cons c front ih =>
    obtain ⟨s, hs⟩ := ih
    rw [List.splitOn] at hs ⊢
    rw [List.cons_append, List.splitOnP_cons_eq_if_modifyHead]
    split
    · exact ⟨s, by rw [List.getLast?_cons, hs]; rfl⟩
    · -- The character goes to the first piece, which may be the last one too.
      generalize (front ++ behind).splitOnP (· == '/') = pieces at hs
      rcases pieces with _ | ⟨x, _ | ⟨y, rest⟩⟩
      · cases hs
      · obtain rfl := Option.some.inj hs
        exact ⟨c :: s, rfl⟩
      · exact ⟨s, by rw [← hs]; rfl⟩

/-- What a path ends in, if no slash is in it, is at the end of its last
piece. -/
theorem exists_last_piece {p : Path} {front behind : String} (h : p.text = front ++ behind)
    (hslash : '/' ∉ behind.toList) : ∃ s, p.pieces.getLast? = some (s ++ behind) := by
  obtain ⟨s, hs⟩ := getLast?_splitOn_append front.toList hslash
  refine ⟨String.ofList s, ?_⟩
  rw [pieces, h, String.toList_append, List.getLast?_map, hs, Option.map_some, String.ofList_append,
    String.ofList_toList]

theorem exists_text_ofPieces (pieces : List String) (last : String) :
    ∃ front, (ofPieces (pieces ++ [last])).text = front ++ last := by
  have hlist : ∃ front, ['/'].intercalate ((pieces ++ [last]).map String.toList) =
      front ++ last.toList := by
    induction pieces with
    | nil => exact ⟨[], by simp [List.intercalate]⟩
    | cons piece rest ih =>
      obtain ⟨front, hfront⟩ := ih
      obtain ⟨x, xs, hx⟩ : ∃ x xs, (rest ++ [last]).map String.toList = x :: xs :=
        List.exists_cons_of_ne_nil (by simp)
      refine ⟨piece.toList ++ ['/'] ++ front, ?_⟩
      rw [List.cons_append, List.map_cons, hx, List.intercalate_cons_cons, ← hx, hfront]
      simp
  obtain ⟨front, hfront⟩ := hlist
  refine ⟨String.ofList front, ?_⟩
  rw [ofPieces, hfront, ← String.toList_inj]
  simp

theorem fileName?_eq_some {p : Path} {name : String} : p.fileName? = some name ↔
    (∃ above, p.pieces.reverse.dropWhile isIdle = name :: above) ∧ name ≠ ".." := by
  rw [fileName?]
  cases p.pieces.reverse.dropWhile isIdle with
  | nil => simp
  | cons last above =>
    simp only [beq_iff_eq, Option.ite_none_left_eq_some, Option.some.injEq, List.cons.injEq,
      exists_and_left, exists_eq', and_true]
    constructor
    · rintro ⟨hup, rfl⟩
      exact ⟨rfl, hup⟩
    · rintro ⟨rfl, hup⟩
      exact ⟨hup, rfl⟩

/-- A path with a name and another ending ends in that ending, or it leads
to the directory above. -/
theorem exists_text_withExtension {p : Path} {name : String} (h : p.fileName? = some name)
    (ending : String) : ∃ front tail, (p.withExtension ending).text = front ++ tail
      ∧ (tail = "." ++ ending ∨ tail = "..") := by
  obtain ⟨⟨above, hpieces⟩, hup⟩ := fileName?_eq_some.mp h
  have hdown : (name == "..") = false := beq_eq_false_iff_ne.mpr hup
  simp only [withExtension, hpieces, hdown, Bool.false_eq_true, if_false]
  split
  · obtain ⟨front, hfront⟩ := exists_text_ofPieces above.reverse ".."
    exact ⟨front, "..", hfront, .inr rfl⟩
  · obtain ⟨front, hfront⟩ := exists_text_ofPieces above.reverse (rename name ending)
    refine ⟨front ++ (splitName name).1, "." ++ ending, ?_, .inl rfl⟩
    rw [hfront, rename]
    simp only [String.append_assoc]

theorem child_inj {p : Path} {a b : String} : p.child a = p.child b ↔ a = b := by
  rw [child, child]
  split <;> simp only [Path.mk.injEq, String.append_right_inj]

end Path

/-! ## The output of a directory -/

namespace Build

variable {d : Disk} {input : Path} {place : Place} {name : String}

theorem rename_outputEnding (name : String) :
    Path.rename name outputEnding = (Path.splitName name).1 ++ ".asm" :=
  String.append_assoc ..

theorem defaultOutput_directory (h : d.lookup input = .ok ⟨place, .directory⟩) :
    (defaultOutput (m := StateM Disk) input d).1 =
      input.child (Path.rename ((place.getLast? <|> input.fileName?).getD "out") outputEnding) := by
  have hkind : (FileSystem.kind input : StateM Disk _) d = (some .directory, d) := by
    show (d.kind input, d) = _
    rw [Disk.kind, h]
  have hlocate : (FileSystem.locate input : StateM Disk _) d = (.ok ⟨place, .directory⟩, d) := by
    obtain ⟨-, -, hplace⟩ := except_bind_ok h
    exact congrArg (·, d) hplace
  rw [defaultOutput, bind_eq, hkind]
  simp only [bind_eq, hlocate]
  rfl

theorem defaultOutput_file {kind : FileKind} (h : d.kind input = some kind)
    (hne : kind ≠ .directory) :
    (defaultOutput (m := StateM Disk) input d).1 = input.withExtension outputEnding := by
  have hkind : (FileSystem.kind input : StateM Disk _) d = (some kind, d) := by rw [← h]; rfl
  rw [defaultOutput, bind_eq, hkind]
  cases kind with
  | directory => exact absurd rfl hne
  | file => rfl
  | other => rfl

theorem exists_text_output {paths : List Path} (h : Collected d input paths) :
    ∃ front tail, (defaultOutput (m := StateM Disk) input d).1.text = front ++ tail
      ∧ (tail = ".asm" ∨ tail = "..") := by
  cases h with
  | file hkind hne hending =>
    obtain ⟨name, hname, -⟩ := Option.bind_eq_some_iff.mp hending
    rw [defaultOutput_file hkind hne]
    exact Path.exists_text_withExtension hname outputEnding
  | directory hkind hentries hsome =>
    obtain ⟨place, hplace⟩ := Disk.exists_of_kind hkind
    rw [defaultOutput_directory hplace]
    generalize (place.getLast? <|> input.fileName?).getD "out" = name
    obtain ⟨slash, -, htext⟩ := Path.exists_text_child input (Path.rename name outputEnding)
    refine ⟨input.text ++ slash ++ (Path.splitName name).1, ".asm", ?_, .inl rfl⟩
    rw [htext, rename_outputEnding]
    simp only [String.append_assoc]

/-- No source file is called as the output is. -/
theorem exists_name_output {paths : List Path} (h : Collected d input paths) :
    ∃ name, (defaultOutput (m := StateM Disk) input d).1.pieces.getLast? = some name
      ∧ ∀ stem, name ≠ stem ++ ".vm" := by
  obtain ⟨front, tail, htext, htail⟩ := exists_text_output h
  have hslash : '/' ∉ tail.toList := by rcases htail with rfl | rfl <;> decide
  obtain ⟨s, hs⟩ := Path.exists_last_piece htext hslash
  refine ⟨_, hs, fun stem heq => ?_⟩
  have hreverse := congrArg (fun t => t.toList.reverse) heq
  simp only [String.toList_append, List.reverse_append] at hreverse
  rcases htail with rfl | rfl
  · exact absurd (List.cons.inj (List.cons.inj hreverse).2).1 (by decide)
  · exact absurd (List.cons.inj hreverse).1 (by decide)

/-- The output of a directory is called after the stem of the directory's
own name, and after the whole name exactly if no dot follows the first
character. -/
theorem output_named_by_stem (hinput : d.kind input = some .directory) :
    ∃ place, d.locate input = .ok ⟨place, .directory⟩
      ∧ ∀ name, place.getLast? = some name → ∃ stem, Path.Stem name stem
        ∧ (defaultOutput (m := StateM Disk) input d).1 = input.child (stem ++ ".asm")
        ∧ ((defaultOutput (m := StateM Disk) input d).1 = input.child (name ++ ".asm") ↔
          '.' ∉ name.toList.tail) := by
  obtain ⟨place, hplace⟩ := Disk.exists_of_kind hinput
  obtain ⟨-, -, hlocate⟩ := except_bind_ok hplace
  refine ⟨place, hlocate, fun name hname => ⟨_, Path.stem_splitName name, ?_⟩⟩
  have hstem := Path.stem_splitName name
  have houtput : (defaultOutput (m := StateM Disk) input d).1 =
      input.child ((Path.splitName name).1 ++ ".asm") := by
    rw [defaultOutput_directory hplace, hname]
    exact congrArg input.child (rename_outputEnding name)
  refine ⟨houtput, ?_⟩
  rw [houtput, Path.child_inj, String.append_left_inj, hstem.eq_name_iff]

/-- Two versions of a program, each in a directory of its own. -/
def versions : Disk :=
  ⟨["work"], [(["work"], .directory), (["work", "prog.v1"], .directory),
    (["work", "prog.v2"], .directory)]⟩

theorem output_named_by_stem_version :
    versions.kind ⟨"prog.v1/../prog.v2/."⟩ = some .directory
      ∧ ∃ stem, Path.Stem "prog.v2" stem
        ∧ (defaultOutput (m := StateM Disk) ⟨"prog.v1/../prog.v2/."⟩ versions).1 =
          (⟨"prog.v1/../prog.v2/."⟩ : Path).child (stem ++ ".asm") := by
  have hinput : versions.kind ⟨"prog.v1/../prog.v2/."⟩ = some .directory := by decide +kernel
  obtain ⟨place, hplace, hnamed⟩ := output_named_by_stem hinput
  have hat : versions.locate ⟨"prog.v1/../prog.v2/."⟩ =
      .ok ⟨["work", "prog.v2"], .directory⟩ := by decide +kernel
  obtain ⟨rfl, -⟩ := Found.mk.inj (Except.ok.inj (hplace.symm.trans hat))
  obtain ⟨stem, hstem, houtput, -⟩ := hnamed "prog.v2" rfl
  exact ⟨hinput, stem, hstem, houtput⟩

/-- The version is lost from the name of the output, and both versions have
outputs of one name. -/
theorem output_without_version :
    versions.locate ⟨"prog.v1"⟩ = .ok ⟨["work", "prog.v1"], .directory⟩
      ∧ versions.locate ⟨"prog.v2"⟩ = .ok ⟨["work", "prog.v2"], .directory⟩
      ∧ (defaultOutput (m := StateM Disk) ⟨"prog.v1"⟩ versions).1 ≠
        (⟨"prog.v1"⟩ : Path).child "prog.v1.asm"
      ∧ (defaultOutput (m := StateM Disk) ⟨"prog.v1"⟩ versions).1 =
        (⟨"prog.v1"⟩ : Path).child "prog.asm"
      ∧ (defaultOutput (m := StateM Disk) ⟨"prog.v2"⟩ versions).1 =
        (⟨"prog.v2"⟩ : Path).child "prog.asm" := by
  decide +kernel

end Build

end HackVm
