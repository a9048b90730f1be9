import Mathlib.Data.List.Nodup
import HackVm.Proofs.Builds
import HackVm.Proofs.ByteOrder
import HackVm.Proofs.Endings
import HackVm.Proofs.FileSystems

/-!
# The sources of a directory

A directory stands for the source files in it, and a file system lists them
in any order. The order does not matter: the names that count are brought
into the order of their bytes before anything is made of them
(`Build.sourcesAmong_perm`). How a file system finds its way does not matter
either, links and missing permissions included: a name counts if the path
that it makes with the directory leads to a file (`Build.collect_in_order`).

On a disk this is what lies in the directory, whatever the order in which
the disk lists its places (`Build.collect_from_disk`), but for one thing: a
path can be too long to be looked up. Paths that go nowhere and yet are long
show that a source file can be passed over for this
(`Build.collect_misses_long_path`).
-/

namespace HackVm

open FileSystem (Still kindAt entriesAt readAt)

/-! ## Names of sources -/

namespace Build

/-- Source files are named by their ending and something in front of it. -/
theorem isSourceName_iff {name : String} :
    isSourceName name = true ↔ ∃ stem, stem ≠ "" ∧ name = stem ++ ".vm" := by
  have hending : "." ++ sourceEnding = ".vm" := rfl
  rw [isSourceName, beq_iff_eq, Path.ending_eq_some (by decide)]
  simp only [String.append_assoc, hending]

theorem pairwise_inOrder (names : List String) : (inOrder names).Pairwise fun a b => a ≤ b := by
  refine (List.pairwise_mergeSort (fun a b c hab hbc => ?_) (fun a b => ?_) _).imp of_decide_eq_true
  · exact decide_eq_true (String.le_trans (of_decide_eq_true hab) (of_decide_eq_true hbc))
  · simpa using String.le_total a b

theorem inOrder_perm {names names' : List String} (h : names'.Perm names) :
    inOrder names' = inOrder names := by
  refine List.Perm.eq_of_pairwise (fun a b _ _ => String.le_antisymm)
    (pairwise_inOrder names') (pairwise_inOrder names) ?_
  rw [inOrder, inOrder]
  exact (List.mergeSort_perm _ _).trans (h.trans (List.mergeSort_perm _ _).symm)

/-- Different names in order are in the order of their bytes. -/
theorem bytes_inOrder {names : List String} (h : names.Nodup) :
    (inOrder names).Pairwise fun a b => bytes a < bytes b := by
  have hnodup : (inOrder names).Nodup := (List.mergeSort_perm _ _).nodup_iff.mpr h
  refine (hnodup.and (pairwise_inOrder names)).imp fun {a b} ⟨hne, hle⟩ => bytes_lt ?_
  by_contra hlt
  exact hne (String.le_antisymm hle (String.not_lt.mp hlt))

section Names

variable {σ : Type} [FileSystem (StateM σ)] {s s' : σ} {directory : Path} {names names' : List String}

theorem mem_sourcesAmong {name : String} :
    name ∈ sourcesAmong s directory names ↔
      name ∈ names ∧ (∃ stem, stem ≠ "" ∧ name = stem ++ ".vm")
        ∧ kindAt s (directory.child name) = some .file := by
  rw [sourcesAmong, inOrder, List.mem_mergeSort, List.mem_filter, Bool.and_eq_true, beq_iff_eq,
    isSourceName_iff, and_comm (a := kindAt s (directory.child name) = _)]

/-- The order in which a directory is listed does not matter. -/
theorem sourcesAmong_perm (hkind : ∀ p, kindAt s' p = kindAt s p) (h : names'.Perm names) :
    sourcesAmong s' directory names' = sourcesAmong s directory names := by
  simp only [sourcesAmong, hkind]
  exact inOrder_perm (h.filter _)

end Names

end Build

/-! ## The same answers -/

section Both

variable {σ ε α β : Type} {s s' : σ}

/-- A step has the same answer in two states. -/
def Both (s s' : σ) (x : ExceptT ε (StateM σ) α) : Prop := ∃ r, Answers s x r ∧ Answers s' x r

namespace Both

variable {x : ExceptT ε (StateM σ) α} {f : α → ExceptT ε (StateM σ) β} {a : α}

theorem pure (a : α) : Both s s' (Pure.pure a : ExceptT ε (StateM σ) α) :=
  ⟨.ok a, .pure a, .pure a⟩

theorem throw (e : ε) : Both s s' (MonadExcept.throw e : ExceptT ε (StateM σ) α) :=
  ⟨.error e, .throw e, .throw e⟩

theorem bind (hx : Both s s' x) (hf : ∀ a, Both s s' (f a)) : Both s s' (x >>= f) := by
  obtain ⟨e | a, h, h'⟩ := hx
  · exact ⟨.error e, h.bind_error, h'.bind_error⟩
  · obtain ⟨r, hr, hr'⟩ := hf a
    exact ⟨r, h.bind hr, h'.bind hr'⟩

theorem ask {x : StateM σ α} (hx : x s = (a, s)) (hx' : x s' = (a, s')) (hf : Both s s' (f a)) :
    Both s s' (liftM x >>= f) := by
  obtain ⟨r, hr, hr'⟩ := hf
  exact ⟨r, .ask hx hr, .ask hx' hr'⟩

theorem mapM (hf : ∀ a, Both s s' (f a)) (xs : List α) : Both s s' (xs.mapM f) := by
  induction xs with
  | nil => exact .pure []
  | cons x xs ih =>
    rw [List.mapM_cons]
    exact (hf x).bind fun b => ih.bind fun bs => .pure (b :: bs)

end Both

end Both

/-! ## Directories that are listed in another order -/

/-- The second state answers as the first one, but lists a directory in any
order. -/
structure Relisted {σ : Type} [FileSystem (StateM σ)] (s s' : σ) (directory : Path) : Prop where
  still : Still s'
  kind : ∀ p, kindAt s' p = kindAt s p
  read : ∀ p, readAt s' p = readAt s p
  entries : ∀ names, entriesAt s directory = .ok names →
    ∃ names', entriesAt s' directory = .ok names' ∧ names'.Perm names

namespace Build

section Relisted

variable {σ : Type} [FileSystem (StateM σ)] {s s' : σ} {input : Path} {names : List String}

theorem both_readSource (hs : Still s) (h : Relisted s s' input) (path : Path) :
    Both s s' (readSource path) := by
  refine .ask (hs.read path) (h.read path ▸ h.still.read path) ?_
  cases readAt s path with
  | error reason => exact .throw _
  | ok text => exact .pure _

theorem both_translate (hs : Still s) (h : Relisted s s' input)
    (hcollect : Both s s' (collect input)) (config : Config) :
    Both s s' (translate config input) := by
  refine hcollect.bind fun paths => (Both.mapM (both_readSource hs h) paths).bind fun sources => ?_
  refine .ask (hs.kind input) (h.kind input ▸ h.still.kind input) ?_
  cases Program.translate config
      (config.bootstrap.applies (kindAt s input = some .directory)) sources with
  | error fault => exact .throw _
  | ok instructions => exact .pure _

theorem collect_relisted (h : Relisted s s' input) (hinput : kindAt s input = some .directory)
    (hnames : entriesAt s input = .ok names) : Answers s' (collect input)
      (if sourcesAmong s input names = [] then .error (.noSources input)
        else .ok ((sourcesAmong s input names).map input.child)) := by
  obtain ⟨names', hnames', hperm⟩ := h.entries names hnames
  have hcollect := collect_directory h.still ((h.kind input).trans hinput) hnames'
  rwa [sourcesAmong_perm h.kind hperm] at hcollect

/-- A directory stands for the files in it that are called source files,
each of them once and in the order of the bytes of their names; and a
directory without such files is refused. What is a file is up to the file
system, which is asked for the path of the directory and the name. The
order in which it lists the directory changes neither this nor what the
directory is translated into. -/
theorem collect_in_order (hs : Still s) (hinput : kindAt s input = some .directory)
    (hnames : entriesAt s input = .ok names) (hnodup : names.Nodup) :
    ∃ sources, (∀ name, name ∈ sources ↔
        name ∈ names ∧ (∃ stem, stem ≠ "" ∧ name = stem ++ ".vm")
          ∧ kindAt s (input.child name) = some .file)
      ∧ sources.Pairwise (fun a b => bytes a < bytes b)
      ∧ ∀ s', Relisted s s' input →
        Answers s' (collect input)
            (if sources = [] then .error (.noSources input) else .ok (sources.map input.child))
          ∧ ∀ config, ∃ answer, Answers s (translate config input) answer
            ∧ Answers s' (translate config input) answer := by
  refine ⟨sourcesAmong s input names, fun name => mem_sourcesAmong,
    bytes_inOrder (hnodup.filter _), fun s' h => ?_⟩
  have hcollect := collect_relisted h hinput hnames
  exact ⟨hcollect, both_translate hs h ⟨_, collect_directory hs hinput hnames, hcollect⟩⟩

end Relisted

end Build

/-! ## Disks in another order -/

namespace Disk

/-- The disk lists no place twice. -/
def Unambiguous (d : Disk) : Prop := (d.nodes.map Prod.fst).Nodup

/-- The disk lists the nodes of another one in any order. -/
structure Reordered (d d' : Disk) : Prop where
  home : d'.home = d.home
  nodes : d'.nodes.Perm d.nodes

section Lookup

variable {α β : Type} [BEq α] [LawfulBEq α] {l l' : List (α × β)}

theorem lookup_eq_some_iff_mem (hl : (l.map Prod.fst).Nodup) {a : α} {b : β} :
    l.lookup a = some b ↔ (a, b) ∈ l := by
  induction l with
  | nil => simp
  | cons x rest ih =>
    obtain ⟨c, e⟩ := x
    obtain ⟨hnew, hrest⟩ := List.nodup_cons.mp hl
    rw [List.lookup_cons, List.mem_cons, Prod.mk.injEq]
    by_cases hac : a = c
    · subst hac
      have hnone : (a, b) ∉ rest := fun hmem => hnew (List.mem_map.mpr ⟨_, hmem, rfl⟩)
      simp only [beq_self_eq_true, Option.some.injEq, true_and, hnone, or_false, eq_comm]
    · simp only [beq_false_of_ne hac, ih hrest, hac, false_and, false_or]

theorem lookup_perm (hl : (l.map Prod.fst).Nodup) (h : l'.Perm l) (a : α) :
    l'.lookup a = l.lookup a := by
  have hl' : (l'.map Prod.fst).Nodup := (h.map _).nodup_iff.mpr hl
  refine Option.ext fun b => ?_
  rw [lookup_eq_some_iff_mem hl', lookup_eq_some_iff_mem hl, h.mem_iff]

end Lookup

variable {d d' : Disk}

theorem nameIn_eq_some {here place : Place} {name : String} :
    nameIn here place = some name ↔ place = here ++ [name] := by
  rw [nameIn, Option.ite_none_right_eq_some, beq_iff_eq]
  constructor
  · rintro ⟨rfl, hname⟩
    exact (List.dropLast_append_getLast? name hname).symm
  · rintro rfl
    simp

/-- What is directly in a directory is what the disk lists there. -/
theorem mem_inside {place : Place} {name : String} :
    name ∈ d.inside place ↔ ∃ node, (place ++ [name], node) ∈ d.nodes := by
  simp only [inside, List.mem_filterMap, nameIn_eq_some, Prod.exists]
  constructor
  · rintro ⟨_, node, hmem, rfl⟩
    exact ⟨node, hmem⟩
  · rintro ⟨node, hmem⟩
    exact ⟨_, node, hmem, rfl⟩

/-- No name is in a directory twice. -/
theorem nodup_inside (h : d.Unambiguous) (place : Place) : (d.inside place).Nodup := by
  have hnames : d.inside place = (d.nodes.map Prod.fst).filterMap (nameIn place) := by
    rw [List.filterMap_map]
    rfl
  rw [hnames]
  refine List.Nodup.filterMap (fun a a' name ha ha' => ?_) h
  rw [nameIn_eq_some.mp ha, nameIn_eq_some.mp ha']

theorem entries_of_lookup {p : Path} {place : Place} (h : d.lookup p = .ok ⟨place, .directory⟩) :
    d.entries p = .ok (d.inside place) := by
  rw [entries, h]
  rfl

theorem exists_of_kind {p : Path} {kind : FileKind} (h : d.kind p = some kind) :
    ∃ place, d.lookup p = .ok ⟨place, kind⟩ := by
  rw [Disk.kind] at h
  split at h
  · rename_i found hfound
    cases h
    exact ⟨found.place, hfound⟩
  · cases h

section Reordered

variable (hd : d.Unambiguous) (h : d.Reordered d')

include hd h

theorem Reordered.node?_eq (place : Place) : d'.node? place = d.node? place := by
  rw [node?, node?, lookup_perm hd h.nodes]

theorem Reordered.walk_eq (here : Place) (pieces : List String) :
    d'.walk here pieces = d.walk here pieces := by
  induction pieces generalizing here with
  | nil => rw [walk, walk, h.node?_eq hd]
  | cons piece rest ih =>
    rw [walk, walk, h.node?_eq hd]
    simp only [ih]

theorem Reordered.lookup_eq (p : Path) : d'.lookup p = d.lookup p := by
  simp only [lookup, locate, origin, h.home, h.walk_eq hd, h.node?_eq hd]

/-- A disk in another order lists its directories in another order. -/
theorem Reordered.relisted (directory : Path) : Relisted d d' directory where
  still := d'.still
  kind p := by
    rw [kindAt_eq, kindAt_eq, kind, kind, h.lookup_eq hd]
  read p := by
    simp only [readAt_eq, read, h.lookup_eq hd, h.node?_eq hd]
  entries names hnames := by
    obtain ⟨⟨place, kind⟩, hplace, hlist⟩ := except_bind_ok hnames
    have hplace' := (h.lookup_eq hd directory).trans hplace
    cases kind with
    | directory =>
      cases hlist
      exact ⟨d'.inside place, entries_of_lookup hplace', h.nodes.filterMap _⟩
    | file => cases hlist
    | other => cases hlist

end Reordered

/-! ## What lies in a directory -/

end Disk

theorem Path.exists_text_child (p : Path) (name : String) :
    ∃ slash, (slash = "" ∨ slash = "/") ∧ (p.child name).text = p.text ++ slash ++ name := by
  rw [child]
  split
  · rename_i hlast
    have hp : p.text = "" := String.toList_eq_nil_iff.mp (List.getLast?_eq_none_iff.mp hlast)
    exact ⟨"", .inl rfl, by simp [hp]⟩
  · exact ⟨"", .inl rfl, by simp⟩
  · exact ⟨"/", .inr rfl, rfl⟩

/-- The pieces of a path in a directory are those of the directory, and the
name. Of a slash at the end of the directory there is nothing left. -/
theorem Path.pieces_child {p : Path} {name : String} (hp : p.text ≠ "")
    (hname : '/' ∉ name.toList) : ∃ above, (p.child name).pieces = above ++ [name]
      ∧ (p.pieces = above ∨ p.pieces = above ++ [""]) := by
  have hone : name.toList.splitOn '/' = [name.toList] := by
    refine List.splitOnP_eq_singleton fun c hc => beq_eq_false_iff_ne.mpr ?_
    rintro rfl
    exact hname hc
  have hsplit (front back : List Char) :
      (front ++ '/' :: back).splitOn '/' = front.splitOn '/' ++ back.splitOn '/' :=
    List.splitOnP_append_cons front back rfl
  obtain ⟨front, c, hfront⟩ : ∃ front c, p.text.toList = front ++ [c] := by
    obtain h | ⟨front, c, h⟩ := List.eq_nil_or_concat' p.text.toList
    · exact absurd (String.toList_eq_nil_iff.mp h) hp
    · exact ⟨front, c, h⟩
  by_cases hc : c = '/'
  · subst hc
    refine ⟨(front.splitOn '/').map String.ofList, ?_, .inr ?_⟩
    · have hchild : (p.child name).text.toList = front ++ '/' :: name.toList := by
        rw [child, hfront, List.getLast?_concat]
        simp [hfront]
      rw [pieces, hchild, hsplit, hone]
      simp
    · rw [pieces, hfront, hsplit]
      simp [List.splitOn]
  · refine ⟨p.pieces, ?_, .inl rfl⟩
    have hchild : (p.child name).text.toList = p.text.toList ++ '/' :: name.toList := by
      rw [child, hfront, List.getLast?_concat]
      simp [hfront]
    rw [pieces, hchild, hsplit, hone, pieces]
    simp

namespace Disk

/-- A name that something in a directory can have. -/
structure EntryName (name : String) : Prop extends Proper name where
  slash : '/' ∉ name.toList
  null : Char.ofNat 0 ∉ name.toList

variable {d d' : Disk} {p : Path} {place : Place} {name : String}

theorem checkWhole_ok :
    checkWhole p = .ok () ↔ Char.ofNat 0 ∉ p.text.toList ∧ p.text ≠ "" ∧ fits p = true := by
  rw [checkWhole, checkText]
  by_cases hnull : Char.ofNat 0 ∈ p.text.toList
  · simp [hnull, bind, Except.bind]
  · by_cases hempty : p.text = ""
    · simp [hempty, bind, Except.bind]
    · cases fits p <;> simp [hnull, hempty, bind, Except.bind]

theorem kind_of_not_fits (h : fits p = false) : d.kind p = none := by
  cases hkind : d.kind p with
  | none => rfl
  | some kind =>
    obtain ⟨place, hplace⟩ := exists_of_kind hkind
    obtain ⟨-, -, hfits⟩ := checkWhole_ok.mp (lookup_ok.mp hplace).1
    rw [h] at hfits
    cases hfits

theorem checkWhole_child (h : checkWhole p = .ok ()) (hname : EntryName name)
    (hfits : fits (p.child name) = true) : checkWhole (p.child name) = .ok () := by
  obtain ⟨hnull, hp, -⟩ := checkWhole_ok.mp h
  obtain ⟨slash, hslash, htext⟩ := p.exists_text_child name
  have hnone : Char.ofNat 0 ∉ slash.toList := by rcases hslash with rfl | rfl <;> decide
  refine checkWhole_ok.mpr ⟨?_, ?_, hfits⟩
  · simp [htext, hnull, hnone, hname.null]
  · simp [htext, hp]

theorem origin_child (hp : p.text ≠ "") (name : String) : d.origin (p.child name) = d.origin p := by
  obtain ⟨slash, -, htext⟩ := p.exists_text_child name
  obtain ⟨c, cs, hcs⟩ := List.exists_cons_of_ne_nil (mt String.toList_eq_nil_iff.mp hp)
  rw [origin, origin, Path.isAbsolute, Path.isAbsolute, htext]
  simp [hcs]

/-- A path into a directory goes where the directory is, and on to the name. -/
theorem walk_child (h : d.lookup p = .ok ⟨place, .directory⟩) (hname : EntryName name) :
    d.walk (d.origin (p.child name)) (p.child name).pieces = d.walk (place ++ [name]) [] := by
  obtain ⟨hwhole, hwalk, node, hnode, hkind⟩ := lookup_ok.mp h
  obtain ⟨-, hp, -⟩ := checkWhole_ok.mp hwhole
  obtain ⟨above, hchild, habove⟩ := Path.pieces_child hp hname.slash
  have hdirectory : d.node? place = some .directory := by
    cases node with
    | file content => cases hkind
    | directory => exact hnode
  have hparent : d.walk (d.origin p) above = .ok place := by
    rcases habove with hpieces | hpieces
    · rwa [hpieces] at hwalk
    · rw [hpieces] at hwalk
      obtain ⟨middle, hmiddle, hlast⟩ := walk_append_ok.mp hwalk
      obtain rfl := eq_of_walk_idle (by decide) hlast
      exact hmiddle
  rw [origin_child hp, hchild, walk_append hparent, walk_cons hdirectory,
    step_proper hname.toProper]
  rfl

/-- A path into a directory leads to what lies there under the name, unless
it is too long. -/
theorem kind_child (h : d.lookup p = .ok ⟨place, .directory⟩) (hname : EntryName name) :
    d.kind (p.child name) =
      if fits (p.child name) then (d.node? (place ++ [name])).map Node.kind else none := by
  have hwalk := walk_child h hname
  split
  · rename_i hfits
    cases hnode : d.node? (place ++ [name]) with
    | none =>
      cases hkind : d.kind (p.child name) with
      | none => rfl
      | some kind =>
        obtain ⟨found, hfound⟩ := exists_of_kind hkind
        obtain ⟨hsome, -⟩ := walk_nil_ok.mp (hwalk.symm.trans (lookup_ok.mp hfound).2.1)
        rw [hnode] at hsome
        cases hsome
    | some node =>
      have hlookup : d.lookup (p.child name) = .ok ⟨place ++ [name], node.kind⟩ := by
        refine lookup_ok.mpr ⟨?_, ?_, node, hnode, rfl⟩
        · exact checkWhole_child (lookup_ok.mp h).1 hname hfits
        · exact hwalk.trans (walk_nil_ok.mpr ⟨by rw [hnode]; rfl, rfl⟩)
      rw [kind, hlookup]
      rfl
  · rename_i hfits
    exact kind_of_not_fits (Bool.not_eq_true _ ▸ hfits)

/-- The disk lists no place twice, and things in it have names that they can
have. -/
structure WellFormed (d : Disk) : Prop where
  unambiguous : d.Unambiguous
  names : ∀ x ∈ d.nodes, ∀ name ∈ x.1, EntryName name

theorem WellFormed.node?_eq_some_iff (hd : d.WellFormed) {node : Node} :
    d.node? (place ++ [name]) = some node ↔ (place ++ [name], node) ∈ d.nodes := by
  have hne : (place ++ [name]).isEmpty = false := by simp
  simp only [node?, hne, Bool.false_eq_true, if_false, lookup_eq_some_iff_mem hd.unambiguous]

/-- A name counts as that of a file if a file lies there, unless its path is
too long. -/
theorem WellFormed.kind_child_eq_file (hd : d.WellFormed)
    (h : d.lookup p = .ok ⟨place, .directory⟩) :
    name ∈ d.inside place ∧ d.kind (p.child name) = some .file ↔
      (∃ content, d.node? (place ++ [name]) = some (.file content))
        ∧ fits (p.child name) = true := by
  have hname (node : Node) (hmem : (place ++ [name], node) ∈ d.nodes) : EntryName name :=
    hd.names _ hmem name (List.mem_append_right _ (List.mem_singleton_self _))
  constructor
  · rintro ⟨hinside, hkind⟩
    obtain ⟨node, hmem⟩ := mem_inside.mp hinside
    rw [kind_child h (hname node hmem), Option.ite_none_right_eq_some] at hkind
    obtain ⟨hfits, hkind⟩ := hkind
    rw [hd.node?_eq_some_iff.mpr hmem] at hkind
    cases node with
    | file content => exact ⟨⟨content, hd.node?_eq_some_iff.mpr hmem⟩, hfits⟩
    | directory => cases hkind
  · rintro ⟨⟨content, hnode⟩, hfits⟩
    have hmem := hd.node?_eq_some_iff.mp hnode
    refine ⟨mem_inside.mpr ⟨_, hmem⟩, ?_⟩
    rw [kind_child h (hname _ hmem), if_pos hfits, hnode]
    rfl

end Disk

/-! ## Paths that stay where they are -/

/-- The path that goes from the directory at hand to itself some times. -/
def Path.dots (n : Nat) : Path := ⟨String.ofList ((List.replicate n ['.', '/']).flatten ++ ['.'])⟩

section Dots

variable (n : Nat)

theorem Path.toList_dots :
    (dots n).text.toList = (List.replicate n ['.', '/']).flatten ++ ['.'] :=
  String.toList_ofList

theorem Path.pieces_dots : (dots n).pieces = List.replicate (n + 1) "." := by
  have hsplit : ((List.replicate n ['.', '/']).flatten ++ ['.']).splitOn '/' =
      List.replicate (n + 1) ['.'] := by
    induction n with
    | zero => rfl
    | succ n ih =>
      rw [List.splitOn] at ih
      rw [List.replicate_succ, List.flatten_cons, List.append_assoc, List.replicate_succ, ← ih]
      exact List.splitOnP_append_cons ['.'] _ rfl
  rw [pieces, toList_dots, hsplit, List.map_replicate]

theorem Path.size_dots : (dots n).text.utf8ByteSize = 2 * n + 1 := by
  rw [dots, ← byteLength_ofList, byteLength_append]
  induction n with
  | zero => rfl
  | succ n ih =>
    rw [List.replicate_succ, List.flatten_cons, byteLength_append, Nat.add_assoc, ih]
    have hsize : byteLength ['.', '/'] = 2 := rfl
    omega

theorem Path.child_dots (name : String) :
    (dots n).child name = ⟨(dots n).text ++ "/" ++ name⟩ := by
  rw [child, toList_dots, List.getLast?_concat]
  rfl

theorem Disk.walk_idle {d : Disk} {here : Place} {pieces : List String}
    (hpieces : ∀ piece ∈ pieces, Path.isIdle piece = true) (h : d.node? here = some .directory) :
    d.walk here pieces = .ok here := by
  induction pieces with
  | nil => exact walk_nil_ok.mpr ⟨by rw [h]; rfl, rfl⟩
  | cons piece rest ih =>
    obtain ⟨hpiece, hrest⟩ := List.forall_mem_cons.mp hpieces
    rw [walk_cons h, step, hpiece, if_pos rfl]
    exact ih hrest

theorem Disk.checkText_dots : checkText (Path.dots n) = .ok () := by
  have hnull : (Path.dots n).text.toList.contains (Char.ofNat 0) = false := by
    rw [Path.toList_dots, List.contains_eq_mem, decide_eq_false_iff_not, List.mem_append]
    rintro (hmem | hmem)
    · obtain ⟨pair, hpair, hmem⟩ := List.mem_flatten.mp hmem
      rw [List.eq_of_mem_replicate hpair] at hmem
      exact absurd hmem (by decide)
    · exact absurd hmem (by decide)
  have hempty : (Path.dots n).text.isEmpty = false := by
    rw [String.isEmpty, Path.size_dots]
    rfl
  rw [checkText, hnull, hempty]
  rfl

/-- Such a path leads to where paths begin, if it is not too long. -/
theorem Disk.lookup_dots {d : Disk} (h : d.node? d.home = some .directory)
    (hn : 2 * n + 1 ≤ pathLimit) : d.lookup (Path.dots n) = .ok ⟨d.home, .directory⟩ := by
  have hfits : fits (Path.dots n) = true := by
    rw [fits, Path.size_dots]
    exact decide_eq_true hn
  have horigin : d.origin (Path.dots n) = d.home := by
    rw [origin, Path.isAbsolute, Path.toList_dots]
    cases n <;> rfl
  have hwalk : d.walk (d.origin (Path.dots n)) (Path.dots n).pieces = .ok d.home := by
    rw [horigin, Path.pieces_dots]
    refine walk_idle (fun piece hpiece => ?_) h
    rw [List.eq_of_mem_replicate hpiece]
    rfl
  have hwhole : checkWhole (Path.dots n) = .ok () := by
    rw [checkWhole, checkText_dots, hfits]
    rfl
  exact lookup_ok.mpr ⟨hwhole, hwalk, .directory, h, rfl⟩

end Dots

namespace Build

variable {d : Disk} {input : Path}

/-- A directory of a disk stands for the files that lie in it and are called
source files, in the order of the bytes of their names, in whatever order
the disk lists them. What is translated is the same in any order, too. A
file counts if its path is not too long to be looked up. -/
theorem collect_from_disk (hd : d.WellFormed) (hinput : d.kind input = some .directory) :
    ∃ place sources, d.lookup input = .ok ⟨place, .directory⟩
      ∧ (∀ name, name ∈ sources ↔
        (∃ content, d.node? (place ++ [name]) = some (.file content))
          ∧ (∃ stem, stem ≠ "" ∧ name = stem ++ ".vm") ∧ Disk.fits (input.child name) = true)
      ∧ sources.Pairwise (fun a b => bytes a < bytes b)
      ∧ ∀ d', d.Reordered d' →
        Answers d' (collect input)
            (if sources = [] then .error (.noSources input) else .ok (sources.map input.child))
          ∧ ∀ config, ∃ answer, Answers d (translate config input) answer
            ∧ Answers d' (translate config input) answer := by
  obtain ⟨place, hplace⟩ := Disk.exists_of_kind hinput
  have hnames : entriesAt d input = .ok (d.inside place) := Disk.entries_of_lookup hplace
  refine ⟨place, sourcesAmong d input (d.inside place), hplace, fun name => ?_,
    bytes_inOrder ((Disk.nodup_inside hd.unambiguous place).filter _), fun d' h => ?_⟩
  · rw [mem_sourcesAmong, and_left_comm, and_left_comm (b := ∃ stem, _)]
    exact and_congr_right fun _ => hd.kind_child_eq_file hplace
  · have hlisted := h.relisted hd.unambiguous input
    have hcollect := collect_relisted hlisted hinput hnames
    exact ⟨hcollect, both_translate d.still hlisted
      ⟨_, collect_directory d.still hinput hnames, hcollect⟩⟩

/-- Two source files, and what looks like some more: a file that is all
ending, another kind of file, and a directory. -/
def mixed : Disk :=
  ⟨[], [(["b.vm"], .file .empty), ([".vm"], .file .empty), (["b.txt"], .file .empty),
    (["x.vm"], .directory), (["B.vm"], .file .empty)]⟩

/-- The same disk, listed from the end. -/
def mixedBack : Disk := ⟨[], mixed.nodes.reverse⟩

theorem collect_in_order_mixed :
    kindAt mixed ⟨"."⟩ = some .directory
      ∧ entriesAt mixed ⟨"."⟩ = .ok ["b.vm", ".vm", "b.txt", "x.vm", "B.vm"]
      ∧ Relisted mixed mixedBack ⟨"."⟩
      ∧ Answers mixedBack (collect ⟨"."⟩) (.ok [⟨"./B.vm"⟩, ⟨"./b.vm"⟩]) := by
  have hd : mixed.Unambiguous := by
    show (mixed.nodes.map Prod.fst).Nodup
    decide
  have hinput : kindAt mixed ⟨"."⟩ = some .directory := by decide +kernel
  have hnames : entriesAt mixed ⟨"."⟩ = .ok ["b.vm", ".vm", "b.txt", "x.vm", "B.vm"] := by
    decide +kernel
  have hback : mixed.Reordered mixedBack := ⟨rfl, List.reverse_perm mixed.nodes⟩
  have hsources : sourcesAmong mixed ⟨"."⟩ ["b.vm", ".vm", "b.txt", "x.vm", "B.vm"] =
      ["B.vm", "b.vm"] := by
    refine List.Perm.eq_of_pairwise (fun a b _ _ => String.le_antisymm) (pairwise_inOrder _)
      (by decide) ((List.mergeSort_perm _ _).trans ?_)
    decide +kernel
  have hcollect := collect_directory mixed.still hinput hnames
  rw [hsources] at hcollect
  obtain ⟨sources, -, -, hsame⟩ := collect_in_order mixed.still hinput hnames (by decide)
  have hfirst := (hsame mixed (Disk.Reordered.relisted hd ⟨rfl, .refl _⟩ _)).1
  refine ⟨hinput, hnames, hback.relisted hd _, ?_⟩
  have hsecond := (hsame mixedBack (hback.relisted hd _)).1
  rwa [(Prod.mk.inj (hfirst.symm.trans hcollect)).1] at hsecond

/-- A source file in the directory where paths begin. -/
def lone : Disk := ⟨["work"], [(["work"], .directory), (["work", "A.vm"], .file .empty)]⟩

/-- A directory is refused although there is a source file in it, as the
path of the directory and the name of the file are too long together. -/
theorem collect_misses_long_path :
    lone.Unambiguous ∧ lone.lookup (Path.dots 2045) = .ok ⟨["work"], .directory⟩
      ∧ entriesAt lone (Path.dots 2045) = .ok ["A.vm"]
      ∧ lone.node? (["work"] ++ ["A.vm"]) = some (.file .empty)
      ∧ Answers lone (collect (Path.dots 2045)) (.error (.noSources (Path.dots 2045))) := by
  have hd : lone.Unambiguous := by
    show (lone.nodes.map Prod.fst).Nodup
    decide
  have hplace : lone.lookup (Path.dots 2045) = .ok ⟨["work"], .directory⟩ :=
    Disk.lookup_dots 2045 (d := lone) rfl (by decide)
  have hinput : kindAt lone (Path.dots 2045) = some .directory := by
    rw [Disk.kindAt_eq, Disk.kind, hplace]
  have hnames : entriesAt lone (Path.dots 2045) = .ok ["A.vm"] := Disk.entries_of_lookup hplace
  have hlong : Disk.fits ((Path.dots 2045).child "A.vm") = false := by
    rw [Disk.fits, Path.child_dots, String.utf8ByteSize_append, String.utf8ByteSize_append,
      Path.size_dots]
    decide
  have hsources : sourcesAmong lone (Path.dots 2045) ["A.vm"] = [] := by
    refine List.eq_nil_iff_forall_not_mem.mpr fun name hname => ?_
    obtain ⟨hmem, -, hkind⟩ := mem_sourcesAmong.mp hname
    obtain rfl := List.mem_singleton.mp hmem
    rw [Disk.kindAt_eq, Disk.kind_of_not_fits hlong] at hkind
    cases hkind
  have hcollect := collect_directory lone.still hinput hnames
  rw [if_pos hsources] at hcollect
  exact ⟨hd, hplace, hnames, rfl, hcollect⟩

end Build

end HackVm
