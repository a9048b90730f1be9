import HackVm.File.Disk
import HackVm.Proofs.Results

/-!
# Storing a text

A file is stored where no directory is. A path passes through directories
only, so every path that led somewhere before still leads there
(`Disk.walk_put`), and what it finds there is as before unless it is the
place of the new file. The path under which a text was stored leads to
this place, and the text can be read from it again (`Disk.Stored`).
-/

namespace HackVm.Disk

variable {d d' : Disk} {p : Path} {here found place : Place} {piece : String}
  {pieces : List String} {node : Node} {text : String}

theorem ne_nil_of_free (h : d.node? place ≠ some .directory) : place ≠ [] := by
  rintro rfl
  exact h rfl

/-! ## Paths, piece by piece -/

/-- Where one piece of a path leads from a directory. -/
def step (here : Place) (piece : String) : Except IoError Place :=
  if Path.isIdle piece then .ok here
  else if piece == ".." then .ok here.dropLast
  else if nameLimit < piece.utf8ByteSize then .error .nameTooLong
  else .ok (here ++ [piece])

theorem walk_nil_ok : d.walk here [] = .ok found ↔ (d.node? here).isSome ∧ here = found := by
  rw [walk]
  cases d.node? here <;> simp

theorem walk_cons (hdirectory : d.node? here = some .directory) :
    d.walk here (piece :: pieces) = (step here piece).bind (d.walk · pieces) := by
  simp only [walk, hdirectory, step]
  split
  · rfl
  · split
    · rfl
    · split <;> rfl

theorem walk_cons_ok :
    d.walk here (piece :: pieces) = .ok found ↔
      d.node? here = some .directory
        ∧ ∃ next, step here piece = .ok next ∧ d.walk next pieces = .ok found := by
  constructor
  · intro h
    have hdirectory : d.node? here = some .directory := by
      rw [walk] at h
      split at h
      · cases h
      · cases h
      · assumption
    rw [walk_cons hdirectory] at h
    exact ⟨hdirectory, except_bind_ok h⟩
  · rintro ⟨hdirectory, next, hstep, hwalk⟩
    rw [walk_cons hdirectory, hstep]
    exact hwalk

theorem walk_append {middle : Place} {more : List String} (h : d.walk here pieces = .ok middle) :
    d.walk here (pieces ++ more) = d.walk middle more := by
  induction pieces generalizing here with
  | nil =>
    obtain ⟨-, rfl⟩ := walk_nil_ok.mp h
    rfl
  | cons piece rest ih =>
    obtain ⟨hdirectory, next, hstep, hrest⟩ := walk_cons_ok.mp h
    rw [List.cons_append, walk_cons hdirectory, hstep]
    exact ih hrest

theorem isSome_of_walk (h : d.walk here pieces = .ok found) : (d.node? here).isSome := by
  cases pieces with
  | nil => exact (walk_nil_ok.mp h).1
  | cons piece rest => rw [(walk_cons_ok.mp h).1, Option.isSome_some]

theorem walk_append_ok {more : List String} :
    d.walk here (pieces ++ more) = .ok found ↔
      ∃ middle, d.walk here pieces = .ok middle ∧ d.walk middle more = .ok found := by
  constructor
  · intro h
    induction pieces generalizing here with
    | nil => exact ⟨here, walk_nil_ok.mpr ⟨isSome_of_walk h, rfl⟩, h⟩
    | cons piece rest ih =>
      obtain ⟨hdirectory, next, hstep, hrest⟩ := walk_cons_ok.mp h
      obtain ⟨middle, hmiddle, hmore⟩ := ih hrest
      exact ⟨middle, walk_cons_ok.mpr ⟨hdirectory, next, hstep, hmiddle⟩, hmore⟩
  · rintro ⟨middle, hmiddle, hmore⟩
    rw [walk_append hmiddle, hmore]

theorem eq_of_walk_idle (hidle : ∀ piece ∈ pieces, Path.isIdle piece = true)
    (h : d.walk here pieces = .ok found) : here = found := by
  induction pieces with
  | nil => exact (walk_nil_ok.mp h).2
  | cons piece rest ih =>
    obtain ⟨hpiece, hrest⟩ := List.forall_mem_cons.mp hidle
    obtain ⟨-, next, hstep, hwalk⟩ := walk_cons_ok.mp h
    rw [step, hpiece, if_pos rfl] at hstep
    obtain rfl := Except.ok.inj hstep
    exact ih hrest hwalk

/-- A path leads to a place of the last name in it. -/
theorem getLast?_of_walk {name : String} {above : List String}
    (hname : pieces.reverse.dropWhile Path.isIdle = name :: above) (hup : name ≠ "..")
    (h : d.walk here pieces = .ok found) : found.getLast? = some name := by
  have hsplit := List.takeWhile_append_dropWhile (p := Path.isIdle) (l := pieces.reverse)
  have hidle := List.all_eq_true.mp (List.all_takeWhile (p := Path.isIdle) (l := pieces.reverse))
  have hbusy := List.head?_dropWhile_not Path.isIdle pieces.reverse
  rw [hname] at hsplit hbusy
  generalize pieces.reverse.takeWhile Path.isIdle = idle at hsplit hidle
  have hpieces : pieces = above.reverse ++ name :: idle.reverse := by
    rw [← List.reverse_reverse pieces, ← hsplit]
    simp
  rw [hpieces] at h
  obtain ⟨parent, -, hlast⟩ := walk_append_ok.mp h
  obtain ⟨-, next, hstep, hrest⟩ := walk_cons_ok.mp hlast
  obtain rfl := eq_of_walk_idle (fun piece hpiece => hidle piece (List.mem_reverse.mp hpiece)) hrest
  have hdown : (name == "..") = false := beq_eq_false_iff_ne.mpr hup
  have hnot : Path.isIdle name = false := hbusy
  rw [step, hnot, hdown, if_neg nofun, if_neg nofun] at hstep
  obtain ⟨-, hstep⟩ := except_ite_ok.mp hstep
  rw [← Except.ok.inj hstep, List.getLast?_concat]

theorem lookup_ok {p : Path} {found : Found} :
    d.lookup p = .ok found ↔
      checkWhole p = .ok () ∧ d.walk (d.origin p) p.pieces = .ok found.place
        ∧ ∃ node, d.node? found.place = some node ∧ node.kind = found.kind := by
  constructor
  · intro h
    obtain ⟨_, hwhole, hlocate⟩ := except_bind_ok h
    obtain ⟨_, -, hlocate⟩ := except_bind_ok hlocate
    obtain ⟨place, hwalk, hnode⟩ := except_bind_ok hlocate
    split at hnode
    · rename_i node hplace
      cases hnode
      exact ⟨hwhole, hwalk, node, hplace, rfl⟩
    · cases hnode
  · rintro ⟨hwhole, hwalk, node, hnode, hkind⟩
    obtain ⟨_, htext, -⟩ := except_bind_ok hwhole
    rw [lookup, hwhole]
    show d.locate p = _
    rw [locate, htext, hwalk]
    simp only [bind, Except.bind, hnode, hkind]

/-! ## What paths find once a file is there -/

/-- A path that leads somewhere leads there still. -/
theorem walk_put (hfree : d.node? place ≠ some .directory) (h : d.walk here pieces = .ok found) :
    (d.put place node).walk here pieces = .ok found := by
  induction pieces generalizing here with
  | nil =>
    obtain ⟨hsome, rfl⟩ := walk_nil_ok.mp h
    refine walk_nil_ok.mpr ⟨?_, rfl⟩
    by_cases heq : here = place
    · rw [heq, node?_put_self d node (ne_nil_of_free hfree)]
      rfl
    · rwa [node?_put_of_ne d node heq]
  | cons piece rest ih =>
    obtain ⟨hdirectory, next, hstep, hrest⟩ := walk_cons_ok.mp h
    -- The path goes on from here, which no file allows.
    have hne : here ≠ place := by
      rintro rfl
      exact hfree hdirectory
    refine walk_cons_ok.mpr ⟨?_, next, hstep, ih hrest⟩
    rw [node?_put_of_ne d node hne, hdirectory]

/-- A path that leads somewhere else than to a new file has led there
before. -/
theorem walk_of_put {content : ByteArray}
    (h : (d.put place (.file content)).walk here pieces = .ok found) (hne : found ≠ place) :
    d.walk here pieces = .ok found := by
  induction pieces generalizing here with
  | nil =>
    obtain ⟨hsome, rfl⟩ := walk_nil_ok.mp h
    rw [node?_put_of_ne d _ hne] at hsome
    exact walk_nil_ok.mpr ⟨hsome, rfl⟩
  | cons piece rest ih =>
    obtain ⟨hdirectory, next, hstep, hrest⟩ := walk_cons_ok.mp h
    refine walk_cons_ok.mpr ⟨?_, next, hstep, ih hrest⟩
    by_cases heq : here = place
    · subst heq
      by_cases hroot : here = []
      · rw [hroot]
        rfl
      · rw [node?_put_self d _ hroot] at hdirectory
        cases hdirectory
    · rwa [node?_put_of_ne d _ heq] at hdirectory

/-- A place that a path can store a file at. -/
structure CanHold (d : Disk) (p : Path) (place : Place) : Prop where
  whole : checkWhole p = .ok ()
  free : d.node? place ≠ some .directory
  /-- The last piece of the path leads to the place from a directory, to
  which the other pieces lead. -/
  parent : ∃ above name parent, p.pieces = above ++ [name]
    ∧ d.walk (d.origin p) above = .ok parent ∧ d.node? parent = some .directory
    ∧ step parent name = .ok place

/-- A name that a file can have. -/
structure Proper (name : String) : Prop where
  busy : Path.isIdle name = false
  down : name ≠ ".."
  short : ¬nameLimit < name.utf8ByteSize

theorem step_proper {name : String} (h : Proper name) (here : Place) :
    step here name = .ok (here ++ [name]) := by
  have hdown : (name == "..") = false := beq_eq_false_iff_ne.mpr h.down
  rw [step, h.busy, hdown, if_neg nofun, if_neg nofun, if_neg h.short]

theorem pieces_of_dropWhile {name : String} {above : List String}
    (h : pieces.reverse.dropWhile (· == "") = name :: above) (hlast : pieces.getLast? ≠ some "") :
    pieces = above.reverse ++ [name] := by
  have hhead : pieces.reverse.dropWhile (· == "") = pieces.reverse := by
    cases hreverse : pieces.reverse with
    | nil => rfl
    | cons last rest =>
      refine List.dropWhile_cons_of_neg fun hempty => hlast ?_
      rw [List.getLast?_eq_head?_reverse, hreverse, List.head?_cons, beq_iff_eq.mp hempty]
  rw [← List.reverse_reverse pieces, ← hhead, h, List.reverse_cons]

/-- A file is stored where the path leads, under the name that the path
ends in. -/
theorem fileAt_ok : d.fileAt p = .ok place ↔
    d.CanHold p place ∧ ∃ name, p.pieces.getLast? = some name ∧ Proper name := by
  constructor
  · intro h
    obtain ⟨_, hwhole, h⟩ := except_bind_ok h
    split at h
    · cases h
    · rename_i name above hpieces
      obtain ⟨parent, hparent, h⟩ := except_bind_ok h
      split at h
      · rename_i hdirectory
        obtain ⟨hname, h⟩ := except_ite_ok.mp h
        obtain ⟨hshort, h⟩ := except_ite_ok.mp h
        simp only [Bool.or_eq_true, beq_iff_eq, not_or] at hname
        split at h
        · cases h
        · rename_i hfree
          obtain rfl := Except.ok.inj h
          have hlast := pieces_of_dropWhile hpieces hname.2
          have hnonempty : name ≠ "" := by
            rintro rfl
            exact hname.2 (by rw [hlast, List.getLast?_concat])
          have hproper : Proper name :=
            ⟨by simp [Path.isIdle, hnonempty, hname.1.1], hname.1.2, hshort⟩
          exact ⟨⟨hwhole, fun hd => hfree hd, above.reverse, name, parent, hlast, hparent,
            hdirectory, step_proper hproper parent⟩, name, by rw [hlast, List.getLast?_concat],
            hproper⟩
      · cases h
      · cases h
  · rintro ⟨⟨hwhole, hfree, above, name, parent, hpieces, hparent, hdirectory, hstep⟩, last,
      hlast, hproper⟩
    rw [hpieces, List.getLast?_concat, Option.some_inj] at hlast
    subst hlast
    obtain rfl := Except.ok.inj (hstep.symm.trans (step_proper hproper parent))
    have hbusy := hproper.busy
    simp only [Path.isIdle, Bool.or_eq_false_iff, beq_eq_false_iff_ne] at hbusy
    have hdrop : p.pieces.reverse.dropWhile (· == "") = name :: above.reverse := by
      rw [hpieces, List.reverse_append]
      exact List.dropWhile_cons_of_neg (by simpa using hbusy.1)
    have hname : ¬(name == "." || name == ".." || p.pieces.getLast? == some "") = true := by
      simp [hpieces, hbusy.1, hbusy.2, hproper.down]
    rw [fileAt, hwhole]
    simp only [bind, Except.bind, hdrop, List.reverse_reverse, hparent, hdirectory, if_neg hname,
      if_neg hproper.short]

theorem getLast?_of_fileAt {name : String} (h : d.fileAt p = .ok place)
    (hname : p.pieces.getLast? = some name) : place.getLast? = some name := by
  obtain ⟨⟨-, -, above, last, parent, hpieces, -, -, hstep⟩, name', hlast, hproper⟩ :=
    fileAt_ok.mp h
  obtain rfl := Option.some.inj (hname.symm.trans hlast)
  rw [hpieces, List.getLast?_concat, Option.some_inj] at hlast
  subst hlast
  obtain rfl := Except.ok.inj (hstep.symm.trans (step_proper hproper parent))
  rw [List.getLast?_concat]

/-- What can be stored once can be stored again. -/
theorem CanHold.put (h : d.CanHold p place) (content : ByteArray) :
    (d.put place (.file content)).CanHold p place := by
  obtain ⟨above, name, parent, hpieces, hparent, hdirectory, hstep⟩ := h.parent
  have hne : parent ≠ place := fun heq => h.free (heq ▸ hdirectory)
  refine ⟨h.whole, ?_, above, name, parent, hpieces, walk_put h.free hparent, ?_, hstep⟩
  · rw [node?_put_self d _ (ne_nil_of_free h.free)]
    exact nofun
  · rw [node?_put_of_ne d _ hne, hdirectory]

theorem lookup_put (h : d.CanHold p place) (content : ByteArray) :
    (d.put place (.file content)).lookup p = .ok ⟨place, .file⟩ := by
  have hnode := node?_put_self d (.file content) (ne_nil_of_free h.free)
  obtain ⟨above, name, parent, hpieces, hparent, hdirectory, hstep⟩ := (h.put content).parent
  refine lookup_ok.mpr ⟨h.whole, ?_, _, hnode, rfl⟩
  rw [hpieces, walk_append hparent, walk_cons hdirectory, hstep]
  exact walk_nil_ok.mpr ⟨by rw [hnode]; rfl, rfl⟩

/-- The text has been stored under the path: it can be read from there,
and at all other places there is what was there before. -/
structure Stored (d : Disk) (p : Path) (text : String) (d' : Disk) (place : Place) : Prop where
  /-- What was there, if anything, was a file. -/
  free : d.node? place ≠ some .directory
  disk : d' = d.put place (.file text.toUTF8)
  lookup : d'.lookup p = .ok ⟨place, .file⟩
  read : d'.read p = .ok text
  others : ∀ other ≠ place, d'.node? other = d.node? other

theorem fromUTF8?_toUTF8 (text : String) : String.fromUTF8? text.toUTF8 = some text :=
  dif_pos text.isValidUTF8

theorem stored_of_write (h : d.write p text = .ok d') : ∃ place, d.Stored p text d' place := by
  obtain ⟨place, hplace, rfl⟩ := except_map_ok h
  have hold := (fileAt_ok.mp hplace).1
  have hlookup := lookup_put hold text.toUTF8
  refine ⟨place, hold.free, rfl, hlookup, ?_, fun other hne => node?_put_of_ne d _ hne⟩
  have hnode := node?_put_self d (.file text.toUTF8) (ne_nil_of_free hold.free)
  rw [read, hlookup]
  simp only [bind, Except.bind, hnode, fromUTF8?_toUTF8]

/-! ## Storing again -/

theorem exchange_exchange (node' : Node) (nodes : List (Place × Node)) :
    exchange place node (exchange place node' nodes) = exchange place node nodes := by
  induction nodes with
  | nil => simp [exchange]
  | cons entry rest ih =>
    by_cases h : entry.1 = place
    · simp [exchange, h]
    · simp [exchange, h, ih]

theorem put_put (d : Disk) (node' : Node) : (d.put place node').put place node = d.put place node :=
  congrArg (Disk.mk d.home) (exchange_exchange node' d.nodes)

/-- A text that has been stored can be stored again, which changes
nothing. -/
theorem write_again (h : d.write p text = .ok d') : d'.write p text = .ok d' := by
  obtain ⟨place, hplace, rfl⟩ := except_map_ok h
  obtain ⟨hold, hname⟩ := fileAt_ok.mp hplace
  have hagain := fileAt_ok.mpr ⟨hold.put text.toUTF8, hname⟩
  rw [write, hagain]
  exact congrArg Except.ok (put_put d _)

/-! ## What a new file leaves as it was -/

/-- No path leads to something new, but to the new file. -/
theorem lookup_of_put {content : ByteArray} {at' : Found}
    (h : (d.put place (.file content)).lookup p = .ok at')
    (hne : at'.place ≠ place) : d.lookup p = .ok at' := by
  obtain ⟨hwhole, hwalk, node, hnode, hkind⟩ := lookup_ok.mp h
  rw [node?_put_of_ne d _ hne] at hnode
  exact lookup_ok.mpr ⟨hwhole, walk_of_put hwalk hne, node, hnode, hkind⟩

section Beside

variable {content : ByteArray} (hfree : d.node? place ≠ some .directory)

include hfree

/-- Every path leads where it led, to the same kind of thing. -/
theorem lookup_beside {at' : Found} (h : d.lookup p = .ok at') :
    (d.put place (.file content)).lookup p = .ok at' := by
  obtain ⟨hwhole, hwalk, node, hnode, hkind⟩ := lookup_ok.mp h
  refine lookup_ok.mpr ⟨hwhole, walk_put hfree hwalk, ?_⟩
  by_cases heq : at'.place = place
  · -- A file was here before.
    refine ⟨.file content, ?_, ?_⟩
    · rw [heq, node?_put_self d _ (ne_nil_of_free hfree)]
    · rw [← hkind]
      cases node with
      | file old => rfl
      | directory => exact absurd (heq ▸ hnode) hfree
  · exact ⟨node, by rw [node?_put_of_ne d _ heq, hnode], hkind⟩

theorem kind_beside {kind : FileKind} (h : d.kind p = some kind) :
    (d.put place (.file content)).kind p = some kind := by
  rw [Disk.kind] at h
  split at h
  · rename_i at' hat
    rw [Disk.kind, lookup_beside hfree hat]
    exact h
  · cases h

end Beside

theorem read_ok : d.read p = .ok text ↔ ∃ place content, d.lookup p = .ok ⟨place, .file⟩
    ∧ d.node? place = some (.file content) ∧ String.fromUTF8? content = some text := by
  constructor
  · intro h
    obtain ⟨⟨place, kind⟩, hat, h⟩ := except_bind_ok h
    obtain ⟨-, -, node, hnode, hkind⟩ := lookup_ok.mp hat
    cases node with
    | directory =>
      simp only [hnode] at h
      cases h
    | file content =>
      obtain rfl : FileKind.file = kind := hkind
      refine ⟨place, content, hat, hnode, ?_⟩
      simp only [hnode] at h
      split at h
      · cases h
        assumption
      · cases h
  · rintro ⟨place, content, hat, hnode, htext⟩
    rw [read, hat]
    simp only [bind, Except.bind, hnode, htext]

end HackVm.Disk
