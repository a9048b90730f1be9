import Mathlib.Data.List.Nodup
import Mathlib.Data.List.TakeWhile
import Std.Data.String.ToNat
import HackVm.Proofs.Blocks
import HackVm.Proofs.Layout

/-!
# Static cells

A static command loads one symbol that no register has, and the symbol
tells the name of the file and the index apart (`Cell.staticSymbol_inj`):
the digits of the index hold no dot, so the last dot is the one between
them. Whether two files share their cells is then a question about base
names alone (`Job.staticsSeparate_of_baseNames`).

The base name of a file is what follows its last slash or backslash. Names
that hold neither keep all of their stem, and for these the static cells
of different files are certain to be different cells. A backslash is an
ordinary character in the name of a file where the slash separates, and
there two files can have one base name and share their cells.
-/

namespace HackVm

open Assembly

/-! ## Symbols of static cells -/

theorem dot_notMem_digits (n : Nat) : '.' ∉ (toString n).toList := by
  rw [Nat.toString_eq_repr, Nat.toList_repr]
  intro h
  have hdigit := Nat.isDigit_of_mem_toDigits (by omega) (by omega) h
  exact absurd hdigit (by decide)

/-- The last dot of a text is found from behind. -/
theorem eq_of_append_dot {s t d e : List Char} (hd : '.' ∉ d) (he : '.' ∉ e)
    (h : s ++ '.' :: d = t ++ '.' :: e) : s = t ∧ d = e := by
  rcases List.append_eq_append_iff.mp h with ⟨_ | ⟨c, r⟩, hs, hd'⟩ | ⟨_ | ⟨c, r⟩, hs, hd'⟩
  · rw [List.append_nil] at hs
    exact ⟨hs.symm, (List.cons.inj hd').2⟩
  · rw [(List.cons.inj hd').2] at hd
    exact absurd (List.mem_append_right r (List.mem_cons_self ..)) hd
  · rw [List.append_nil] at hs
    exact ⟨hs, (List.cons.inj hd').2.symm⟩
  · rw [(List.cons.inj hd').2] at he
    exact absurd (List.mem_append_right r (List.mem_cons_self ..)) he

namespace Cell

theorem toList_staticSymbol (file : String) (index : UInt16) :
    (staticSymbol file index).toList = file.toList ++ '.' :: (toString index.toNat).toList := by
  simp [staticSymbol]

theorem dot_mem_staticSymbol (file : String) (index : UInt16) :
    '.' ∈ (staticSymbol file index).toList := by
  rw [toList_staticSymbol]
  exact List.mem_append_right _ (List.mem_cons_self ..)

theorem staticSymbol_inj {file file' : String} {index index' : UInt16} :
    staticSymbol file index = staticSymbol file' index' ↔ file = file' ∧ index = index' := by
  constructor
  · intro h
    have hlist := congrArg String.toList h
    rw [toList_staticSymbol, toList_staticSymbol] at hlist
    obtain ⟨hfile, hindex⟩ :=
      eq_of_append_dot (dot_notMem_digits _) (dot_notMem_digits _) hlist
    exact ⟨String.toList_inj.mp hfile,
      UInt16.toNat_inj.mp (Nat.repr_injective (String.toList_inj.mp hindex))⟩
  · rintro ⟨rfl, rfl⟩
    rfl

end Cell

theorem Assembly.predefined?_eq_none_of_mem {name : String} {c : Char}
    (hnone : ∀ p ∈ predefined, c ∉ p.1.toList) (h : c ∈ name.toList) : predefined? name = none := by
  rw [predefined?, List.lookup_eq_none_iff]
  intro p hp
  rw [bne_iff_ne]
  rintro rfl
  exact hnone p hp h

theorem predefined?_staticSymbol (file : String) (index : UInt16) :
    predefined? (Cell.staticSymbol file index) = none :=
  predefined?_eq_none_of_mem (by decide) (Cell.dot_mem_staticSymbol file index)

/-! ## The symbols that a block loads -/

namespace Code

/-- The symbols of a block that are not predefined. -/
def ownSymbols (block : List Instruction) : List String :=
  (symbols block).filter fun name => (predefined? name).isNone

theorem ownSymbols_append (s t : List Instruction) :
    ownSymbols (s ++ t) = ownSymbols s ++ ownSymbols t := by
  simp only [ownSymbols, symbols_append, List.filter_append]

theorem resolve_static {file : String} {index : UInt16} {c : Command} {cell : Cell}
    (h : Cell.resolve file .static index c = .ok cell) :
    isSymbol file = true ∧ cell = .fixed (.symbol (Cell.staticSymbol file index)) := by
  cases resolved_of_resolve h with
  | based hbase => cases hbase
  | static hfile => exact ⟨hfile, rfl⟩

/-- The symbol of a static cell is the only one of its own that a static
command loads. -/
theorem ownSymbols_static {file : String} {labels : Labels} {c : Command} {index : UInt16}
    {body : List Instruction} (hbody : ofCommand file labels c = .ok body)
    (hstatic : c.static? = some index) : ownSymbols body = [Cell.staticSymbol file index] := by
  have hown (rest : List Instruction) (hrest : ownSymbols rest = []) :
      ownSymbols (.loadSymbol (Cell.staticSymbol file index) :: rest) =
        [Cell.staticSymbol file index] := by
    have hone : ownSymbols [.loadSymbol (Cell.staticSymbol file index)] =
        [Cell.staticSymbol file index] :=
      List.filter_cons_of_pos (by rw [predefined?_staticSymbol]; rfl)
    rw [← List.singleton_append, ownSymbols_append, hone, hrest, List.append_nil]
  cases c with
  | push s i =>
    cases s <;> cases hstatic
    obtain ⟨cell, hcell, rfl⟩ := except_map_ok hbody
    obtain ⟨-, rfl⟩ := resolve_static hcell
    exact hown _ rfl
  | pop s i =>
    cases s <;> cases hstatic
    obtain ⟨cell, hcell, hpop⟩ := except_bind_ok hbody
    obtain ⟨-, rfl⟩ := resolve_static hcell
    obtain rfl := Except.ok.inj hpop
    rw [ownSymbols_append]
    exact hown _ rfl
  | _ => cases hstatic

theorem ownSymbols_remark (comments : Bool) (text : String) :
    ownSymbols (remark comments text) = [] := by
  cases comments <;> rfl

end Code

/-! ## Base names -/

/-- A name that ends in `.vm`, with something in front. -/
def Source.IsVm (f : Source) : Prop := ∃ stem, stem ≠ "" ∧ f.name = stem ++ ".vm"

/-- Without a slash or a backslash, the base name is the whole stem. -/
theorem baseName_append_vm {stem : String} (hslash : '/' ∉ stem.toList)
    (hback : '\\' ∉ stem.toList) : baseName (stem ++ ".vm") = stem := by
  have hall : ∀ c ∈ (stem ++ ".vm").toList.reverse, (c != '/' && c != '\\') = true := by
    intro c hc
    rw [List.mem_reverse, String.toList_append, List.mem_append] at hc
    rw [Bool.and_eq_true, bne_iff_ne, bne_iff_ne]
    rcases hc with hc | hc
    · exact ⟨fun h => hslash (h ▸ hc), fun h => hback (h ▸ hc)⟩
    · have hslash' : '/' ∉ ".vm".toList := by decide
      have hback' : '\\' ∉ ".vm".toList := by decide
      exact ⟨fun h => hslash' (h ▸ hc), fun h => hback' (h ▸ hc)⟩
  have hreverse : (stem ++ ".vm").toList.reverse = 'm' :: 'v' :: '.' :: stem.toList.reverse := by
    rw [String.toList_append, List.reverse_append]
    rfl
  rw [baseName, List.takeWhile_eq_self_iff.mpr hall, hreverse]
  simp

/-! ## Static cells of a program -/

namespace Job

variable {j : Job} {code : List Instruction}

/-- The block of a static command names its cell by the base name of the
file and the index. -/
theorem block_static (h : j.translate = .ok code) {k : Nat} {s : Site} {i : UInt16}
    (hs : j.sites[k]? = some s) (hi : s.command.static? = some i) :
    ∃ block, j.blocks[k]? = some block
      ∧ Code.ownSymbols block = [Cell.staticSymbol s.file i] := by
  obtain ⟨hlist, -⟩ := translate_ok h
  obtain ⟨block, hget, hblock⟩ := listBlocks_getElem? hlist hs
  obtain ⟨body, hbody, rfl⟩ := except_map_ok hblock
  refine ⟨_, hget, ?_⟩
  rw [Code.ownSymbols_append, Code.ownSymbols_remark, Code.ownSymbols_static hbody hi,
    List.nil_append]

/-- The symbols of the static cells that the program uses. -/
def staticSymbols (j : Job) : List String :=
  j.sites.filterMap fun s => s.command.static?.map (Cell.staticSymbol s.file)

theorem mem_staticSymbols {s : Site} {i : UInt16} (hs : s ∈ j.sites)
    (hi : s.command.static? = some i) : Cell.staticSymbol s.file i ∈ j.staticSymbols :=
  List.mem_filterMap.mpr ⟨s, hs, by rw [hi]; rfl⟩

theorem mem_symbols_static (h : j.translate = .ok code) {s : Site} {i : UInt16}
    (hs : s ∈ j.sites) (hi : s.command.static? = some i) :
    Cell.staticSymbol s.file i ∈ symbols code := by
  obtain ⟨k, hk⟩ := List.mem_iff_getElem?.mp hs
  obtain ⟨block, hget, hown⟩ := block_static h hk hi
  have hload : Cell.staticSymbol s.file i ∈ symbols block := by
    have hmem : Cell.staticSymbol s.file i ∈ Code.ownSymbols block := by
      rw [hown]
      exact List.mem_cons_self ..
    exact (List.mem_filter.mp hmem).1
  obtain ⟨instruction, hinstruction, hname⟩ := List.mem_filterMap.mp hload
  obtain ⟨-, rfl⟩ := translate_ok h
  refine List.mem_filterMap.mpr ⟨instruction, List.mem_append_right _ ?_, hname⟩
  exact List.mem_flatten.mpr ⟨block, List.mem_of_getElem? hget, hinstruction⟩

/-- Any two static commands use one symbol exactly if they are in the same
file and have the same index. -/
def StaticsSeparate (j : Job) : Prop :=
  ∀ p q p' q' s s' i i', j.site? p q = some s → j.site? p' q' = some s' →
    s.command.static? = some i → s'.command.static? = some i' →
    ∃ block block' x x', j.blocks[j.index p q]? = some block
      ∧ j.blocks[j.index p' q']? = some block'
      ∧ Code.ownSymbols block = [x] ∧ Code.ownSymbols block' = [x']
      ∧ (x = x' ↔ p = p' ∧ i = i')

/-- The static cells of a program are separate if base names tell its
files apart. -/
theorem staticsSeparate_of_baseNames (h : j.translate = .ok code)
    (hbase : (j.files.map fun f => baseName f.name).Nodup) : j.StaticsSeparate := by
  intro p q p' q' s s' i i' hs hs' hi hi'
  obtain ⟨hk, f, hf, hname⟩ := site?_eq_some hs
  obtain ⟨hk', f', hf', hname'⟩ := site?_eq_some hs'
  obtain ⟨block, hget, hown⟩ := block_static h hk hi
  obtain ⟨block', hget', hown'⟩ := block_static h hk' hi'
  refine ⟨block, block', _, _, hget, hget', hown, hown', ?_⟩
  have hfiles : s.file = s'.file ↔ p = p' := by
    have hlt : p < (j.files.map fun f => baseName f.name).length := by
      rw [List.length_map]
      exact (List.getElem?_eq_some_iff.mp hf).1
    rw [← List.getElem?_inj hlt hbase, List.getElem?_map, List.getElem?_map, hf, hf',
      Option.map_some, Option.map_some, Option.some_inj, Site.file, Site.file, hname, hname']
  rw [Cell.staticSymbol_inj, hfiles]

/-- In a directory of files whose names hold neither a slash nor a
backslash, static cells are separate. -/
theorem static_cells_separate (h : j.translate = .ok code)
    (hdistinct : (j.files.map Source.name).Nodup)
    (hnames : ∀ f ∈ j.files, f.IsVm ∧ '/' ∉ f.name.toList ∧ '\\' ∉ f.name.toList) :
    j.StaticsSeparate := by
  refine staticsSeparate_of_baseNames h ?_
  have hstem : ∀ f ∈ j.files, f.name = baseName f.name ++ ".vm" := by
    intro f hf
    obtain ⟨⟨stem, -, hname⟩, hslash, hback⟩ := hnames f hf
    rw [hname, String.toList_append, List.mem_append, not_or] at hslash hback
    rw [hname, baseName_append_vm hslash.1 hback.1]
  have hmap : (j.files.map fun f => baseName f.name) =
      (j.files.map Source.name).map baseName := by
    rw [List.map_map]
    rfl
  rw [hmap]
  refine List.Nodup.map_on ?_ hdistinct
  simp only [List.mem_map]
  rintro _ ⟨f, hf, rfl⟩ _ ⟨f', hf', rfl⟩ heq
  rw [hstem f hf, hstem f' hf', heq]

/-- Two files, each of which pushes its first static cell. -/
def twoStatics (name name' : String) : Job :=
  ⟨{}, false, [⟨name, "push static 0"⟩, ⟨name', "push static 0"⟩]⟩

theorem static_cells_separate_two : (twoStatics "A.vm" "B.vm").StaticsSeparate :=
  static_cells_separate (translate_output (by decide +kernel)) (by decide) (by
    intro f hf
    rcases List.mem_cons.mp hf with rfl | hf
    · exact ⟨⟨"A", by decide, by decide⟩, by decide, by decide⟩
    · obtain rfl := List.mem_singleton.mp hf
      exact ⟨⟨"B", by decide, by decide⟩, by decide, by decide⟩)

/-- With a backslash in their names, two files share their static cells. -/
theorem static_cells_shared :
    ∃ j code, Job.translate j = .ok code ∧ (j.files.map Source.name).Nodup
      ∧ (∀ f ∈ j.files, f.IsVm ∧ '/' ∉ f.name.toList) ∧ ¬j.StaticsSeparate := by
  let j := twoStatics "a\\X.vm" "b\\X.vm"
  refine ⟨j, _, translate_output (by decide +kernel), by decide, ?_, fun hsep => ?_⟩
  · intro f hf
    rcases List.mem_cons.mp hf with rfl | hf
    · exact ⟨⟨"a\\X", by decide, by decide⟩, by decide⟩
    · obtain rfl := List.mem_singleton.mp hf
      exact ⟨⟨"b\\X", by decide, by decide⟩, by decide⟩
  · have hs : j.site? 0 0 = some ⟨"a\\X.vm", .push .static 0⟩ := by decide +kernel
    have hs' : j.site? 1 0 = some ⟨"b\\X.vm", .push .static 0⟩ := by decide +kernel
    have hown : (j.blocks[j.index 0 0]?).map Code.ownSymbols = some ["X.0"] := by decide +kernel
    have hown' : (j.blocks[j.index 1 0]?).map Code.ownSymbols = some ["X.0"] := by decide +kernel
    obtain ⟨block, block', x, x', hget, hget', hx, hx', hiff⟩ :=
      hsep 0 0 1 0 _ _ 0 0 hs hs' rfl rfl
    rw [hget, Option.map_some, hx] at hown
    rw [hget', Option.map_some, hx'] at hown'
    have hsame : x = x' := by
      cases hown
      cases hown'
      rfl
    exact absurd (hiff.mp hsame).1 (by decide)

end Job

end HackVm
