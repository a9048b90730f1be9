import HackVm.Generator
import HackVm.Proofs.Statics

/-!
# Cells tell where they come from

A cell shows the segment that it was resolved from (`Cell.segment?`): a
base register belongs to one segment, a fixed number lies in the scratch
window, and a symbol is that of a static cell exactly if there is a dot in
it, since the names of the heap bases hold none. So only cells of the same
segment are left to compare, and among these the index is at hand; only in
a static cell it is a part of a longer text, where it is all that follows
the last dot (`Cell.staticSymbol_inj`).

The resolution of an index is thus injective, whatever files it is made
for (`Generator.resolve_injective`). Nothing else of a generator has a say
in it.
-/

namespace HackVm

variable {file file' : String} {s s' : Segment} {i i' : UInt16} {cell cell' : Cell}

/-! ## The segment of a cell -/

/-- The segment that a register is the base of. -/
def Register.segment? : Register → Option Segment
  | sp => some .sp
  | lcl => some .locals
  | arg => some .arguments
  | this => some .this
  | that => some .that
  | frame | link => none

theorem Register.segment?_of_base? {base : Register} (h : Code.base? s = some base) :
    base.segment? = some s := by
  cases s <;> cases h <;> rfl

/-- The segment that a cell lies in. -/
def Cell.segment? : Cell → Option Segment
  | value _ => some .constant
  | behind base _ => base.segment?
  | fixed (.constant _) => some .temp
  | fixed (.symbol name) => some (if '.' ∈ name.toList then .static else .pointer)

/-- The symbol of a static cell is no base of the heap, whatever the file
is called. -/
theorem Cell.staticSymbol_ne_heap (file : String) (index : UInt16) :
    staticSymbol file index ≠ Register.this.symbol
      ∧ staticSymbol file index ≠ Register.that.symbol := by
  have hdot := dot_mem_staticSymbol file index
  constructor
  all_goals
    intro h
    rw [h] at hdot
    exact absurd hdot (by decide)

namespace Code.Resolved

theorem segment?_eq (h : Resolved file i s cell) : cell.segment? = some s := by
  cases h with
  | constant => rfl
  | based hbase => exact Register.segment?_of_base? hbase
  | temp _ => rfl
  | this _ => rfl
  | that _ => rfl
  | static _ => rw [Cell.segment?, if_pos (Cell.dot_mem_staticSymbol file i)]

/-- Cells of one segment differ as their indices do, and as the files do if
the segment is the static one. -/
theorem eq_iff_of_segment (h : Resolved file i s cell) (h' : Resolved file' i' s cell') :
    cell = cell' ↔ i = i' ∧ (s = .static → file = file') := by
  -- A segment has cells of one kind, but for the two of the pointer segment.
  cases h with
  | constant =>
    cases h' with
    | constant => simp
    | based hbase => cases hbase
  | based hbase =>
    cases h' with
    | based hbase' =>
      obtain rfl := Option.some.inj (hbase.symm.trans hbase')
      have hstatic : s ≠ .static := by
        rintro rfl
        cases hbase
      simp [hstatic]
    | _ => cases hbase
  | temp _ =>
    cases h' with
    | temp _ => simp
    | based hbase => cases hbase
  | this h0 =>
    cases h' with
    | this h0' => simp [h0, h0']
    | that h1' => simp [h0, h1']
    | based hbase => cases hbase
  | that h1 =>
    cases h' with
    | this h0' => simp [h1, h0']
    | that h1' => simp [h1, h1']
    | based hbase => cases hbase
  | static _ =>
    cases h' with
    | static _ =>
      simp only [Cell.fixed.injEq, Address.symbol.injEq, Cell.staticSymbol_inj, forall_const]
      exact and_comm
    | based hbase => cases hbase

/-- Cells differ as segments, indices and, for static cells, files do. -/
theorem eq_iff (h : Resolved file i s cell) (h' : Resolved file' i' s' cell') :
    cell = cell' ↔ s = s' ∧ i = i' ∧ (s = .static → file = file') := by
  constructor
  · rintro rfl
    obtain rfl := Option.some.inj (h.segment?_eq.symm.trans h'.segment?_eq)
    exact ⟨rfl, (h.eq_iff_of_segment h').mp rfl⟩
  · rintro ⟨rfl, hrest⟩
    exact (h.eq_iff_of_segment h').mpr hrest

end Code.Resolved

/-! ## Generators -/

namespace Generator

theorem resolved {g : Generator} {c : Located Command} (h : g.resolve s i c = .ok cell) :
    Code.Resolved g.file i s cell := by
  rw [resolve] at h
  cases hcell : Cell.resolve g.file s i c.node with
  | error cause =>
    rw [hcell] at h
    cases h
  | ok _ =>
    rw [hcell] at h
    cases h
    exact Code.resolved_of_resolve hcell

/-- Two indices that generators resolve, for whatever files and commands,
lie in the same cell only if they are the same index of the same segment,
and of the same file if the segment is the static one. The symbol of a
static cell is never one of the pointer segment, and it determines the file
and the index, dots and digits in the name of the file or not. -/
theorem resolve_injective :
    (∀ {g g' : Generator} {s s' : Segment} {i i' : UInt16} {c c' : Located Command}
        {cell cell' : Cell}, g.resolve s i c = .ok cell → g'.resolve s' i' c' = .ok cell' →
      (cell = cell' ↔ s = s' ∧ i = i' ∧ (s = .static → g.file = g'.file)))
    ∧ (∀ (file : String) (i : UInt16), Cell.staticSymbol file i ≠ Register.this.symbol
      ∧ Cell.staticSymbol file i ≠ Register.that.symbol)
    ∧ ∀ (file file' : String) (i i' : UInt16),
      Cell.staticSymbol file i = Cell.staticSymbol file' i' ↔ file = file' ∧ i = i' :=
  ⟨fun h h' => (resolved h).eq_iff (resolved h'), Cell.staticSymbol_ne_heap,
    fun _ _ _ _ => Cell.staticSymbol_inj⟩

/-- The name of one file is that of another with a dot and a digit. -/
theorem resolve_injective_dots :
    let g := ({} : Generator).setFile "Main.1.vm"
    let g' := ({} : Generator).setFile "Main.vm"
    ∃ cell cell', g.resolve .static 1 (.unplaced (.push .static 1)) = .ok cell
      ∧ g'.resolve .static 11 (.unplaced (.pop .static 11)) = .ok cell' ∧ cell ≠ cell' := by
  intro g g'
  have h : g.resolve .static 1 (.unplaced (.push .static 1)) =
      .ok (.fixed (.symbol "Main.1.1")) := by
    decide +kernel
  have h' : g'.resolve .static 11 (.unplaced (.pop .static 11)) =
      .ok (.fixed (.symbol "Main.11")) := by
    decide +kernel
  refine ⟨_, _, h, h', fun heq => ?_⟩
  obtain ⟨-, hindex, -⟩ := (resolve_injective.1 h h').mp heq
  exact absurd hindex (by decide)

end Generator

end HackVm
