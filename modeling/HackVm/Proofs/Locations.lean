import Mathlib.Data.Prod.Lex
import Mathlib.Data.List.DropRight
import HackVm.Proofs.Carets

/-!
# Offsets and locations

A report names a place by line and column where the reader knew an offset.
Nothing is lost on the way. There is a location at an offset exactly if the
offset lies between characters (`Location.isSome_ofOffset?_iff`). It shows
the piece of the source that the offset lies in, as the source is cut up at
its line ends, and how many characters of the piece stand in front of the
offset (`Location.PointsTo`). And locations are in the order of offsets.

The text up to an offset is a row of lines with their line ends, and the
front of one more line (`exists_lines`). What is added to it when the offset
grows either lengthens that front or closes the line, so the line and the
column grow in the order of dictionaries (`Location.before_of_append`).
-/

namespace HackVm

/-! ## Lines of a text -/

/-- Lines, each with a line end behind it. -/
def closedLines (lines : List (List Char)) : List Char := lines.flatMap (· ++ ['\n'])

/-- A text is a row of closed lines and an open one. -/
theorem exists_lines (text : List Char) :
    ∃ lines lead, text = closedLines lines ++ lead ∧ (∀ l ∈ lines, '\n' ∉ l) ∧ '\n' ∉ lead := by
  induction text with
  | nil => exact ⟨[], [], rfl, by simp, by simp⟩
  | cons c text ih =>
    obtain ⟨lines, lead, rfl, hlines, hlead⟩ := ih
    by_cases hc : c = '\n'
    · subst hc
      exact ⟨[] :: lines, lead, rfl, by simpa using hlines, hlead⟩
    · cases lines with
      | nil => exact ⟨[], c :: lead, rfl, by simp, by simp [hlead, Ne.symm hc]⟩
      | cons l lines =>
        obtain ⟨hl, hlines⟩ := List.forall_mem_cons.mp hlines
        refine ⟨(c :: l) :: lines, lead, rfl, List.forall_mem_cons.mpr ⟨?_, hlines⟩, hlead⟩
        simp [hl, Ne.symm hc]

section ClosedLines

variable {lines : List (List Char)}

theorem count_closedLines (h : ∀ l ∈ lines, '\n' ∉ l) :
    (closedLines lines).count '\n' = lines.length := by
  induction lines with
  | nil => rfl
  | cons l lines ih =>
    obtain ⟨hl, hlines⟩ := List.forall_mem_cons.mp h
    have hrest := ih hlines
    rw [closedLines] at hrest ⊢
    rw [List.flatMap_cons, List.count_append, List.count_append, hrest,
      List.count_eq_zero.mpr hl, List.count_singleton_self, List.length_cons]
    omega

theorem getLast?_closedLines (c : Char) (hc : c ∈ (closedLines lines).getLast?) : c = '\n' := by
  rcases List.eq_nil_or_concat lines with rfl | ⟨front, l, rfl⟩
  · cases hc
  · simpa [closedLines] using hc.symm

theorem splitOn_closedLines (h : ∀ l ∈ lines, '\n' ∉ l) (rest : List Char) :
    (closedLines lines ++ rest).splitOn '\n' = lines ++ rest.splitOn '\n' := by
  induction lines with
  | nil => rfl
  | cons l lines ih =>
    obtain ⟨hl, hlines⟩ := List.forall_mem_cons.mp h
    have hcut : closedLines (l :: lines) ++ rest = l ++ '\n' :: (closedLines lines ++ rest) := by
      simp [closedLines]
    rw [hcut, List.splitOn_append_cons_self_of_not_mem hl, ih hlines, List.cons_append]

/-- The first piece of a text is its first line. -/
theorem head?_splitOn {line below : List Char} (hline : '\n' ∉ line)
    (hbelow : ∀ c ∈ below.head?, c = '\n') :
    ((line ++ below).splitOn '\n').head? = some line := by
  cases below with
  | nil => rw [List.append_nil, List.splitOn_eq_singleton hline, List.head?_cons]
  | cons c below =>
    obtain rfl := hbelow c rfl
    rw [List.splitOn_append_cons_self_of_not_mem hline, List.head?_cons]

end ClosedLines

/-! ## Boundaries -/

theorem boundary_iff_isValid {source : String} {n : Nat} :
    Boundary source.toList n ↔ String.Pos.Raw.IsValid source ⟨n⟩ := by
  rw [String.Pos.Raw.isValid_iff_exists_append]
  constructor
  · rintro ⟨front, back, hsource, rfl⟩
    refine ⟨String.ofList front, String.ofList back, ?_, ?_⟩
    · rw [← String.ofList_append, ← hsource, String.ofList_toList]
    · rw [byteLength_ofList]
      rfl
  · rintro ⟨front, back, rfl, hn⟩
    refine ⟨front.toList, back.toList, String.toList_append, ?_⟩
    rw [byteLength_ofList, String.ofList_toList]
    exact congrArg String.Pos.Raw.byteIdx hn

namespace Cut

variable {n : Nat} {before text : List Char} {cut : Cut}

/-- Offsets past the end act as the end. -/
theorem forward?_min (n : Nat) (before text : List Char) :
    forward? (min n (byteLength text)) before text = forward? n before text := by
  induction text generalizing n before with
  | nil => rfl
  | cons c text ih =>
    have hpos := c.utf8Size_pos
    rw [forward?, forward?, byteLength_cons]
    by_cases hzero : n = 0
    · rw [if_pos (by omega), if_pos hzero]
    · rw [if_neg (by omega), if_neg hzero]
      by_cases hc : c.utf8Size ≤ n
      · have hrest : min n (c.utf8Size + byteLength text) - c.utf8Size =
            min (n - c.utf8Size) (byteLength text) := by
          omega
        rw [if_pos (by omega), if_pos hc, hrest, ih]
      · rw [if_neg (by omega), if_neg hc]

/-- What is cut off in front has the size of the offset. -/
theorem forward?_size (h : forward? n before text = some cut) :
    byteLength cut.before = byteLength before + min n (byteLength text) := by
  induction text generalizing n before with
  | nil =>
    obtain rfl := Option.some.inj h
    simp
  | cons c text ih =>
    rw [forward?] at h
    rw [byteLength_cons]
    split at h
    · obtain rfl := Option.some.inj h
      simp [*]
    · split at h
      · have hrest := ih h
        rw [byteLength_cons] at hrest
        omega
      · cases h

end Cut

namespace Location

variable {source : String} {m n : Nat} {place : Location}

theorem ofOffset?_min (source : String) (n : Nat) :
    ofOffset? source (min n source.utf8ByteSize) = ofOffset? source n := by
  rw [ofOffset?, ofOffset?, cutAt?, cutAt?, ← byteLength_toList, Cut.forward?_min]

theorem boundary_of_ofOffset? (h : ofOffset? source n = some place) :
    Boundary source.toList (min n source.utf8ByteSize) := by
  obtain ⟨cut, hcut, -⟩ := Option.map_eq_some_iff.mp h
  refine ⟨cut.before.reverse, cut.after, (cutAt?_text hcut).symm, ?_⟩
  rw [byteLength_reverse, Cut.forward?_size hcut, byteLength_toList, byteLength_nil, Nat.zero_add]

/-- There is a location at an offset exactly if the offset does not lie
inside a character. -/
theorem isSome_ofOffset?_iff :
    (ofOffset? source n).isSome ↔
      String.Pos.Raw.IsValid source ⟨min n source.utf8ByteSize⟩ := by
  rw [← boundary_iff_isValid, Option.isSome_iff_exists]
  refine ⟨fun ⟨_, hplace⟩ => boundary_of_ofOffset? hplace, fun h => ?_⟩
  rw [← ofOffset?_min]
  exact exists_ofOffset? h

/-! ## What a location shows -/

/-- A location points to an offset of a source. Its line is a piece of the
source between line ends. The offset is the size of what stands in front:
the pieces above with their line ends, and the characters of this piece that
the column counts. -/
def PointsTo (source : String) (offset : Nat) (place : Location) : Prop :=
  ∃ above lead trail, place.line = above + 1
    ∧ (source.toList.splitOn '\n')[above]? = some (lead ++ trail)
    ∧ offset = byteLength (closedLines ((source.toList.splitOn '\n').take above) ++ lead)
    ∧ place.column = lead.length + 1
    ∧ place.content = String.ofList ((lead ++ trail).rdropWhile (· == '\r'))

theorem pointsTo_ofOffset? (h : Boundary source.toList n) :
    ∃ place, ofOffset? source n = some place ∧ place.PointsTo source n := by
  obtain ⟨front, back, hsource, rfl⟩ := h
  obtain ⟨lines, lead, rfl, hlines, hlead⟩ := exists_lines front
  obtain ⟨trail, below, rfl, htrail, hbelow⟩ := exists_lines_below back
  have hline : '\n' ∉ lead ++ trail := by simp [hlead, htrail]
  have hmarks : (Span.point (byteLength (closedLines lines ++ lead))).Marks source.toList
      (closedLines lines) lead [] trail below := by
    refine ⟨?_, ?_, getLast?_closedLines, by simpa using hline, hbelow⟩
    · rw [hsource]
      simp
    · rw [List.append_nil]
      rfl
  obtain ⟨place, hplace, hnumber, hcolumn, hcontent⟩ := exists_of_marks hmarks
  rw [count_closedLines hlines] at hnumber
  have hpieces : source.toList.splitOn '\n' = lines ++ (lead ++ trail ++ below).splitOn '\n' := by
    rw [hsource, ← splitOn_closedLines hlines]
    simp only [List.append_assoc]
  refine ⟨place, hplace, lines.length, lead, trail, hnumber, ?_, ?_, hcolumn, ?_⟩
  · rw [hpieces, List.getElem?_append_right (Nat.le_refl _), Nat.sub_self, ← List.head?_eq_getElem?,
      head?_splitOn hline hbelow]
  · rw [hpieces, List.take_left]
  · rw [hcontent, List.append_nil]
    rfl

/-! ## The order of locations -/

/-- The more of a text is in front of a location, the later it is. -/
theorem before_of_append (front : List Char) {inside : List Char} (hne : inside ≠ [])
    (back back' : List Char) :
    let p := ofCut ⟨front.reverse, back⟩
    let q := ofCut ⟨(front ++ inside).reverse, back'⟩
    toLex (p.line, p.column) < toLex (q.line, q.column) := by
  simp only [ofCut, Prod.Lex.toLex_lt_toLex, List.count_reverse, List.count_append]
  by_cases hline : '\n' ∈ inside
  · left
    have hpos := List.count_pos_iff.mpr hline
    omega
  · right
    refine ⟨by rw [List.count_eq_zero.mpr hline, Nat.add_zero], ?_⟩
    have hall : ∀ c ∈ inside.reverse, (c != '\n') = true := by
      intro c hc
      rw [bne_iff_ne]
      rintro rfl
      exact hline (List.mem_reverse.mp hc)
    rw [List.reverse_append, List.takeWhile_append_of_pos hall, List.length_append,
      List.length_reverse]
    have hpos := List.length_pos_of_ne_nil hne
    omega

theorem ofOffset?_before (hm : Boundary source.toList m) (hn : Boundary source.toList n)
    (h : m < n) :
    ∃ p q, ofOffset? source m = some p ∧ ofOffset? source n = some q
      ∧ toLex (p.line, p.column) < toLex (q.line, q.column) := by
  obtain ⟨front, inside, back, hsource, rfl, rfl⟩ := exists_between hm hn (Nat.le_of_lt h)
  have hne : inside ≠ [] := by
    rintro rfl
    rw [List.append_nil] at h
    exact Nat.lt_irrefl _ h
  have hcut : source.toList = front ++ (inside ++ back) := by rw [hsource, List.append_assoc]
  exact ⟨_, _, ofOffset?_front hcut, ofOffset?_front hsource, before_of_append front hne _ _⟩

theorem eq_of_ofOffset? {p q : Location} (hm : m ≤ source.utf8ByteSize)
    (hn : n ≤ source.utf8ByteSize) (hp : ofOffset? source m = some p)
    (hq : ofOffset? source n = some q) (heq : (p.line, p.column) = (q.line, q.column)) : m = n := by
  have hm' := boundary_of_ofOffset? hp
  have hn' := boundary_of_ofOffset? hq
  rw [Nat.min_eq_left hm] at hm'
  rw [Nat.min_eq_left hn] at hn'
  rcases Nat.lt_trichotomy m n with hlt | rfl | hlt
  · obtain ⟨p', q', hp', hq', hbefore⟩ := ofOffset?_before hm' hn' hlt
    obtain rfl := Option.some.inj (hp.symm.trans hp')
    obtain rfl := Option.some.inj (hq.symm.trans hq')
    exact absurd hbefore (heq ▸ lt_irrefl _)
  · rfl
  · obtain ⟨q', p', hq', hp', hbefore⟩ := ofOffset?_before hn' hm' hlt
    obtain rfl := Option.some.inj (hp.symm.trans hp')
    obtain rfl := Option.some.inj (hq.symm.trans hq')
    exact absurd hbefore (heq ▸ lt_irrefl _)

/-- Offsets and locations correspond. At every offset between characters
there is a location, which points to the offset, or to the end of the
source if the offset is past it; the location of an earlier offset has the
smaller line, or the same line and the smaller column; and so no two
offsets in a source have one line and column. -/
theorem offsets_correspond (source : String) :
    (∀ n, String.Pos.Raw.IsValid source ⟨min n source.utf8ByteSize⟩ →
      ∃ place, ofOffset? source n = some place
        ∧ place.PointsTo source (min n source.utf8ByteSize))
    ∧ (∀ m n, String.Pos.Raw.IsValid source ⟨m⟩ → String.Pos.Raw.IsValid source ⟨n⟩ → m < n →
      ∃ p q, ofOffset? source m = some p ∧ ofOffset? source n = some q
        ∧ toLex (p.line, p.column) < toLex (q.line, q.column))
    ∧ ∀ m n p q, m ≤ source.utf8ByteSize → n ≤ source.utf8ByteSize →
      ofOffset? source m = some p → ofOffset? source n = some q →
      (p.line, p.column) = (q.line, q.column) → m = n := by
  refine ⟨fun n h => ?_, fun m n hm hn h => ?_, fun m n p q => eq_of_ofOffset?⟩
  · rw [← ofOffset?_min]
    exact pointsTo_ofOffset? (boundary_iff_isValid.mpr h)
  · exact ofOffset?_before (boundary_iff_isValid.mpr hm) (boundary_iff_isValid.mpr hn) h

/-- Offsets on a carriage return, on the line end behind it, on an empty
line, and past the end. -/
theorem offsets_correspond_returns :
    let source := "é\r\n\nab"
    (∃ place, ofOffset? source 99 = some place ∧ place.PointsTo source 7)
      ∧ (∃ p q, ofOffset? source 3 = some p ∧ ofOffset? source 4 = some q
        ∧ toLex (p.line, p.column) < toLex (q.line, q.column))
      ∧ ∃ p q, ofOffset? source 2 = some p ∧ ofOffset? source 3 = some q
        ∧ (p.line, p.column) ≠ (q.line, q.column) := by
  intro source
  have hvalid : ∀ n ∈ [3, 4, 7], String.Pos.Raw.IsValid source ⟨n⟩ := by decide +kernel
  obtain ⟨hpoints, hbefore, hdistinct⟩ := offsets_correspond source
  refine ⟨hpoints 99 (hvalid 7 (by decide)), hbefore 3 4 (hvalid 3 (by decide))
    (hvalid 4 (by decide)) (by decide), ⟨1, 2, "é"⟩, ⟨1, 3, "é"⟩, by decide +kernel,
    by decide +kernel, fun heq => ?_⟩
  exact absurd (hdistinct 2 3 _ _ (by decide +kernel) (by decide +kernel) (by decide +kernel)
    (by decide +kernel) heq) (by decide)

end Location

end HackVm
