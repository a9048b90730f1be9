import HackVm.Proofs.Placement

/-!
# Lines under lines

A report shows the line of a fault and carets under it. The carets begin
under the first character of the fault, since what stands in front of it is
counted in characters, but they are as many as the fault has bytes.

For most faults this is the same. A fault that lies along a line of tokens
covers words, numbers and the blanks between them, and all of these are
ASCII (`Scanned.ascii`): there is no comment between two tokens of a line.
So there are too many carets only under a character that begins no token
and is not ASCII (`carets_count_bytes`).
-/

namespace HackVm

open Reader

/-! ## Bytes and characters -/

theorem length_le_byteLength (cs : List Char) : cs.length ≤ byteLength cs := by
  induction cs with
  | nil => exact Nat.le_refl _
  | cons c cs ih =>
    have hpos := c.utf8Size_pos
    rw [List.length_cons, byteLength_cons]
    omega

/-- A text has as many bytes as characters exactly if it is ASCII. -/
theorem byteLength_eq_length_iff {cs : List Char} :
    byteLength cs = cs.length ↔ ∀ c ∈ cs, c.toNat < 128 := by
  induction cs with
  | nil => simp
  | cons c cs ih =>
    have hone : c.utf8Size = 1 ↔ c.toNat < 128 := by
      rw [Char.utf8Size_eq_one_iff, UInt32.le_iff_toNat_le]
      exact Nat.lt_succ_iff.symm
    have hpos := c.utf8Size_pos
    have hrest := length_le_byteLength cs
    rw [List.forall_mem_cons, byteLength_cons, List.length_cons]
    constructor
    · intro h
      exact ⟨hone.mp (by omega), ih.mp (by omega)⟩
    · rintro ⟨hc, hcs⟩
      rw [hone.mpr hc, ih.mpr hcs, Nat.add_comm]

theorem eq_nil_of_byteLength_eq_zero {cs : List Char} (h : byteLength cs = 0) : cs = [] :=
  Classical.not_not.mp fun hne => Nat.ne_of_gt (byteLength_pos hne) h

/-- The front of a text is known from its size. -/
theorem eq_of_byteLength_eq {a b c d : List Char} (htext : a ++ b = c ++ d)
    (hsize : byteLength a = byteLength c) : a = c := by
  rcases List.append_eq_append_iff.mp htext with ⟨e, rfl, -⟩ | ⟨e, rfl, -⟩
  · rw [byteLength_append] at hsize
    rw [eq_nil_of_byteLength_eq_zero (show byteLength e = 0 by omega), List.append_nil]
  · rw [byteLength_append] at hsize
    rw [eq_nil_of_byteLength_eq_zero (show byteLength e = 0 by omega), List.append_nil]

theorem toNat_lt_of_isBlank {c : Char} (h : isBlank c = true) : c.toNat < 128 := by
  simp only [isBlank, Bool.or_eq_true, beq_iff_eq] at h
  rcases h with ((rfl | rfl) | rfl) | rfl <;> decide

theorem toNat_lt_of_isAlphanum {c : Char} (h : c.isAlphanum = true) : c.toNat < 128 := by
  have hbelow (d : Char) (hd : d.toNat < 128) (hle : c.val ≤ d.val) : c.toNat < 128 :=
    Nat.lt_of_le_of_lt (UInt32.le_iff_toNat_le.mp hle) hd
  rcases Bool.or_eq_true_iff.mp h with halpha | hdigit
  · rcases Bool.or_eq_true_iff.mp halpha with hupper | hlower
    · exact hbelow 'Z' (by decide) (of_decide_eq_true hupper).2
    · exact hbelow 'z' (by decide) (of_decide_eq_true (Bool.and_eq_true_iff.mp hlower).2)
  · exact hbelow '9' (by decide) (of_decide_eq_true (Bool.and_eq_true_iff.mp hdigit).2)

theorem toNat_lt_of_isWordChar {c : Char} (h : isWordChar c = true) : c.toNat < 128 := by
  simp only [isWordChar, isSymbolChar, Bool.or_eq_true, beq_iff_eq] at h
  rcases h with ((((halnum | rfl) | rfl) | rfl) | rfl) | rfl
  · exact toNat_lt_of_isAlphanum halnum
  all_goals decide

theorem ne_lineEnd_of_isWordChar {c : Char} (h : isWordChar c = true) : c ≠ '\n' ∧ c ≠ '\r' := by
  constructor
  all_goals
    rintro rfl
    cases h

theorem ne_newline_of_isLineEnd {l : Lexeme} (h : l.isLineEnd = false) : l.token ≠ .newline :=
  beq_eq_false_iff_ne.mp h

/-! ## Lines of tokens -/

/-- A line of tokens holds no line end, and so no comment in front of a
token. -/
theorem Scanned.no_comment {rest piece : List Char} {offset : Nat} {line : List Lexeme}
    (h : Scanned rest offset piece line) (hline : IsLine line) (hne : line ≠ []) :
    ¬StopsAt (· != '\n') (piece ++ rest) := by
  intro hstops
  obtain ⟨c, cs, rfl⟩ : ∃ c cs, piece = c :: cs :=
    List.exists_cons_of_ne_nil fun hnil =>
      Nat.ne_of_gt (h.byteLength_piece_pos hne) (by rw [hnil, byteLength_nil])
  obtain rfl : c = '\n' := by simpa using hstops c rfl
  have hcount := h.countP_isLineEnd
  rw [List.countP_eq_zero.mpr fun l hl => by simp [hline l hl], List.count_cons_self] at hcount
  cases hcount

/-- Between the tokens of a line there are only blanks, so that all up to
the end of the last one is ASCII text. -/
theorem Scanned.ascii {rest piece : List Char} {offset : Nat} {line : List Lexeme}
    (h : Scanned rest offset piece line) (hline : IsLine line)
    (hend : endOf line offset = offset + byteLength piece) : ∀ c ∈ piece, c.toNat < 128 := by
  induction h with
  | nil offset => exact List.forall_mem_nil _
  | @skip offset gap piece line hgap h ih =>
    cases line with
    | nil =>
      -- Nothing that is dropped stands behind the last token.
      have hnil : gap ++ piece = [] :=
        eq_nil_of_byteLength_eq_zero (Nat.add_eq_left.mp hend.symm)
      rw [hnil]
      exact List.forall_mem_nil _
    | cons l ls =>
      rw [byteLength_append, ← Nat.add_assoc] at hend
      have hpiece := ih hline hend
      cases hgap with
      | blank hc => exact List.forall_mem_cons.mpr ⟨toNat_lt_of_isBlank hc, hpiece⟩
      | comment htext hafter => exact absurd hafter (h.no_comment hline (List.cons_ne_nil l ls))
  | @token offset t text piece line ht h ih =>
    obtain ⟨ht', hrest⟩ := isLine_cons.mp hline
    rw [endOf_cons, byteLength_append, ← Nat.add_assoc] at hend
    intro c hc
    rcases List.mem_append.mp hc with hc | hc
    · exact toNat_lt_of_isWordChar (ht.isWordChar (ne_newline_of_isLineEnd ht') c hc)
    · exact ih hrest hend c hc

/-! ## What a fault covers -/

/-- The span of some characters of a text. They lie on one line, behind
which no line ends and no carriage return stands. -/
def Span.Covers (text inside : List Char) (s : Span) : Prop :=
  ∃ before after, text = before ++ inside ++ after
    ∧ s = ⟨byteLength before, byteLength (before ++ inside)⟩ ∧ '\n' ∉ inside
    ∧ ∃ c, (before ++ inside).getLast? = some c ∧ c ≠ '\n' ∧ c ≠ '\r'

theorem Span.Along.exists_stop {line : List Lexeme} {s : Span} (hs : s.Along line) :
    ∃ l ∈ line, s.stop = l.span.stop := by
  cases hs with
  | @behind l hl => exact ⟨l, hl, rfl⟩
  | @across l m hl hm =>
    rcases Nat.le_total l.span.stop m.span.stop with h | h
    · exact ⟨m, hm, Nat.max_eq_right h⟩
    · exact ⟨l, hl, Nat.max_eq_left h⟩

/-- A span along a line of tokens ends behind a character of a token. -/
theorem Span.Along.exists_last {rest front inside back : List Char} {offset : Nat}
    {line : List Lexeme} {s : Span} (hs : s.Along line)
    (h : Scanned rest offset (front ++ inside ++ back) line) (hline : IsLine line)
    (hspan : s = ⟨offset + byteLength front, offset + byteLength (front ++ inside)⟩) :
    ∃ c, (front ++ inside).getLast? = some c ∧ isWordChar c = true := by
  obtain ⟨l, hl, hstop⟩ := hs.exists_stop
  obtain ⟨before, text, after, hpiece, hl', ht⟩ := h.spelled l hl
  rw [hspan, hl'] at hstop
  have hfront : front ++ inside = before ++ text :=
    eq_of_byteLength_eq hpiece (Nat.add_left_cancel hstop)
  have hlast := List.getLast?_eq_some_getLast ht.ne_nil
  refine ⟨text.getLast ht.ne_nil, ?_, ?_⟩
  · rw [hfront, List.getLast?_append_of_ne_nil _ ht.ne_nil, hlast]
  · exact ht.isWordChar (ne_newline_of_isLineEnd (hline l hl)) _ (List.getLast_mem _)

/-- What lies along a line of tokens of a source is ASCII text. -/
theorem covers_of_along {source : String} {lexemes line : List Lexeme} {n : Nat} {s : Span}
    (hscan : scan source = .ok lexemes) (hmem : (line, n) ∈ linesFrom 1 lexemes)
    (hs : s.Along line) :
    ∃ inside, s.Covers source.toList inside ∧ ∀ c ∈ inside, c.toNat < 128 := by
  have hline := (mem_linesFrom hmem).1
  obtain ⟨before, piece, after, rest, hsource, hnone, hpiece, -⟩ :=
    (scanFrom_eq_ok_iff.mp hscan).exists_line hmem
  obtain ⟨text, gap, rfl, htext, hend⟩ := hpiece.exists_until_last
  obtain ⟨front, inside, back, rfl, hspan⟩ := hs.exists_inside htext
  obtain ⟨c, hlast, hword⟩ := hs.exists_last htext hline hspan
  have hascii := htext.ascii hline hend
  refine ⟨inside, ⟨before ++ front, back ++ gap ++ after, ?_, ?_, fun hmem => hnone (by simp [hmem]),
    c, ?_, ne_lineEnd_of_isWordChar hword⟩, fun c hc => hascii c (by simp [hc])⟩
  · rw [hsource]
    simp only [List.append_assoc]
  · rw [hspan]
    simp only [byteLength_append, Nat.add_assoc]
  · rw [List.append_assoc, List.getLast?_append, hlast]
    rfl

/-- A source cannot be translated because of ASCII text, or of one
character that begins no token. -/
theorem covers_of_translate_error {source file : String} {fault : Fault}
    (h : translate source file = .error fault) :
    ∃ inside, fault.span.Covers source.toList inside
      ∧ ((∀ c ∈ inside, c.toNat < 128) ∨ ∃ c, fault.cause = .strayCharacter c ∧ inside = [c]) := by
  rcases along_of_translate_error h with hscan | ⟨lexemes, line, n, hscan, hmem, hs⟩
  · obtain ⟨before, rest, lexemes, hsource, -, hstuck⟩ := scanFrom_eq_error_iff.mp hscan
    rw [hsource]
    rw [Nat.zero_add] at hstuck
    cases hstuck with
    | @number digits after hne hdigits hafter hvalue =>
      have hword : ∀ c ∈ digits, isWordChar c = true :=
        fun c hc => isWordChar_of_isDigit (hdigits c hc)
      refine ⟨digits, ⟨before, after, (List.append_assoc ..).symm, ?_, fun hmem => ?_,
        digits.getLast hne, ?_, ?_⟩, .inl fun c hc => toNat_lt_of_isWordChar (hword c hc)⟩
      · rw [byteLength_append]
      · cases hword _ hmem
      · rw [List.getLast?_append_of_ne_nil _ hne, List.getLast?_eq_some_getLast hne]
      · exact ne_lineEnd_of_isWordChar (hword _ (List.getLast_mem hne))
    | @character c after hline hblank hdigit hword hslash =>
      have hreturn : c ≠ '\r' := by
        rintro rfl
        cases hblank
      refine ⟨[c], ⟨before, after, by simp, by rw [byteLength_append], ?_, c, by simp,
        hline, hreturn⟩, .inr ⟨c, rfl, rfl⟩⟩
      simpa using hline.symm
  · obtain ⟨inside, hcovers, hascii⟩ := covers_of_along hscan hmem hs
    exact ⟨inside, hcovers, .inl hascii⟩

/-! ## The line of a fault -/

/-- A span on a line of a text: the lines above it, the line up to the
span, in it and behind it, and the lines below it. -/
structure Span.Marks (text : List Char) (s : Span) (above lead inside trail below : List Char) :
    Prop where
  text_eq : text = above ++ (lead ++ inside ++ trail) ++ below
  span_eq : s = ⟨byteLength (above ++ lead), byteLength (above ++ lead ++ inside)⟩
  above_ends : ∀ c ∈ above.getLast?, c = '\n'
  line : '\n' ∉ lead ++ inside ++ trail
  below_begins : ∀ c ∈ below.head?, c = '\n'

theorem exists_lines_above (before : List Char) :
    ∃ above lead, before = above ++ lead ∧ (∀ c ∈ above.getLast?, c = '\n') ∧ '\n' ∉ lead := by
  refine ⟨(before.reverse.dropWhile (· != '\n')).reverse,
    (before.reverse.takeWhile (· != '\n')).reverse, ?_, fun c hc => ?_, fun hmem => ?_⟩
  · rw [← List.reverse_append, List.takeWhile_append_dropWhile, List.reverse_reverse]
  · rw [List.getLast?_reverse] at hc
    simpa using stopsAt_dropWhile _ _ c hc
  · rw [List.mem_reverse] at hmem
    cases forall_mem_takeWhile _ _ _ hmem

theorem exists_lines_below (after : List Char) :
    ∃ trail below, after = trail ++ below ∧ '\n' ∉ trail ∧ ∀ c ∈ below.head?, c = '\n' := by
  refine ⟨after.takeWhile (· != '\n'), after.dropWhile (· != '\n'),
    List.takeWhile_append_dropWhile.symm, fun hmem => ?_, fun c hc => ?_⟩
  · cases forall_mem_takeWhile _ _ _ hmem
  · simpa using stopsAt_dropWhile _ _ c hc

namespace Location

/-- The line of a location is the one that it stands in, and the column
counts the characters in front of it there. -/
theorem exists_of_marks {source : String} {s : Span} {above lead inside trail below : List Char}
    (h : s.Marks source.toList above lead inside trail below) :
    ∃ place, ofOffset? source s.start = some place ∧ place.line = above.count '\n' + 1
      ∧ place.column = lead.length + 1
      ∧ place.content = String.ofList (trimReturns (lead ++ inside ++ trail)) := by
  have hne : ∀ c ∈ lead ++ inside ++ trail, (c != '\n') = true := by
    intro c hc
    rw [bne_iff_ne]
    rintro rfl
    exact h.line hc
  have hleft : (above ++ lead).reverse.takeWhile (· != '\n') = lead.reverse := by
    rw [List.reverse_append]
    refine takeWhile_of_stopsAt (fun c hc => hne c ?_) (fun c hc => ?_)
    · simp [List.mem_reverse.mp hc]
    · rw [List.head?_reverse] at hc
      simp [h.above_ends c hc]
  have hright : (inside ++ trail ++ below).takeWhile (· != '\n') = inside ++ trail := by
    refine takeWhile_of_stopsAt (fun c hc => hne c ?_) (fun c hc => ?_)
    · rw [List.append_assoc]
      exact List.mem_append_right lead hc
    · simp [h.below_begins c hc]
  have hnone : lead.count '\n' = 0 := List.count_eq_zero.mpr fun hmem => h.line (by simp [hmem])
  have hcut : source.toList = (above ++ lead) ++ (inside ++ trail ++ below) := by
    rw [h.text_eq]
    simp only [List.append_assoc]
  refine ⟨ofCut ⟨(above ++ lead).reverse, inside ++ trail ++ below⟩, ?_, ?_, ?_, ?_⟩
  · rw [h.span_eq]
    exact ofOffset?_front hcut
  · simp only [ofCut, List.count_reverse, List.count_append, hnone, Nat.add_zero]
  · simp only [ofCut, hleft, List.length_reverse]
  · simp only [ofCut, hleft, hright, List.reverse_reverse]
    rw [List.append_assoc]

theorem trimReturns_append {front : List Char} {c : Char} (hlast : front.getLast? = some c)
    (hc : c ≠ '\r') (trail : List Char) :
    trimReturns (front ++ trail) = front ++ trimReturns trail := by
  have hstops : front.reverse.dropWhile (· == '\r') = front.reverse := by
    obtain ⟨cs, hcs⟩ := List.head?_eq_some_iff.mp (List.head?_reverse.trans hlast)
    rw [hcs, List.dropWhile_cons_of_neg (by simpa using hc)]
  rw [trimReturns, trimReturns, List.reverse_append, List.dropWhile_append, hstops]
  split
  · rename_i hnone
    rw [List.isEmpty_iff.mp hnone, List.reverse_reverse, List.reverse_nil, List.append_nil]
  · rw [List.reverse_append, List.reverse_reverse]

end Location

theorem Span.Covers.exists_marks {text inside : List Char} {s : Span} (h : s.Covers text inside) :
    ∃ above lead trail below, s.Marks text above lead inside trail below
      ∧ Location.trimReturns (lead ++ inside ++ trail) =
        lead ++ inside ++ Location.trimReturns trail := by
  obtain ⟨before, after, rfl, rfl, hinside, c, hlast, hc⟩ := h
  obtain ⟨above, lead, rfl, habove, hlead⟩ := exists_lines_above before
  obtain ⟨trail, below, rfl, htrail, hbelow⟩ := exists_lines_below after
  refine ⟨above, lead, trail, below, ⟨by simp only [List.append_assoc], rfl, habove, ?_, hbelow⟩, ?_⟩
  · simp [hlead, hinside, htrail]
  · -- Only line ends are above, so that the last character is in the line.
    cases hline : lead ++ inside with
    | nil =>
      obtain ⟨rfl, rfl⟩ := List.append_eq_nil_iff.mp hline
      rw [List.append_nil, List.append_nil] at hlast
      exact absurd (habove c hlast) hc.1
    | cons d ds =>
      refine Location.trimReturns_append (c := c) ?_ hc.2 trail
      rwa [List.append_assoc, hline, List.getLast?_append_of_ne_nil _ (List.cons_ne_nil d ds)]
        at hlast

/-! ## Reports -/

/-- The two lines of a report that show a location and some carets. -/
def Location.shown (place : Location) (carets : Nat) : String :=
  let number := toString place.line
  number ++ " | " ++ place.content ++ "\n" ++
  blanks number.length ++ " | " ++ blanks (place.column - 1) ++
    String.ofList (List.replicate carets '^') ++ "\n"

theorem Diagnostic.renderAt_shown (d : Diagnostic) (place : Location) (file : String) :
    ∃ front back, d.renderAt place file = front ++ place.shown (d.caretCount place) ++ back := by
  refine ⟨"error[" ++ d.code.text ++ "]: " ++ d.message ++ "\n" ++
    "  --> " ++ file ++ ":" ++ toString place.line ++ ":" ++ toString place.column ++ "\n" ++
    blanks (toString place.line).length ++ " |\n",
    d.hint.elim "" fun hint =>
      blanks (toString place.line).length ++ " = hint: " ++ hint ++ "\n", ?_⟩
  unfold renderAt Location.shown
  generalize toString place.line = number
  cases d.hint <;> simp only [Option.elim, String.append_assoc]

/-- Under a place that a span marks there is a caret for each byte, but at
least one. -/
theorem Diagnostic.caretCount_marks {d : Diagnostic} {text above lead inside trail below : List Char}
    (h : d.span.Marks text above lead inside trail below) {place : Location}
    (hcolumn : place.column = lead.length + 1)
    (hcontent : place.content = String.ofList (lead ++ inside ++ Location.trimReturns trail)) :
    d.caretCount place = max (byteLength inside) 1 := by
  have hspan : d.span.length = byteLength inside := by
    rw [h.span_eq, Span.length_of_le (by simp), byteLength_append (above ++ lead) inside]
    exact Nat.add_sub_cancel_left ..
  have hsize : place.content.utf8ByteSize =
      byteLength lead + byteLength inside + byteLength (Location.trimReturns trail) := by
    rw [hcontent, ← byteLength_ofList, byteLength_append, byteLength_append]
  have hlead := length_le_byteLength lead
  rw [caretCount, hspan, hsize, hcolumn]
  omega

/-- A report shows the line of its fault without the carriage returns that
end it. The carets begin under the first character of the fault, and there
is one for each byte of the fault, but at least one. That is one for each
character unless the fault is a single character that begins no token and
is not ASCII. -/
theorem carets_count_bytes {source file : String} {fault : Fault}
    (h : translate source file = .error fault) :
    ∃ above lead inside trail below, fault.span.Marks source.toList above lead inside trail below
      ∧ (∃ place, Location.ofOffset? source fault.span.start = some place
        ∧ place.line = above.count '\n' + 1 ∧ place.column = lead.length + 1
        ∧ place.content = String.ofList (Location.trimReturns (lead ++ inside ++ trail))
        ∧ (place.column ≤ 65535 → ∀ name, ∃ front back,
          fault.diagnostic.render? source name =
            some (front ++ place.shown (max (byteLength inside) 1) ++ back)))
      ∧ Location.trimReturns (lead ++ inside ++ trail) =
        lead ++ inside ++ Location.trimReturns trail
      ∧ (byteLength inside = inside.length
        ∨ ∃ c, fault.cause = .strayCharacter c ∧ inside = [c] ∧ 128 ≤ c.toNat) := by
  obtain ⟨inside, hcovers, hascii⟩ := covers_of_translate_error h
  obtain ⟨above, lead, trail, below, hmarks, htrim⟩ := hcovers.exists_marks
  refine ⟨above, lead, inside, trail, below, hmarks, ?_, htrim, ?_⟩
  · obtain ⟨place, hplace, hline, hcolumn, hcontent⟩ := Location.exists_of_marks hmarks
    refine ⟨place, hplace, hline, hcolumn, hcontent, fun hlimit name => ?_⟩
    have hcount := Diagnostic.caretCount_marks (d := fault.diagnostic) hmarks hcolumn
      (hcontent.trans (congrArg String.ofList htrim))
    obtain ⟨front, back, hrender⟩ := fault.diagnostic.renderAt_shown place (name.getD "<input>")
    refine ⟨front, back, ?_⟩
    rw [← hcount, ← hrender]
    exact Diagnostic.render?_of_location hplace (Nat.le_trans (Nat.sub_le ..) hlimit) name
  · rcases hascii with hascii | ⟨c, hcause, rfl⟩
    · exact .inl (byteLength_eq_length_iff.mpr hascii)
    · rcases Nat.lt_or_ge c.toNat 128 with hc | hc
      · exact .inl (byteLength_eq_length_iff.mpr (by simpa using hc))
      · exact .inr ⟨c, hcause, rfl, hc⟩

/-- A command where the index of its segment is due. -/
theorem carets_count_bytes_operand :
    translate "add\n\tpop temp sub // ß" "A.vm" =
        .error ⟨.expectedInteger "an index" "pop" (.word "sub"), ⟨14, 17⟩⟩
      ∧ ∃ above lead inside trail below,
        (⟨14, 17⟩ : Span).Marks "add\n\tpop temp sub // ß".toList above lead inside trail below
          ∧ byteLength inside = inside.length := by
  have h : translate "add\n\tpop temp sub // ß" "A.vm" =
      .error ⟨.expectedInteger "an index" "pop" (.word "sub"), ⟨14, 17⟩⟩ := by
    decide +kernel
  obtain ⟨above, lead, inside, trail, below, hmarks, -, -, hcount | ⟨c, hcause, -⟩⟩ :=
    carets_count_bytes h
  · exact ⟨h, above, lead, inside, trail, below, hmarks, hcount⟩
  · cases hcause

/-- Two carets are under a single character of two bytes. -/
theorem two_carets_for_one_character :
    translate "é" "A.vm" = .error ⟨.strayCharacter 'é', ⟨0, 2⟩⟩
      ∧ (Fault.diagnostic ⟨.strayCharacter 'é', ⟨0, 2⟩⟩).render? "é" (some "A.vm") =
        some ("error[E001]: Invalid character '\\u\x7be9\x7d'\n  --> A.vm:1:1\n  |\n" ++
          "1 | é\n  | ^^\n  = hint: comments start with '//'\n") := by
  constructor <;> decide +kernel

end HackVm
