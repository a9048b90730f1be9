import HackVm.Proofs.Joining
import HackVm.Proofs.Positions

/-!
# Where commands stand

A command that is read from a source covers the text from its first token
to its last. That text says all that the command says: it lies on one line,
and alone it is read as the same command.

This is put together from what is known of lines. A line of tokens is
scanned from a piece of the source (`Scanned.exists_line`), of which the
ends that belong to no token can be left out (`Scanned.exists_trimmed`).
What is left is scanned alone as it is in the source, but for its place,
and read so (`Reader.lineCommand_moved`). The line ends in front of it are
counted twice, by the reader as tokens and by a report as characters, and
the two agree because each line end of a text is a token.
-/

namespace HackVm

open Reader

/-! ## Pieces without ends that are dropped -/

namespace Scanned

variable {rest piece : List Char} {offset : Nat} {lexemes : List Lexeme}

/-- The end behind the last token can be left out of a piece. -/
theorem exists_until_last (h : Scanned rest offset piece lexemes) :
    ∃ text back, piece = text ++ back ∧ Scanned (back ++ rest) offset text lexemes
      ∧ endOf lexemes offset = offset + byteLength text := by
  induction h with
  | nil offset => exact ⟨[], [], rfl, .nil offset, rfl⟩
  | @skip offset gap piece lexemes hgap _ ih =>
    obtain ⟨text, back, rfl, htext, hend⟩ := ih
    cases lexemes with
    | nil => exact ⟨[], gap ++ (text ++ back), rfl, .nil offset, rfl⟩
    | cons l ls =>
      rw [List.append_assoc] at hgap
      refine ⟨gap ++ text, back, (List.append_assoc ..).symm, .skip hgap htext, ?_⟩
      rw [byteLength_append, ← Nat.add_assoc, ← hend, endOf_cons, endOf_cons]
  | @token offset t front piece lexemes ht _ ih =>
    obtain ⟨text, back, rfl, htext, hend⟩ := ih
    rw [List.append_assoc] at ht
    refine ⟨front ++ text, back, (List.append_assoc ..).symm, .token ht htext, ?_⟩
    rw [byteLength_append, ← Nat.add_assoc, ← hend, endOf_cons]

/-- The end in front of the first token can be left out of a piece. -/
theorem exists_from_first (h : Scanned rest offset piece lexemes) :
    ∃ front text, piece = front ++ text ∧ Scanned rest (offset + byteLength front) text lexemes
      ∧ startOf lexemes (offset + byteLength piece) = offset + byteLength front := by
  induction h with
  | nil offset => exact ⟨[], [], rfl, .nil offset, rfl⟩
  | @skip offset gap piece lexemes hgap _ ih =>
    obtain ⟨front, text, rfl, htext, hstart⟩ := ih
    refine ⟨gap ++ front, text, (List.append_assoc ..).symm, ?_, ?_⟩
    · rwa [byteLength_append, ← Nat.add_assoc]
    · rw [byteLength_append, byteLength_append gap front, ← Nat.add_assoc, ← Nat.add_assoc, hstart]
  | @token offset t text piece lexemes ht h => exact ⟨[], text ++ piece, rfl, .token ht h, rfl⟩

/-- Both ends left out, the piece reaches from the start of the first token
to the end of the last. -/
theorem exists_trimmed (h : Scanned rest offset piece lexemes) {first last : Lexeme}
    (hfirst : lexemes.head? = some first) (hlast : lexemes.getLast? = some last) :
    ∃ front text back, piece = front ++ text ++ back
      ∧ Scanned (back ++ rest) (offset + byteLength front) text lexemes
      ∧ first.span.start = offset + byteLength front
      ∧ last.span.stop = offset + byteLength (front ++ text) := by
  obtain ⟨front, more, rfl, hmore, hstart⟩ := h.exists_from_first
  obtain ⟨text, back, rfl, htext, hend⟩ := hmore.exists_until_last
  rw [startOf, hfirst] at hstart
  rw [endOf, hlast] at hend
  refine ⟨front, text, back, (List.append_assoc ..).symm, htext, hstart, ?_⟩
  rw [byteLength_append, ← Nat.add_assoc]
  exact hend

/-- A token is not empty. -/
theorem start_lt_stop (h : Scanned rest offset piece lexemes) {l : Lexeme} (hl : l ∈ lexemes) :
    l.span.start < l.span.stop := by
  obtain ⟨before, text, after, -, hspan, ht⟩ := h.spelled l hl
  have hpos := byteLength_pos ht.ne_nil
  rw [hspan, byteLength_append]
  show offset + byteLength before < offset + (byteLength before + byteLength text)
  omega

/-- A piece with tokens is not empty. -/
theorem byteLength_piece_pos (h : Scanned rest offset piece lexemes) (hne : lexemes ≠ []) :
    0 < byteLength piece := by
  obtain ⟨l, ls, rfl⟩ := List.exists_cons_of_ne_nil hne
  obtain ⟨before, text, after, rfl, -, ht⟩ := h.spelled l (List.mem_cons_self ..)
  have hpos := byteLength_pos ht.ne_nil
  simp only [byteLength_append]
  omega

/-- All from the first token to the last is what is between the start of the
one and the end of the other. -/
theorem merge_ends (h : Scanned rest offset piece lexemes) {first last : Lexeme}
    (hfirst : lexemes.head? = some first) (hlast : lexemes.getLast? = some last) :
    first.span.merge last.span = ⟨first.span.start, last.span.stop⟩ := by
  obtain ⟨ls, rfl⟩ := List.head?_eq_some_iff.mp hfirst
  rcases List.mem_cons.mp (List.mem_of_getLast? hlast) with rfl | hmem
  · exact Span.merge_self _
  · have horder := List.rel_of_pairwise_cons h.ordered hmem
    have hless := h.start_lt_stop (List.mem_cons_self ..)
    have hless' := h.start_lt_stop (List.mem_cons_of_mem _ hmem)
    rw [Span.merge, Nat.min_eq_left (by omega), Nat.max_eq_right (by omega)]

end Scanned

/-! ## One command -/

/-- The place of a command in its source. -/
structure Located.Faithful (source : String) (x : Located Command) : Prop where
  nonempty : x.span.start < x.span.stop
  /-- A report gives the number of the line that the reader counted. -/
  line : ∃ place, Location.ofOffset? source x.span.start = some place ∧ place.line = x.line
  /-- The text of the span lies on one line, and alone it is read as the
  command, in the first line and from its first byte to its last. -/
  text : ∃ before text after, source = before ++ text ++ after
    ∧ x.span = ⟨before.utf8ByteSize, (before ++ text).utf8ByteSize⟩
    ∧ '\n' ∉ text.toList
    ∧ parse text = .ok [⟨x.node, ⟨0, text.utf8ByteSize⟩, 1⟩]

/-- A report counts the line ends in front of a place. -/
theorem Location.ofOffset?_line {source : String} {before after : List Char}
    (h : source.toList = before ++ after) :
    ∃ place, ofOffset? source (byteLength before) = some place
      ∧ place.line = before.count '\n' + 1 := by
  refine ⟨_, ofOffset?_front h, ?_⟩
  rw [ofCut, List.count_reverse]

/-- What is scanned somewhere is scanned alone into the same tokens. -/
theorem Scanned.exists_alone {rest text : List Char} {n : Nat} {lexemes : List Lexeme}
    (h : Scanned rest n text lexemes) :
    ∃ alone, Scanned [] 0 text alone ∧ lexemes = alone.map (Lexeme.moved n) := by
  have hscan : scanFrom n text = .ok lexemes :=
    scanFrom_eq_ok_iff.mpr (h.before_lineEnd (by rintro c ⟨⟩))
  have hmoved := scanFrom_moved n 0 text
  rw [Nat.zero_add, hscan] at hmoved
  cases halone : scanFrom 0 text with
  | error fault =>
    rw [halone] at hmoved
    cases hmoved
  | ok alone =>
    rw [halone] at hmoved
    exact ⟨alone, scanFrom_eq_ok_iff.mp halone, Except.ok.inj hmoved⟩

/-- A line of tokens that is read as a command is read so alone. -/
theorem parse_alone {rest text : List Char} {n : Nat} {line : List Lexeme} {x : Located Command}
    (h : Scanned rest n text line) (hline : IsLine line) (hne : line ≠ [])
    (hread : lineCommand line = .ok x) :
    ∃ span, parse (String.ofList text) = .ok [⟨x.node, span, 1⟩] ∧ x.span = span.moved n := by
  obtain ⟨alone, hscan, rfl⟩ := h.exists_alone
  have haloneLine : IsLine alone := fun l hl => hline (l.moved n) (List.mem_map_of_mem hl)
  have haloneNe : alone ≠ [] := by rwa [Ne, List.map_eq_nil_iff] at hne
  rw [lineCommand_moved n haloneLine haloneNe] at hread
  cases hcommand : lineCommand alone with
  | error fault =>
    rw [hcommand] at hread
    cases hread
  | ok y =>
    rw [hcommand] at hread
    cases hread
    refine ⟨y.span, ?_, rfl⟩
    have htokens : scan (String.ofList text) = .ok alone := by
      rw [scan, String.toList_ofList]
      exact scanFrom_eq_ok_iff.mpr hscan
    rw [parse, htokens]
    show readCommands alone = _
    rw [readCommands_line haloneLine haloneNe, numberedCommand, hcommand]
    rfl

/-- A command stands where its line does. -/
theorem faithful_of_line {source : String} {lexemes line : List Lexeme} {n : Nat}
    {x : Located Command} (h : Scanned [] 0 source.toList lexemes)
    (hmem : (line, n) ∈ linesFrom 1 lexemes) (hread : numberedCommand (line, n) = .ok x) :
    x.Faithful source := by
  obtain ⟨hline, hne⟩ : IsLine line ∧ line ≠ [] :=
    ⟨(mem_linesFrom hmem).1, (exists_mem_linesFrom.mp ⟨n, hmem⟩).2⟩
  obtain ⟨above, inside, below, rest, hsource, hnone, hinside, rfl⟩ := h.exists_line hmem
  obtain ⟨y, hy, rfl⟩ := except_map_ok hread
  obtain ⟨-, first, last, hfirst, hlast, hspan⟩ := lineCommand_ok hline hy
  rw [hinside.merge_ends hfirst hlast] at hspan
  obtain ⟨front, text, back, rfl, htext, hstart, hstop⟩ := hinside.exists_trimmed hfirst hlast
  rw [hstart, hstop] at hspan
  obtain ⟨span, hparse, hmoved⟩ := parse_alone htext hline hne hy
  have hcut : source.toList = (above ++ front) ++ (text ++ (back ++ below)) := by
    rw [hsource]
    simp only [List.append_assoc]
  have hstartSize : byteLength above + byteLength front = byteLength (above ++ front) :=
    (byteLength_append ..).symm
  have hstopSize : byteLength above + byteLength (front ++ text) =
      byteLength (above ++ front ++ text) := by
    simp only [byteLength_append, Nat.add_assoc]
  rw [hstartSize, hstopSize] at hspan
  constructor
  · have hpos := htext.byteLength_piece_pos hne
    rw [hspan, byteLength_append (above ++ front) text]
    exact Nat.lt_add_of_pos_right hpos
  · -- The line ends in front of the command are those in front of its line.
    have hnone : front.count '\n' = 0 := List.count_eq_zero.mpr fun hmem => hnone (by simp [hmem])
    obtain ⟨place, hplace, hnumber⟩ := Location.ofOffset?_line hcut
    refine ⟨place, by rw [hspan]; exact hplace, ?_⟩
    rw [hnumber, List.count_append, hnone, Nat.add_zero, Nat.add_comm]
  · refine ⟨String.ofList (above ++ front), String.ofList text, String.ofList (back ++ below), ?_,
      ?_, ?_, ?_⟩
    · rw [← String.ofList_append, ← String.ofList_append, List.append_assoc, ← hcut,
        String.ofList_toList]
    · rw [hspan, ← String.ofList_append, byteLength_ofList, byteLength_ofList]
    · rw [String.toList_ofList]
      exact fun hmem => hnone (by simp [hmem])
    · rw [hparse]
      obtain ⟨start, stop⟩ := span
      rw [hspan, Span.moved] at hmoved
      have hsize := byteLength_ofList text
      have hbytes := byteLength_append (above ++ front) text
      simp only [Span.mk.injEq] at hmoved
      obtain ⟨rfl, rfl⟩ : start = 0 ∧ stop = (String.ofList text).utf8ByteSize := by omega
      rfl

/-! ## All commands -/

namespace Reader

/-- What stands in the order of a row of tokens stands in the order of its
lines, and these are numbered upwards. -/
theorem pairwise_linesFrom {R : Lexeme → Lexeme → Prop} {lexemes : List Lexeme}
    (h : lexemes.Pairwise R) (m : Nat) :
    (linesFrom m lexemes).Pairwise fun x y => x.2 < y.2 ∧ ∀ l ∈ x.1, ∀ l' ∈ y.1, R l l' := by
  cases lexemes with
  | nil => exact .nil
  | cons l rest =>
    cases hl : l.isLineEnd with
    | true =>
      rw [linesFrom_lineEnd hl]
      exact pairwise_linesFrom h.of_cons (m + 1)
    | false =>
      obtain ⟨line, beyond, rfl, hline, hbeyond⟩ := exists_line rest
      obtain ⟨-, hrest, hacross⟩ := List.pairwise_append.mp (List.cons_append ▸ h)
      rw [linesFrom_append (isLine_cons.mpr ⟨hl, hline⟩) hbeyond]
      refine List.pairwise_cons.mpr ⟨?_, pairwise_linesFrom hrest.tail (m + 1)⟩
      rintro ⟨line', n⟩ hmem
      obtain ⟨-, before, after, htail, -, -, rfl⟩ := mem_linesFrom hmem
      refine ⟨by simp only; omega, fun a ha b hb => hacross a ha b (List.mem_of_mem_tail ?_)⟩
      rw [htail]
      simp [hb]
termination_by lexemes.length

end Reader

/-- A row that goes along with a row in order is in order. -/
theorem pairwise_of_forall₂ {α β : Type} {R : α → α → Prop} {S : β → β → Prop} {T : α → β → Prop}
    {xs : List α} {ys : List β} (hxs : xs.Pairwise R) (h : List.Forall₂ T xs ys)
    (hS : ∀ x x' y y', R x x' → T x y → T x' y' → S y y') : ys.Pairwise S := by
  induction h with
  | nil => exact .nil
  | @cons x y xs ys hxy hrest ih =>
    obtain ⟨hfirst, hxs⟩ := List.pairwise_cons.mp hxs
    refine List.pairwise_cons.mpr ⟨fun y' hy' => ?_, ih hxs⟩
    obtain ⟨x', hx', hxy'⟩ := exists_mem_of_forall₂ hrest hy'
    exact hS x x' y y' (hfirst x' hx') hxy hxy'

/-- The commands of a source stand in it one behind the other, each on a
line of its own, and each is there where it says that it is. -/
theorem parse_places {source : String} {cs : List (Located Command)} (h : parse source = .ok cs) :
    (cs.Pairwise fun x y => x.span.stop ≤ y.span.start ∧ x.line < y.line)
      ∧ ∀ x ∈ cs, x.Faithful source := by
  obtain ⟨lexemes, hscan, hread⟩ := except_bind_ok h
  have hscanned := scanFrom_eq_ok_iff.mp hscan
  refine ⟨?_, fun x hx => ?_⟩
  · refine pairwise_of_forall₂ (pairwise_linesFrom hscanned.ordered 1) (readCommands_ok hread) ?_
    rintro ⟨line, m⟩ ⟨line', n⟩ x y ⟨hless, hbefore⟩
      ⟨-, hm, first, last, hfirst, hlast, hspan⟩ ⟨-, hn, first', last', hfirst', hlast', hspan'⟩
    have hff := hbefore first (List.mem_of_head? hfirst) first' (List.mem_of_head? hfirst')
    have hfl := hbefore first (List.mem_of_head? hfirst) last' (List.mem_of_getLast? hlast')
    have hlf := hbefore last (List.mem_of_getLast? hlast) first' (List.mem_of_head? hfirst')
    have hll := hbefore last (List.mem_of_getLast? hlast) last' (List.mem_of_getLast? hlast')
    rw [hspan, hspan', hm, hn]
    simp only [Span.merge]
    omega
  · rw [readCommands_eq] at hread
    obtain ⟨⟨line, n⟩, hmem, hx⟩ := exists_mem_of_forall₂ (mapM_ok hread) hx
    exact faithful_of_line hscanned hmem hx

/-- Carriage returns, an empty line and comments that are no ASCII text
stand around two commands. -/
def scattered : String := "// größe\r\n\n push\tlocal 1 // ü\r\nlabel x"

theorem parse_places_scattered :
    parse scattered = .ok [⟨.push .locals 1, ⟨14, 26⟩, 3⟩, ⟨.label "x", ⟨34, 41⟩, 4⟩]
      ∧ (⟨.push .locals 1, ⟨14, 26⟩, 3⟩ : Located Command).Faithful scattered := by
  have h : parse scattered =
      .ok [⟨.push .locals 1, ⟨14, 26⟩, 3⟩, ⟨.label "x", ⟨34, 41⟩, 4⟩] := by
    decide +kernel
  exact ⟨h, (parse_places h).2 _ (List.mem_cons_self ..)⟩

end HackVm
