import HackVm.Report
import HackVm.Proofs.Modularity
import HackVm.Proofs.Tokens

/-!
# Where faults lie

A report can be made of a fault only if the span of the fault cuts its
source between characters. Faults arise in three stages, and none of them
invents an offset. The scanner blames characters that it has in front of
it. The reader blames tokens of the line that it is in: one of them, the
place behind one, or all from one to another (`Span.Along`); this is kept
by sequencing, like all that is known of readers (`Reader.Blames`). And a
command that has no code is blamed as a whole, from its first token to its
last.

So it is enough to look at one line of tokens. The scanner has cut it from
a piece of text of its own, which holds no line end
(`Scanned.exists_line`), and between two boundaries of this piece lie
whole characters of it (`Span.Along.exists_inside`).
-/

namespace HackVm

open Reader

/-! ## Spans along a line of tokens -/

/-- A span that tokens of a line mark out: the place behind one of them,
or all from one to another. -/
inductive Span.Along (line : List Lexeme) : Span → Prop
  | behind {l : Lexeme} (hl : l ∈ line) : Along line (.point l.span.stop)
  | across {l m : Lexeme} (hl : l ∈ line) (hm : m ∈ line) : Along line (l.span.merge m.span)

theorem Span.along_of_mem {line : List Lexeme} {l : Lexeme} (hl : l ∈ line) : l.span.Along line := by
  have hself := Along.across hl hl
  rwa [Span.merge_self] at hself

/-- Behind the first token of a line, with no token around it but those of
the line. -/
structure Cursor.Amid (line : List Lexeme) (c : Cursor) : Prop where
  begun : c.passed ≠ []
  passed : ∀ l ∈ c.passed, l ∈ line
  ahead : ∀ l ∈ c.ahead, l ∈ line

namespace Cursor

variable {line : List Lexeme} {c : Cursor}

theorem Amid.exists_previous (hc : c.Amid line) : ∃ l ∈ line, c.previousSpan = l.span := by
  obtain ⟨passed, ahead, n⟩ := c
  obtain ⟨l, before, rfl⟩ := List.exists_cons_of_ne_nil hc.begun
  exact ⟨l, hc.passed l (List.mem_cons_self ..), rfl⟩

theorem Amid.along_missing (hc : c.Amid line) (what after : String) :
    (c.missing what after).span.Along line := by
  obtain ⟨l, hl, hspan⟩ := hc.exists_previous
  rw [missing, hspan]
  exact .behind hl

theorem Amid.advance (hc : c.Amid line) : c.advance.Amid line := by
  obtain ⟨passed, _ | ⟨l, rest⟩, n⟩ := c
  · exact hc
  · obtain ⟨hl, hrest⟩ := List.forall_mem_cons.mp hc.ahead
    exact ⟨List.cons_ne_nil _ _, List.forall_mem_cons.mpr ⟨hl, hc.passed⟩, hrest⟩

end Cursor

/-! ## Whom readers blame -/

namespace Reader

/-- A reader that stays in a line and that blames nothing else. -/
def Blames (line : List Lexeme) {α : Type} (r : Reader α) : Prop :=
  ∀ c, c.Amid line → (r.runAt c).2.Amid line
    ∧ ∀ e, (r.runAt c).1 = .error e → e.span.Along line

variable {line : List Lexeme} {α β : Type} {r : Reader α}

theorem Blames.pure (a : α) : Blames line (Pure.pure a : Reader α) :=
  fun _ hc => ⟨hc, fun _ he => by cases he⟩

theorem Blames.throw {e : Fault} (he : e.span.Along line) :
    Blames line (MonadExcept.throw e : Reader α) := by
  intro c hc
  refine ⟨hc, fun e' he' => ?_⟩
  cases he'
  exact he

theorem Blames.bind {f : α → Reader β} (hr : Blames line r) (hf : ∀ a, Blames line (f a)) :
    Blames line (r >>= f) := by
  intro c hc
  obtain ⟨hin, hblame⟩ := hr c hc
  rw [runAt_bind]
  rcases hd : r.runAt c with ⟨e | a, d⟩
  · rw [hd] at hin hblame
    refine ⟨hin, fun e' he' => ?_⟩
    cases he'
    exact hblame e rfl
  · rw [hd] at hin
    exact hf a d hin

/-- What a reader does with the cursor it looks at may depend on where the
cursor is. -/
theorem Blames.get_bind {f : Cursor → Reader α} (hf : ∀ c, c.Amid line → Blames line (f c)) :
    Blames line (MonadState.get >>= f) := by
  intro c hc
  rw [runAt_bind, runAt_get]
  exact hf c hc c hc

theorem blames_operand {what after : String} {value : Lexeme → Except Fault α}
    (hvalue : ∀ l e, value l = .error e → e.span = l.span) :
    Blames line (operand what after value) := by
  rintro ⟨passed, ahead, n⟩ hc
  have hmissing := hc.along_missing what after
  cases ahead with
  | nil =>
    refine ⟨hc, fun e he => ?_⟩
    cases he
    exact hmissing
  | cons l rest =>
    simp only [operand, runAt_ofFun]
    split
    · refine ⟨hc, fun e he => ?_⟩
      cases he
      exact hmissing
    · refine ⟨hc.advance, fun e he => ?_⟩
      rw [hvalue l e he]
      exact Span.along_of_mem (hc.ahead l (List.mem_cons_self ..))

theorem span_segmentOf {l : Lexeme} {e : Fault} (h : segmentOf l = .error e) : e.span = l.span := by
  rw [segmentOf] at h
  split at h
  · split at h <;> cases h
    rfl
  · cases h
    rfl

theorem span_nameOf {after : String} {l : Lexeme} {e : Fault} (h : nameOf after l = .error e) :
    e.span = l.span := by
  rw [nameOf] at h
  split at h
  · split at h <;> cases h
    rfl
  · cases h
    rfl

theorem span_integerOf {what after : String} {l : Lexeme} {e : Fault}
    (h : integerOf what after l = .error e) : e.span = l.span := by
  rw [integerOf] at h
  split at h
  · split at h <;> cases h
    rfl
  · cases h
    rfl

theorem span_verbOf {l : Lexeme} {e : Fault} (h : verbOf l = .error e) : e.span = l.span := by
  rw [verbOf] at h
  split at h
  · split at h <;> cases h
    rfl
  · cases h
    rfl

theorem blames_segment (after : String) : Blames line (segment after) :=
  blames_operand fun _ _ => span_segmentOf

theorem blames_name (after : String) : Blames line (name after) :=
  blames_operand fun _ _ => span_nameOf

theorem blames_integer (what after : String) : Blames line (integer what after) :=
  blames_operand fun _ _ => span_integerOf

theorem blames_operands (w : String) {l : Lexeme} (hl : l ∈ line) (v : Verb) :
    Blames line (operands w l.span v) := by
  cases v with
  | push => exact (blames_segment _).bind fun _ => (blames_integer _ _).bind fun _ => .pure _
  | pop =>
    refine (blames_segment _).bind fun s => (blames_integer _ _).bind fun i =>
      Blames.get_bind fun c hc => ?_
    obtain ⟨m, hm, hprevious⟩ := hc.exists_previous
    split
    · refine .throw ?_
      rw [hprevious]
      exact .across hl hm
    · exact .pure _
  | label => exact (blames_name _).bind fun _ => .pure _
  | goto => exact (blames_name _).bind fun _ => .pure _
  | ifGoto => exact (blames_name _).bind fun _ => .pure _
  | function => exact (blames_name _).bind fun _ => (blames_integer _ _).bind fun _ => .pure _
  | call => exact (blames_name _).bind fun _ => (blames_integer _ _).bind fun _ => .pure _
  | ret => exact .pure _
  | operate op => exact .pure _

theorem blames_lineEnd (after : String) : Blames line (lineEnd after) := by
  rintro ⟨passed, ahead, n⟩ hc
  cases ahead with
  | nil => exact ⟨hc, fun e he => by cases he⟩
  | cons l rest =>
    simp only [lineEnd, runAt_ofFun]
    split
    · exact ⟨hc.advance, fun e he => by cases he⟩
    · refine ⟨hc, fun e he => ?_⟩
      cases he
      exact Span.along_of_mem (hc.ahead l (List.mem_cons_self ..))

/-- What is wrong with a line that stands alone lies along the line. -/
theorem along_of_lineCommand_error {e : Fault} (hne : line ≠ []) (h : lineCommand line = .error e) :
    e.span.Along line := by
  obtain ⟨l, rest, rfl⟩ := List.exists_cons_of_ne_nil hne
  have hl : l ∈ l :: rest := List.mem_cons_self ..
  have hin : (Cursor.ofLexemes (l :: rest)).advance.Amid (l :: rest) :=
    ⟨List.cons_ne_nil _ _, List.forall_mem_singleton.mpr hl, fun m => List.mem_cons_of_mem l⟩
  rw [lineCommand, runAt_command_cons l _ rest rfl] at h
  cases hverb : verbOf l with
  | error e' =>
    rw [hverb] at h
    cases h
    rw [span_verbOf hverb]
    exact Span.along_of_mem hl
  | ok wv =>
    obtain ⟨w, v⟩ := wv
    obtain ⟨hin', hoperands⟩ := blames_operands w hl v _ hin
    rw [hverb] at h
    simp only at h
    rcases hnode : (operands w l.span v).runAt (Cursor.ofLexemes (l :: rest)).advance with
      ⟨e' | node, d⟩
    · rw [hnode] at h hoperands
      cases h
      exact hoperands _ rfl
    · rw [hnode] at h hin'
      have hend := (blames_lineEnd w d hin').2
      simp only at h
      rcases hlast : (lineEnd w).runAt d with ⟨e' | u, d'⟩
      · rw [hlast] at h hend
        cases h
        exact hend _ rfl
      · rw [hlast] at h
        cases h

/-- What is wrong with a row of tokens lies along one of its lines. -/
theorem along_of_readCommands_error {lexemes : List Lexeme} {e : Fault}
    (h : readCommands lexemes = .error e) :
    ∃ line n, (line, n) ∈ linesFrom 1 lexemes ∧ e.span.Along line := by
  rw [readCommands_eq, ← failure?_eq_some, failure?_mapM, List.findSome?_eq_some_iff] at h
  obtain ⟨before, ⟨line, n⟩, after, hsplit, hfail, -⟩ := h
  have hmem : (line, n) ∈ linesFrom 1 lexemes := by
    rw [hsplit]
    exact List.mem_append_right _ (List.mem_cons_self ..)
  have hne := (exists_mem_linesFrom.mp ⟨n, hmem⟩).2
  rw [failure?_numberedCommand, failure?_eq_some] at hfail
  exact ⟨line, n, hmem, along_of_lineCommand_error hne hfail⟩

/-- A command lies along the line that it is read from. -/
theorem along_of_readCommands {lexemes : List Lexeme} {cs : List (Located Command)}
    (h : readCommands lexemes = .ok cs) {x : Located Command} (hx : x ∈ cs) :
    ∃ line n, (line, n) ∈ linesFrom 1 lexemes ∧ x.span.Along line := by
  obtain ⟨⟨line, n⟩, hmem, -, -, first, last, hfirst, hlast, hspan⟩ :=
    exists_mem_of_forall₂ (readCommands_ok h) hx
  refine ⟨line, n, hmem, ?_⟩
  rw [hspan]
  exact .across (List.mem_of_head? hfirst) (List.mem_of_getLast? hlast)

end Reader

/-! ## Spans of texts -/

/-- An offset between two characters of a text, or at one of its ends. -/
def Boundary (text : List Char) (n : Nat) : Prop :=
  ∃ front back, text = front ++ back ∧ n = byteLength front

/-- The span of some characters of a text, none of them a line end. -/
def Span.OnLine (text : List Char) (s : Span) : Prop :=
  ∃ before inside after, text = before ++ inside ++ after ∧ '\n' ∉ inside
    ∧ s = ⟨byteLength before, byteLength (before ++ inside)⟩

section Boundaries

variable {text : List Char} {m n : Nat}

theorem Boundary.min (hm : Boundary text m) (hn : Boundary text n) : Boundary text (min m n) := by
  rcases Nat.le_total m n with h | h
  · rwa [Nat.min_eq_left h]
  · rwa [Nat.min_eq_right h]

theorem Boundary.max (hm : Boundary text m) (hn : Boundary text n) : Boundary text (max m n) := by
  rcases Nat.le_total m n with h | h
  · rwa [Nat.max_eq_right h]
  · rwa [Nat.max_eq_left h]

/-- Between two boundaries of a text lie whole characters of it. -/
theorem exists_between (hm : Boundary text m) (hn : Boundary text n) (h : m ≤ n) :
    ∃ before inside after, text = before ++ inside ++ after ∧ m = byteLength before
      ∧ n = byteLength (before ++ inside) := by
  obtain ⟨before, back, rfl, rfl⟩ := hm
  obtain ⟨front, after, htext, rfl⟩ := hn
  rcases List.append_eq_append_iff.mp htext with ⟨inside, rfl, rfl⟩ | ⟨inside, rfl, rfl⟩
  · exact ⟨before, inside, after, (List.append_assoc ..).symm, rfl, rfl⟩
  · -- Nothing can stand between them the other way around.
    have hnil : inside = [] := by
      refine Classical.not_not.mp fun hne => ?_
      have hpos := byteLength_pos hne
      rw [byteLength_append] at h
      omega
    subst hnil
    exact ⟨front, [], back, by simp, by simp, by simp⟩

end Boundaries

/-! ## The text of a line -/

namespace Scanned

variable {rest piece : List Char} {offset : Nat} {lexemes : List Lexeme}

/-- Where a row of tokens is cut in two, so is the text that it was made
of. -/
theorem split (h : Scanned rest offset piece lexemes) {front back : List Lexeme}
    (hsplit : lexemes = front ++ back) :
    ∃ p q, piece = p ++ q ∧ Scanned (q ++ rest) offset p front
      ∧ Scanned rest (offset + byteLength p) q back := by
  induction h generalizing front with
  | nil offset =>
    obtain ⟨rfl, rfl⟩ := List.append_eq_nil_iff.mp hsplit.symm
    exact ⟨[], [], rfl, .nil offset, .nil _⟩
  | @skip offset gap piece lexemes hgap _ ih =>
    obtain ⟨p, q, rfl, hp, hq⟩ := ih hsplit
    rw [List.append_assoc] at hgap
    refine ⟨gap ++ p, q, (List.append_assoc ..).symm, .skip hgap hp, ?_⟩
    rwa [byteLength_append, ← Nat.add_assoc]
  | @token offset t text piece lexemes ht h ih =>
    cases front with
    | nil =>
      rw [List.nil_append] at hsplit
      subst hsplit
      exact ⟨[], text ++ piece, rfl, .nil offset, .token ht h⟩
    | cons l front =>
      obtain ⟨rfl, hrest⟩ := List.cons.inj hsplit
      obtain ⟨p, q, rfl, hp, hq⟩ := ih hrest
      rw [List.append_assoc] at ht
      refine ⟨text ++ p, q, (List.append_assoc ..).symm, .token ht hp, ?_⟩
      rwa [byteLength_append, ← Nat.add_assoc]

/-- A line of tokens is made of a piece of the text that holds no line end,
and its number counts the line ends in front of the piece. -/
theorem exists_line (h : Scanned [] 0 piece lexemes) {line : List Lexeme} {m n : Nat}
    (hmem : (line, n) ∈ linesFrom m lexemes) :
    ∃ before inside after rest, piece = before ++ inside ++ after ∧ '\n' ∉ inside
      ∧ Scanned rest (byteLength before) inside line ∧ n = m + before.count '\n' := by
  obtain ⟨hline, front, beyond, hlexemes, -, -, hn⟩ := mem_linesFrom hmem
  rw [List.append_assoc] at hlexemes
  obtain ⟨before, more, rfl, hbefore, hmore⟩ := h.split hlexemes
  obtain ⟨inside, after, rfl, hinside, -⟩ := hmore.split rfl
  rw [hbefore.countP_isLineEnd] at hn
  rw [Nat.zero_add] at hinside
  refine ⟨before, inside, after, _, (List.append_assoc ..).symm, ?_, hinside, hn⟩
  have hnone : line.countP Lexeme.isLineEnd = 0 :=
    List.countP_eq_zero.mpr fun l hl => by simp [hline l hl]
  rwa [hinside.countP_isLineEnd, List.count_eq_zero] at hnone

/-- Tokens lie between boundaries of the text that they are made of. -/
theorem exists_boundaries (h : Scanned rest offset piece lexemes) {l : Lexeme} (hl : l ∈ lexemes) :
    ∃ m n, l.span = ⟨offset + m, offset + n⟩ ∧ m ≤ n ∧ Boundary piece m ∧ Boundary piece n := by
  obtain ⟨before, text, after, rfl, hspan, -⟩ := h.spelled l hl
  refine ⟨_, _, hspan, ?_, ⟨before, text ++ after, List.append_assoc .., rfl⟩,
    ⟨before ++ text, after, rfl, rfl⟩⟩
  rw [byteLength_append]
  exact Nat.le_add_right _ _

end Scanned

/-- A span along a line of tokens covers whole characters of the piece that
the line is made of. -/
theorem Span.Along.exists_inside {rest piece : List Char} {offset : Nat} {line : List Lexeme}
    {s : Span} (hs : s.Along line) (h : Scanned rest offset piece line) :
    ∃ front inside back, piece = front ++ inside ++ back
      ∧ s = ⟨offset + byteLength front, offset + byteLength (front ++ inside)⟩ := by
  cases hs with
  | behind hl =>
    obtain ⟨m, n, hspan, -, -, hn⟩ := h.exists_boundaries hl
    obtain ⟨front, inside, back, hpiece, hfront, hinside⟩ := exists_between hn hn (Nat.le_refl n)
    refine ⟨front, inside, back, hpiece, ?_⟩
    rw [hspan, ← hfront, ← hinside]
    rfl
  | across hl hl' =>
    obtain ⟨m, n, hspan, hle, hm, hn⟩ := h.exists_boundaries hl
    obtain ⟨m', n', hspan', -, hm', hn'⟩ := h.exists_boundaries hl'
    have hless : min m m' ≤ max n n' :=
      Nat.le_trans (Nat.min_le_left ..) (Nat.le_trans hle (Nat.le_max_left ..))
    obtain ⟨front, inside, back, hpiece, hfront, hinside⟩ :=
      exists_between (hm.min hm') (hn.max hn') hless
    refine ⟨front, inside, back, hpiece, ?_⟩
    rw [hspan, hspan', Span.merge, ← hfront, ← hinside]
    simp only [Nat.add_min_add_left, Nat.add_max_add_left]

/-- A span along a line of tokens lies on a line of the text. -/
theorem Span.Along.onLine {rest inside before : List Char} {line : List Lexeme} {s : Span}
    (hs : s.Along line) (h : Scanned rest (byteLength before) inside line) (hline : '\n' ∉ inside)
    (after : List Char) : s.OnLine (before ++ inside ++ after) := by
  obtain ⟨front, middle, back, rfl, rfl⟩ := hs.exists_inside h
  refine ⟨before ++ front, middle, back ++ after, by simp only [List.append_assoc], ?_, ?_⟩
  · intro hmem
    exact hline (List.mem_append_left _ (List.mem_append_right _ hmem))
  · simp only [byteLength_append, Nat.add_assoc]

/-! ## The three stages -/

section Stages

variable {source file : String} {fault : Fault}

/-- The scanner blames characters that it has in front of it, and none of
them is a line end. -/
theorem onLine_of_scan_error (h : scan source = .error fault) :
    fault.span.OnLine source.toList := by
  obtain ⟨before, rest, lexemes, hsource, -, hstuck⟩ := scanFrom_eq_error_iff.mp h
  rw [hsource]
  rw [Nat.zero_add] at hstuck
  cases hstuck with
  | @number digits after hne hdigits hafter hvalue =>
    refine ⟨before, digits, after, (List.append_assoc ..).symm, fun hmem => ?_, ?_⟩
    · exact ne_newline_of_class (p := Char.isDigit) rfl (hdigits _ hmem) rfl
    · rw [byteLength_append]
  | @character c after hline =>
    refine ⟨before, [c], after, by simp, fun hmem => hline (List.mem_singleton.mp hmem).symm, ?_⟩
    rw [byteLength_append]

/-- What lies along a line of tokens of a source lies on a line of it. -/
theorem onLine_of_along {lexemes line : List Lexeme} {n : Nat} {s : Span}
    (hscan : scan source = .ok lexemes) (hmem : (line, n) ∈ linesFrom 1 lexemes)
    (hs : s.Along line) : s.OnLine source.toList := by
  obtain ⟨before, inside, after, rest, hsource, hnone, hline, -⟩ :=
    (scanFrom_eq_ok_iff.mp hscan).exists_line hmem
  rw [hsource]
  exact hs.onLine hline hnone after

/-- A source that cannot be translated has no tokens, or else the fault lies
along a line of its tokens. -/
theorem along_of_translate_error (h : translate source file = .error fault) :
    scan source = .error fault
      ∨ ∃ lexemes line n, scan source = .ok lexemes ∧ (line, n) ∈ linesFrom 1 lexemes
        ∧ fault.span.Along line := by
  cases hscan : scan source with
  | error fault' =>
    rw [translate, parse, hscan] at h
    cases h
    exact .inl rfl
  | ok lexemes =>
    have hread : parse source = readCommands lexemes := by
      rw [parse, hscan]
      rfl
    rw [← failure?_eq_some, failure?_translate, hread] at h
    cases hcommands : readCommands lexemes with
    | error fault' =>
      rw [hcommands] at h
      obtain rfl := Option.some.inj h
      obtain ⟨line, n, hmem, hs⟩ := along_of_readCommands_error hcommands
      exact .inr ⟨lexemes, line, n, rfl, hmem, hs⟩
    | ok cs =>
      rw [hcommands] at h
      obtain ⟨x, hx, hfault⟩ := List.exists_of_findSome?_eq_some h
      obtain ⟨cause, -, rfl⟩ := Option.map_eq_some_iff.mp hfault
      obtain ⟨line, n, hmem, hs⟩ := along_of_readCommands hcommands hx
      exact .inr ⟨lexemes, line, n, rfl, hmem, hs⟩

theorem onLine_of_translate_error (h : translate source file = .error fault) :
    fault.span.OnLine source.toList := by
  rcases along_of_translate_error h with hscan | ⟨lexemes, line, n, hscan, hmem, hs⟩
  · exact onLine_of_scan_error hscan
  · exact onLine_of_along hscan hmem hs

end Stages

/-! ## Reports of faults -/

theorem Cut.forward?_append (front back before : List Char) :
    Cut.forward? (byteLength front) before (front ++ back) =
      some ⟨front.reverse ++ before, back⟩ := by
  induction front generalizing before with
  | nil => cases back <;> rfl
  | cons c front ih =>
    have hpos := c.utf8Size_pos
    rw [List.cons_append, forward?, byteLength_cons, if_neg (by omega), if_pos (by omega),
      Nat.add_sub_cancel_left, ih]
    simp

/-- The location between two parts of a source. -/
theorem Location.ofOffset?_front {source : String} {front back : List Char}
    (h : source.toList = front ++ back) :
    ofOffset? source (byteLength front) = some (ofCut ⟨front.reverse, back⟩) := by
  rw [ofOffset?, cutAt?, h, Cut.forward?_append, List.append_nil, Option.map_some]

/-- There is a location at every boundary of a source. -/
theorem Location.exists_ofOffset? {source : String} {n : Nat} (h : Boundary source.toList n) :
    ∃ place, ofOffset? source n = some place := by
  obtain ⟨front, back, hsource, rfl⟩ := h
  exact ⟨_, ofOffset?_front hsource⟩

/-- A span that a report can be made of. -/
structure Span.Usable (source : String) (s : Span) : Prop where
  start_le_stop : s.start ≤ s.stop
  stop_le_size : s.stop ≤ source.utf8ByteSize
  start_isValid : String.Pos.Raw.IsValid source ⟨s.start⟩
  stop_isValid : String.Pos.Raw.IsValid source ⟨s.stop⟩
  /-- What stands inside of the span holds no line end. -/
  one_line : ∃ before inside after, source = before ++ inside ++ after
    ∧ before.utf8ByteSize = s.start ∧ (before ++ inside).utf8ByteSize = s.stop
    ∧ '\n' ∉ inside.toList

theorem Span.OnLine.usable {source : String} {s : Span} (h : s.OnLine source.toList) :
    s.Usable source := by
  obtain ⟨before, inside, after, hsource, hline, rfl⟩ := h
  have hstart : byteLength before = (String.ofList before).utf8ByteSize := byteLength_ofList before
  have hstop : byteLength (before ++ inside) =
      (String.ofList before ++ String.ofList inside).utf8ByteSize := by
    rw [← String.ofList_append, byteLength_ofList]
  obtain rfl : source = String.ofList before ++ String.ofList inside ++ String.ofList after := by
    rw [← String.ofList_append, ← String.ofList_append, ← hsource, String.ofList_toList]
  rw [hstart, hstop]
  constructor
  · rw [String.utf8ByteSize_append]
    exact Nat.le_add_right _ _
  · simp only [String.utf8ByteSize_append]
    exact Nat.le_add_right _ _
  · exact String.Pos.Raw.isValid_iff_exists_append.mpr ⟨_, _, String.append_assoc .., rfl⟩
  · exact String.Pos.Raw.isValid_iff_exists_append.mpr ⟨_, _, rfl, rfl⟩
  · exact ⟨_, _, _, rfl, rfl, rfl, by rwa [String.toList_ofList]⟩

/-- A source that cannot be translated is to blame at a place that can be
shown. The span of the fault lies on one line and between characters, its
length is the way from its start to its stop, and there is a location at
its start and, unless the column is out of bounds for a report, a report
under any name of the file. -/
theorem fault_position_usable {source file : String} {fault : Fault}
    (h : translate source file = .error fault) :
    fault.span.Usable source
      ∧ fault.span.length = fault.span.stop - fault.span.start
      ∧ ∃ place, Location.ofOffset? source fault.span.start = some place
        ∧ (place.column ≤ 65535 → ∀ name : Option String,
          fault.diagnostic.render? source name =
            some (fault.diagnostic.renderAt place (name.getD "<input>"))) := by
  have hline := onLine_of_translate_error h
  have husable := hline.usable
  obtain ⟨before, inside, after, hsource, -, hspan⟩ := hline
  have hstart : Boundary source.toList fault.span.start :=
    ⟨before, inside ++ after, by rw [hsource, List.append_assoc], by rw [hspan]⟩
  obtain ⟨place, hplace⟩ := Location.exists_ofOffset? hstart
  refine ⟨husable, Span.length_of_le husable.start_le_stop, place, hplace, fun hcolumn name => ?_⟩
  exact Diagnostic.render?_of_location hplace (Nat.le_trans (Nat.sub_le ..) hcolumn) name

/-- A number that is too large for its command, behind a comment and in
front of one that are no ASCII text. The command is what is to blame. -/
theorem fault_position_usable_local :
    translate "// größe\npush\tlocal 32768 // ü" "A.vm" =
        .error ⟨.valueTooLarge 32768 (.push .locals 32768), ⟨11, 27⟩⟩
      ∧ (⟨11, 27⟩ : Span).Usable "// größe\npush\tlocal 32768 // ü" := by
  have h : translate "// größe\npush\tlocal 32768 // ü" "A.vm" =
      .error ⟨.valueTooLarge 32768 (.push .locals 32768), ⟨11, 27⟩⟩ := by
    decide +kernel
  exact ⟨h, (fault_position_usable h).1⟩

end HackVm
