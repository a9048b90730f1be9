import Mathlib.Data.List.Basic
import HackVm.Proofs.Printing

/-!
# What a text is scanned into

The rules of the scanner, with no regard to how it goes about them: what
may stand between two tokens (`Skipped`), and what a token is spelled with
(`Token.Spells`). Each rule takes all it can, which is a condition on the
character behind. `Scanned` puts pieces of both kinds together.

Every text is such a row of pieces, up to its end or up to a place where
no rule applies (`exists_scanned`), and the scanner goes along with it
(`Scanned.scans`). All else is read off the row by induction: where the
tokens lie, what is between them, and that no line end is lost.
-/

namespace HackVm

/-! ## The rules -/

/-- A piece that the scanner drops, in front of some text: a blank, or a
comment, which reaches up to the line end. -/
inductive Skipped : List Char → List Char → Prop
  | blank {c : Char} (hc : isBlank c = true) (after : List Char) : Skipped [c] after
  | comment {text after : List Char} (htext : '\n' ∉ text) (hafter : StopsAt (· != '\n') after) :
    Skipped ('/' :: '/' :: text) after

/-- A token and what it is spelled with, in front of some text that does
not go on with it. -/
inductive Token.Spells : Token → List Char → List Char → Prop
  | newline (after : List Char) : Spells .newline ['\n'] after
  | integer {value : UInt32} {digits after : List Char} (hne : digits ≠ [])
      (hdigits : ∀ d ∈ digits, d.isDigit = true)
      (hvalue : Nat.ofDigitChars 10 digits 0 = value.toNat) (hafter : StopsAt Char.isDigit after) :
    Spells (.integer value) digits after
  | word {c : Char} {letters after : List Char} (hc : isWordStart c = true)
      (hletters : ∀ d ∈ letters, isWordChar d = true) (hafter : StopsAt isWordChar after) :
    Spells (.word (String.ofList (c :: letters))) (c :: letters) after

/-- In front of the rest, a piece from a byte offset on is made of these
tokens and of what is dropped. -/
inductive Scanned (rest : List Char) : Nat → List Char → List Lexeme → Prop
  | nil (offset : Nat) : Scanned rest offset [] []
  | skip {offset : Nat} {gap piece : List Char} {lexemes : List Lexeme}
      (hgap : Skipped gap (piece ++ rest))
      (h : Scanned rest (offset + byteLength gap) piece lexemes) :
    Scanned rest offset (gap ++ piece) lexemes
  | token {offset : Nat} {t : Token} {text piece : List Char} {lexemes : List Lexeme}
      (ht : t.Spells text (piece ++ rest))
      (h : Scanned rest (offset + byteLength text) piece lexemes) :
    Scanned rest offset (text ++ piece) (⟨t, ⟨offset, offset + byteLength text⟩⟩ :: lexemes)

/-- No rule applies to a text, and the fault that this is. -/
inductive Stuck (offset : Nat) : List Char → Fault → Prop
  | number {digits after : List Char} (hne : digits ≠ []) (hdigits : ∀ d ∈ digits, d.isDigit = true)
      (hafter : StopsAt Char.isDigit after)
      (hvalue : UInt32.size ≤ Nat.ofDigitChars 10 digits 0) :
    Stuck offset (digits ++ after)
      ⟨.literalTooLarge (String.ofList digits), ⟨offset, offset + byteLength digits⟩⟩
  | character {c : Char} {after : List Char} (hline : c ≠ '\n') (hblank : isBlank c = false)
      (hdigit : c.isDigit = false) (hword : isWordStart c = false)
      (hslash : c = '/' → after.head? ≠ some '/') :
    Stuck offset (c :: after) ⟨.strayCharacter c, ⟨offset, offset + byteLength [c]⟩⟩

/-! ## The scanner follows the rules -/

theorem stopsAt_dropWhile (p : Char → Bool) (text : List Char) :
    StopsAt p (text.dropWhile p) := by
  intro c hc
  have hnot := List.head?_dropWhile_not p text
  rwa [Option.mem_def.mp hc] at hnot

theorem forall_mem_takeWhile (p : Char → Bool) (text : List Char) :
    ∀ c ∈ text.takeWhile p, p c = true :=
  List.all_eq_true.mp List.all_takeWhile

theorem numberOf?_eq_some {digits : List Char} {value : UInt32} :
    numberOf? digits = some value ↔ Nat.ofDigitChars 10 digits 0 = value.toNat := by
  rw [numberOf?]
  constructor
  · intro h
    split at h
    · rename_i hlt
      rw [← Option.some.inj h, UInt32.toNat_ofNat_of_lt' hlt]
    · cases h
  · intro h
    rw [h, if_pos value.toNat_lt_size, UInt32.ofNat_toNat]

theorem numberOf?_eq_none {digits : List Char} :
    numberOf? digits = none ↔ UInt32.size ≤ Nat.ofDigitChars 10 digits 0 := by
  simp [numberOf?]

section Follows

variable (offset : Nat) {rest : List Char}

theorem scans_blank {c : Char} (hc : isBlank c = true) (rest : List Char) :
    Scans offset [c] [] rest := by
  have hsize : byteLength [c] = 1 := by
    simp only [isBlank, Bool.or_eq_true, beq_iff_eq] at hc
    rcases hc with ((rfl | rfl) | rfl) | rfl <;> rfl
  have hline : (c == '\n') = false := by
    rw [beq_eq_false_iff_ne]
    rintro rfl
    cases hc
  rw [Scans, List.singleton_append, scanFrom, hline, if_neg Bool.false_ne_true, if_pos hc, hsize]
  exact (congrFun Except.map_id _).symm

theorem scans_comment {text : List Char} (htext : '\n' ∉ text)
    (hrest : StopsAt (· != '\n') rest) : Scans offset ('/' :: '/' :: text) [] rest := by
  have hall : ∀ c ∈ '/' :: text, (c != '\n') = true := by
    intro c hc
    rw [bne_iff_ne]
    rintro rfl
    rcases List.mem_cons.mp hc with hslash | hc
    · cases hslash
    · exact htext hc
  have htake := takeWhile_of_stopsAt hall hrest
  have hdrop := dropWhile_of_stopsAt hall hrest
  rw [List.cons_append] at htake hdrop
  rw [Scans, List.cons_append, List.cons_append, scanFrom, if_neg (by decide), if_neg (by decide),
    if_neg (by decide), if_neg (by decide), if_pos (by rfl), htake, hdrop]
  exact (congrFun Except.map_id _).symm

theorem Skipped.scans {gap : List Char} (h : Skipped gap rest) : Scans offset gap [] rest := by
  cases h with
  | blank hc => exact scans_blank offset hc rest
  | comment htext hafter => exact scans_comment offset htext hafter

theorem Token.Spells.scans {t : Token} {text : List Char} (h : t.Spells text rest) :
    Scans offset text [⟨t, ⟨offset, offset + byteLength text⟩⟩] rest := by
  cases h with
  | newline => exact scans_newline offset rest
  | @integer value digits after hne hdigits hvalue hafter =>
    obtain ⟨d, ds, rfl⟩ := List.exists_cons_of_ne_nil hne
    obtain ⟨hd, hds⟩ := List.forall_mem_cons.mp hdigits
    exact scans_digits offset hd hds (numberOf?_eq_some.mpr hvalue) hafter
  | word hc hletters hafter => exact scans_letters offset hc hletters hafter

end Follows

section Scanned

variable {offset : Nat} {piece rest text : List Char} {lexemes : List Lexeme}

/-- The scanner goes along with a row of pieces. -/
theorem Scanned.scans (h : Scanned rest offset piece lexemes) : Scans offset piece lexemes rest := by
  induction h with
  | nil offset => exact (congrFun Except.map_id _).symm
  | skip hgap _ ih => exact (hgap.scans _).append ih
  | token ht _ ih => exact (ht.scans _).append ih

theorem scanFrom_of_stuck {fault : Fault} (h : Stuck offset rest fault) :
    scanFrom offset rest = .error fault := by
  cases h with
  | number hne hdigits hafter hvalue =>
    obtain ⟨d, ds, rfl⟩ := List.exists_cons_of_ne_nil hne
    obtain ⟨hd, hds⟩ := List.forall_mem_cons.mp hdigits
    obtain ⟨hline, hblank⟩ := not_blank_of_class (p := Char.isDigit) rfl hd
    rw [List.cons_append, scanFrom]
    simp only [hline, hblank, hd, Bool.false_eq_true, if_false, if_true,
      takeWhile_of_stopsAt hds hafter, numberOf?_eq_none.mpr hvalue]
  | @character c after hline hblank hdigit hword hslash =>
    have hremark : (c == '/' && after.head? == some '/') = false := by
      simpa using hslash
    rw [scanFrom]
    simp [beq_eq_false_iff_ne.mpr hline, hblank, hdigit, hword, hremark]

/-- One rule applies to a text that has not ended, or none does. -/
theorem exists_rule (offset : Nat) (hne : text ≠ []) :
    (∃ gap rest, text = gap ++ rest ∧ gap ≠ [] ∧ Skipped gap rest)
    ∨ (∃ t piece rest, text = piece ++ rest ∧ piece ≠ [] ∧ Token.Spells t piece rest)
    ∨ ∃ fault, Stuck offset text fault := by
  obtain ⟨c, after, rfl⟩ := List.exists_cons_of_ne_nil hne
  by_cases hline : c = '\n'
  · subst hline
    exact .inr (.inl ⟨_, ['\n'], after, rfl, List.cons_ne_nil _ _, .newline after⟩)
  by_cases hblank : isBlank c = true
  · exact .inl ⟨[c], after, rfl, List.cons_ne_nil _ _, .blank hblank after⟩
  by_cases hdigit : c.isDigit = true
  · let digits := c :: after.takeWhile Char.isDigit
    have hsplit : c :: after = digits ++ after.dropWhile Char.isDigit := by
      rw [List.cons_append, List.takeWhile_append_dropWhile]
    have hdigits : ∀ d ∈ digits, d.isDigit = true :=
      List.forall_mem_cons.mpr ⟨hdigit, forall_mem_takeWhile _ _⟩
    have hstops := stopsAt_dropWhile Char.isDigit after
    cases hvalue : numberOf? digits with
    | some value =>
      exact .inr (.inl ⟨_, digits, _, hsplit, List.cons_ne_nil _ _,
        .integer (List.cons_ne_nil _ _) hdigits (numberOf?_eq_some.mp hvalue) hstops⟩)
    | none =>
      rw [hsplit]
      exact .inr (.inr ⟨_, .number (List.cons_ne_nil _ _) hdigits hstops
        (numberOf?_eq_none.mp hvalue)⟩)
  by_cases hword : isWordStart c = true
  · exact .inr (.inl ⟨_, c :: after.takeWhile isWordChar, after.dropWhile isWordChar,
      by rw [List.cons_append, List.takeWhile_append_dropWhile], List.cons_ne_nil _ _,
      .word hword (forall_mem_takeWhile _ _) (stopsAt_dropWhile _ _)⟩)
  by_cases hslash : c = '/' ∧ after.head? = some '/'
  · obtain ⟨rfl, hslash⟩ := hslash
    obtain ⟨more, rfl⟩ := List.head?_eq_some_iff.mp hslash
    refine .inl ⟨'/' :: '/' :: more.takeWhile (· != '\n'), more.dropWhile (· != '\n'),
      by rw [List.cons_append, List.cons_append, List.takeWhile_append_dropWhile],
      List.cons_ne_nil _ _, .comment (fun hmem => ?_) (stopsAt_dropWhile _ _)⟩
    have hnot := forall_mem_takeWhile (· != '\n') more _ hmem
    cases hnot
  · exact .inr (.inr ⟨_, .character hline (Bool.eq_false_iff.mpr hblank)
      (Bool.eq_false_iff.mpr hdigit) (Bool.eq_false_iff.mpr hword)
      fun hc hafter => hslash ⟨hc, hafter⟩⟩)

/-- A text is a row of pieces up to its end, or up to a place where no
rule applies. -/
theorem exists_scanned (offset : Nat) (text : List Char) :
    ∃ piece rest lexemes, text = piece ++ rest ∧ Scanned rest offset piece lexemes
      ∧ (rest = [] ∨ ∃ fault, Stuck (offset + byteLength piece) rest fault) := by
  by_cases hne : text = []
  · exact ⟨[], [], [], hne, .nil offset, .inl rfl⟩
  -- What a rule takes is not empty, so the text behind it is shorter.
  have hshorter {front more : List Char} (htext : text = front ++ more) (hfront : front ≠ []) :
      more.length < text.length := by
    rw [htext, List.length_append]
    exact Nat.lt_add_of_pos_left (List.length_pos_iff.mpr hfront)
  rcases exists_rule offset hne with ⟨gap, more, htext, hgap, hskip⟩ |
    ⟨t, front, more, htext, hfront, ht⟩ | ⟨fault, hstuck⟩
  · have hless := hshorter htext hgap
    obtain ⟨piece, rest, lexemes, rfl, hpiece, hend⟩ := exists_scanned (offset + byteLength gap) more
    refine ⟨gap ++ piece, rest, lexemes, by rw [htext, List.append_assoc], .skip hskip hpiece, ?_⟩
    rwa [byteLength_append, ← Nat.add_assoc]
  · have hless := hshorter htext hfront
    obtain ⟨piece, rest, lexemes, rfl, hpiece, hend⟩ :=
      exists_scanned (offset + byteLength front) more
    refine ⟨front ++ piece, rest, _, by rw [htext, List.append_assoc], .token ht hpiece, ?_⟩
    rwa [byteLength_append, ← Nat.add_assoc]
  · exact ⟨[], text, [], rfl, .nil offset, .inr ⟨fault, hstuck⟩⟩
termination_by text.length

theorem scanFrom_append_of_stuck {fault : Fault} (h : Scanned rest offset piece lexemes)
    (hstuck : Stuck (offset + byteLength piece) rest fault) :
    scanFrom offset (piece ++ rest) = .error fault := by
  rw [h.scans, scanFrom_of_stuck hstuck]
  rfl

/-- What the scanner makes of a text is what the rules make of it. -/
theorem scanFrom_eq_ok_iff : scanFrom offset text = .ok lexemes ↔ Scanned [] offset text lexemes := by
  refine ⟨fun h => ?_, fun h => h.scans.whole⟩
  obtain ⟨piece, rest, ls, rfl, hpiece, rfl | ⟨fault, hstuck⟩⟩ := exists_scanned offset text
  · rw [List.append_nil] at h ⊢
    rw [hpiece.scans.whole] at h
    rwa [← Except.ok.inj h]
  · rw [scanFrom_append_of_stuck hpiece hstuck] at h
    cases h

theorem scanFrom_eq_error_iff {fault : Fault} : scanFrom offset text = .error fault ↔
    ∃ piece rest lexemes, text = piece ++ rest ∧ Scanned rest offset piece lexemes
      ∧ Stuck (offset + byteLength piece) rest fault := by
  constructor
  · intro h
    obtain ⟨piece, rest, ls, rfl, hpiece, rfl | ⟨fault', hstuck⟩⟩ := exists_scanned offset text
    · rw [List.append_nil, hpiece.scans.whole] at h
      cases h
    · rw [scanFrom_append_of_stuck hpiece hstuck] at h
      rw [← Except.error.inj h]
      exact ⟨piece, rest, ls, rfl, hpiece, hstuck⟩
  · rintro ⟨piece, rest, ls, rfl, hpiece, hstuck⟩
    exact scanFrom_append_of_stuck hpiece hstuck

end Scanned

/-! ## Pieces by themselves -/

theorem ne_newline_of_class {p : Char → Bool} (hp : p '\n' = false) {c : Char} (hc : p c = true) :
    c ≠ '\n' := by
  rintro rfl
  exact Bool.false_ne_true (hp.symm.trans hc)

theorem Token.Spells.ne_nil {t : Token} {text after : List Char} (h : t.Spells text after) :
    text ≠ [] := by
  cases h with
  | newline => exact List.cons_ne_nil _ _
  | integer hne => exact hne
  | word => exact List.cons_ne_nil _ _

theorem byteLength_pos {text : List Char} (h : text ≠ []) : 0 < byteLength text := by
  obtain ⟨c, cs, rfl⟩ := List.exists_cons_of_ne_nil h
  exact Nat.add_pos_left c.utf8Size_pos _

/-- What ends a piece is a matter of the character behind it, and a line
end ends them all. -/
theorem StopsAt.before_lineEnd {p : Char → Bool} (hp : p '\n' = false) {piece rest rest' : List Char}
    (h : StopsAt p (piece ++ rest)) (hrest' : ∀ c ∈ rest'.head?, c = '\n') :
    StopsAt p (piece ++ rest') := by
  cases piece with
  | nil =>
    intro c hc
    rw [hrest' c hc, hp]
  | cons d ds => exact h

theorem Skipped.before_lineEnd {gap piece rest rest' : List Char} (h : Skipped gap (piece ++ rest))
    (hrest' : ∀ c ∈ rest'.head?, c = '\n') : Skipped gap (piece ++ rest') := by
  cases h with
  | blank hc => exact .blank hc _
  | comment htext hafter => exact .comment htext (hafter.before_lineEnd rfl hrest')

theorem Token.Spells.before_lineEnd {t : Token} {text piece rest rest' : List Char}
    (h : t.Spells text (piece ++ rest)) (hrest' : ∀ c ∈ rest'.head?, c = '\n') :
    t.Spells text (piece ++ rest') := by
  cases h with
  | newline => exact .newline _
  | integer hne hdigits hvalue hafter =>
    exact .integer hne hdigits hvalue (hafter.before_lineEnd rfl hrest')
  | word hc hletters hafter => exact .word hc hletters (hafter.before_lineEnd rfl hrest')

theorem Skipped.count_newline {gap after : List Char} (h : Skipped gap after) :
    gap.count '\n' = 0 := by
  rw [List.count_eq_zero]
  cases h with
  | blank hc => simpa using (ne_newline_of_class (p := isBlank) rfl hc).symm
  | comment htext => simpa using htext

theorem isWordChar_of_isDigit {c : Char} (h : c.isDigit = true) : isWordChar c = true := by
  simp [isWordChar, isSymbolChar_of_isDigit h]

/-- The characters of a token that ends no line are those of words. -/
theorem Token.Spells.isWordChar {t : Token} {text after : List Char} (h : t.Spells text after)
    (ht : t ≠ .newline) : ∀ c ∈ text, isWordChar c = true := by
  cases h with
  | newline => exact absurd rfl ht
  | integer hne hdigits => exact fun c hc => isWordChar_of_isDigit (hdigits c hc)
  | word hc hletters => exact List.forall_mem_cons.mpr ⟨isWordChar_of_isWordStart hc, hletters⟩

theorem Token.Spells.count_newline {t : Token} {text after : List Char} (h : t.Spells text after)
    (span : Span) : text.count '\n' = if (⟨t, span⟩ : Lexeme).isLineEnd then 1 else 0 := by
  have hnone (ht : t ≠ .newline) : text.count '\n' = 0 := List.count_eq_zero.mpr fun hmem =>
    ne_newline_of_class (p := HackVm.isWordChar) rfl (h.isWordChar ht _ hmem) rfl
  cases h with
  | newline => rfl
  | integer => exact hnone Token.noConfusion
  | word => exact hnone Token.noConfusion

/-- A digit never stands behind a piece that ends in a digit: it would
have been a part of it. -/
theorem Skipped.last_not_digit {gap after : List Char} {d : Char} (h : Skipped gap (d :: after))
    (hd : d.isDigit = true) : StopsAt Char.isDigit gap.reverse := by
  cases h with
  | @blank c hc =>
    refine stopsAt_cons (Bool.eq_false_iff.mpr fun hdigit => ?_) []
    have hnot := (not_blank_of_class (p := Char.isDigit) rfl hdigit).2
    exact Bool.false_ne_true (hnot.symm.trans hc)
  | comment htext hafter =>
    -- Behind a comment there is nothing but a line end.
    have hline : d = '\n' := by simpa using hafter d rfl
    exact absurd hline (ne_newline_of_class (p := Char.isDigit) rfl hd)

theorem Token.Spells.last_not_digit {t : Token} {text after : List Char} {d : Char}
    (h : t.Spells text (d :: after)) (hd : d.isDigit = true) :
    StopsAt Char.isDigit text.reverse := by
  cases h with
  | newline => exact stopsAt_cons rfl []
  | integer hne hdigits hvalue hafter => exact absurd hd (Bool.eq_false_iff.mp (hafter d rfl))
  | word hc hletters hafter =>
    exact absurd (isWordChar_of_isDigit hd) (Bool.eq_false_iff.mp (hafter d rfl))

/-! ## Rows of pieces -/

/-- A row of dropped pieces, in front of some text. -/
inductive Gap (after : List Char) : List Char → Prop
  | nil : Gap after []
  | cons {piece gap : List Char} (hpiece : Skipped piece (gap ++ after)) (hgap : Gap after gap) :
    Gap after (piece ++ gap)

/-- The end of the last of some tokens. -/
def endOf (front : List Lexeme) (start : Nat) : Nat := (front.getLast?.map (·.span.stop)).getD start

/-- The start of the first of some tokens. -/
def startOf (back : List Lexeme) (stop : Nat) : Nat := (back.head?.map (·.span.start)).getD stop

theorem endOf_cons (l : Lexeme) (front : List Lexeme) (start : Nat) :
    endOf (l :: front) start = endOf front l.span.stop := by
  rw [endOf, endOf, List.getLast?_cons]
  cases front.getLast? <;> rfl

namespace Scanned

variable {rest piece : List Char} {offset : Nat} {lexemes : List Lexeme}

theorem before_lineEnd (h : Scanned rest offset piece lexemes) {rest' : List Char}
    (hrest' : ∀ c ∈ rest'.head?, c = '\n') : Scanned rest' offset piece lexemes := by
  induction h with
  | nil offset => exact .nil offset
  | skip hgap _ ih => exact .skip (hgap.before_lineEnd hrest') ih
  | token ht _ ih => exact .token (ht.before_lineEnd hrest') ih

/-- Each line end of the text is a token, and there are no others. -/
theorem countP_isLineEnd (h : Scanned rest offset piece lexemes) :
    lexemes.countP Lexeme.isLineEnd = piece.count '\n' := by
  induction h with
  | nil offset => rfl
  | skip hgap _ ih => rw [List.count_append, hgap.count_newline, ih, Nat.zero_add]
  | token ht _ ih => rw [List.count_append, List.countP_cons, ht.count_newline, ih, Nat.add_comm]

theorem last_not_digit {d : Char} {after : List Char} (h : Scanned (d :: after) offset piece lexemes)
    (hd : d.isDigit = true) : StopsAt Char.isDigit piece.reverse := by
  -- Only the last piece of the row matters, which the rest stands behind.
  have hlast {front piece : List Char} (hfront : piece = [] → StopsAt Char.isDigit front.reverse)
      (hpiece : StopsAt Char.isDigit piece.reverse) :
      StopsAt Char.isDigit (front ++ piece).reverse := by
    intro c hc
    rw [List.reverse_append] at hc
    by_cases hnil : piece = []
    · subst hnil
      exact hfront rfl c hc
    · rw [List.head?_append_of_ne_nil _ (by simpa using hnil)] at hc
      exact hpiece c hc
  induction h with
  | nil offset => exact stopsAt_nil _
  | skip hgap _ ih =>
    refine hlast (fun hnil => ?_) ih
    subst hnil
    exact hgap.last_not_digit hd
  | token ht _ ih =>
    refine hlast (fun hnil => ?_) ih
    subst hnil
    exact ht.last_not_digit hd

/-- Where a token lies in the text, and what it is spelled with. -/
theorem spelled (h : Scanned rest offset piece lexemes) :
    ∀ l ∈ lexemes, ∃ before text after, piece = before ++ text ++ after
      ∧ l.span = ⟨offset + byteLength before, offset + byteLength (before ++ text)⟩
      ∧ l.token.Spells text (after ++ rest) := by
  induction h with
  | nil offset => exact List.forall_mem_nil _
  | @skip offset gap piece lexemes hgap _ ih =>
    intro l hl
    obtain ⟨before, text, after, rfl, hspan, ht⟩ := ih l hl
    refine ⟨gap ++ before, text, after, by simp only [List.append_assoc], ?_, ht⟩
    simp only [hspan, byteLength_append, Nat.add_assoc]
  | @token offset t text piece lexemes ht _ ih =>
    refine List.forall_mem_cons.mpr ⟨⟨[], text, piece, rfl, rfl, ht⟩, fun l hl => ?_⟩
    obtain ⟨before, text', after, rfl, hspan, ht'⟩ := ih l hl
    refine ⟨text ++ before, text', after, by simp only [List.append_assoc], ?_, ht'⟩
    simp only [hspan, byteLength_append, Nat.add_assoc]

theorem ordered (h : Scanned rest offset piece lexemes) :
    lexemes.Pairwise fun l m => l.span.stop ≤ m.span.start := by
  induction h with
  | nil offset => exact .nil
  | skip _ _ ih => exact ih
  | token ht h ih =>
    refine List.pairwise_cons.mpr ⟨fun m hm => ?_, ih⟩
    obtain ⟨before, text, after, -, hspan, -⟩ := h.spelled m hm
    rw [hspan]
    exact Nat.le_add_right _ _

/-- What stands in front of the first token, or all of the text if there
is none. -/
theorem first_gap (h : Scanned rest offset piece lexemes) :
    ∃ gap after, piece = gap ++ after ∧ Gap (after ++ rest) gap
      ∧ offset + byteLength gap = startOf lexemes (offset + byteLength piece) := by
  induction h with
  | nil offset => exact ⟨[], [], rfl, .nil, rfl⟩
  | @skip offset front piece lexemes hskip _ ih =>
    obtain ⟨gap, after, rfl, hgap, hstart⟩ := ih
    refine ⟨front ++ gap, after, (List.append_assoc ..).symm, .cons ?_ hgap, ?_⟩
    · rwa [← List.append_assoc]
    · simp only [byteLength_append, Nat.add_assoc] at hstart ⊢
      exact hstart
  | @token offset t text piece lexemes ht _ ih => exact ⟨[], text ++ piece, rfl, .nil, rfl⟩

/-- Between two tokens, and in front of and behind all of them, there is
nothing but what is dropped. -/
theorem gap (h : Scanned rest offset piece lexemes) :
    ∀ front back, lexemes = front ++ back → ∃ before gap after, piece = before ++ gap ++ after
      ∧ Gap (after ++ rest) gap
      ∧ offset + byteLength before = endOf front offset
      ∧ offset + byteLength (before ++ gap) = startOf back (offset + byteLength piece) := by
  intro front
  cases front with
  | nil =>
    rintro back rfl
    obtain ⟨gap, after, hpiece, hgap, hstart⟩ := h.first_gap
    exact ⟨[], gap, after, hpiece, hgap, rfl, hstart⟩
  | cons l front =>
    -- The first piece stands in front of the gap, whatever it is.
    induction h generalizing front l with
    | nil offset => exact nofun
    | @skip offset piece rest' lexemes hskip _ ih =>
      intro back hsplit
      obtain ⟨before, gap, after, rfl, hgap, hend, hstart⟩ := ih l front back hsplit
      refine ⟨piece ++ before, gap, after, by simp only [List.append_assoc], hgap, ?_, ?_⟩
      · rw [byteLength_append, ← Nat.add_assoc, hend, endOf_cons, endOf_cons]
      · simp only [byteLength_append, Nat.add_assoc] at hstart ⊢
        exact hstart
    | @token offset t text piece lexemes ht h ih =>
      intro back hsplit
      obtain ⟨rfl, hlexemes⟩ := List.cons.inj hsplit
      have hbehind : ∃ before gap after, piece = before ++ gap ++ after ∧ Gap (after ++ rest) gap
          ∧ offset + byteLength text + byteLength before = endOf front (offset + byteLength text)
          ∧ offset + byteLength text + byteLength (before ++ gap) =
            startOf back (offset + byteLength text + byteLength piece) := by
        cases front with
        | nil =>
          subst hlexemes
          obtain ⟨gap, after, hpiece, hgap, hstart⟩ := h.first_gap
          exact ⟨[], gap, after, hpiece, hgap, rfl, hstart⟩
        | cons m front =>
          obtain ⟨before, gap, after, hpiece, hgap, hend, hstart⟩ := ih m front back hlexemes
          exact ⟨before, gap, after, hpiece, hgap, hend, hstart⟩
      obtain ⟨before, gap, after, rfl, hgap, hend, hstart⟩ := hbehind
      refine ⟨text ++ before, gap, after, by simp only [List.append_assoc], hgap, ?_, ?_⟩
      · rw [endOf_cons, byteLength_append, ← Nat.add_assoc, hend]
      · simp only [byteLength_append, Nat.add_assoc] at hstart ⊢
        exact hstart

end Scanned

/-! ## The tokens of a source -/

/-- A source is cut into tokens, each as long as it can be, and into what
is dropped between them. -/
structure CutInto (source : String) (lexemes : List Lexeme) : Prop where
  /-- The span of a token is that of some characters of the source, and
  these spell it in front of what follows. -/
  spelled : ∀ l ∈ lexemes, ∃ before text after, source.toList = before ++ text ++ after
    ∧ l.span = ⟨byteLength before, byteLength (before ++ text)⟩ ∧ l.token.Spells text after
  bounds : ∀ l ∈ lexemes, l.span.start < l.span.stop ∧ l.span.stop ≤ source.utf8ByteSize
  ordered : lexemes.Pairwise fun l m => l.span.stop ≤ m.span.start
  /-- From the end of a token to the start of the next, and likewise in
  front of the first and behind the last, all is dropped. -/
  gap : ∀ front back, lexemes = front ++ back → ∃ before gap after,
    source.toList = before ++ gap ++ after ∧ Gap after gap
    ∧ byteLength before = endOf front 0
    ∧ byteLength (before ++ gap) = startOf back source.utf8ByteSize

/-- The source can be cut up to the place of a fault, where it goes on
with a number that is too large or with a character that begins nothing. -/
def FailsAt (source : String) (fault : Fault) : Prop :=
  ∃ before text after, source.toList = before ++ text ++ after
    ∧ fault.span = ⟨byteLength before, byteLength (before ++ text)⟩
    ∧ (∃ lexemes, scan (String.ofList before) = .ok lexemes)
    ∧ ((fault.cause.code.text = "E020" ∧ fault.cause = .literalTooLarge (String.ofList text)
        ∧ text ≠ [] ∧ (∀ d ∈ text, d.isDigit = true)
        ∧ StopsAt Char.isDigit before.reverse ∧ StopsAt Char.isDigit after
        ∧ 4294967295 < Nat.ofDigitChars 10 text 0)
      ∨ ∃ c, fault.cause.code.text = "E001" ∧ fault.cause = .strayCharacter c ∧ text = [c]
        ∧ c ≠ '\n' ∧ isBlank c = false ∧ c.isDigit = false ∧ isWordStart c = false
        ∧ (c = '/' → after.head? ≠ some '/'))

theorem cutInto_of_scanned {source : String} {lexemes : List Lexeme}
    (h : Scanned [] 0 source.toList lexemes) : CutInto source lexemes where
  spelled l hl := by
    obtain ⟨before, text, after, hsource, hspan, ht⟩ := h.spelled l hl
    rw [Nat.zero_add, Nat.zero_add] at hspan
    rw [List.append_nil] at ht
    exact ⟨before, text, after, hsource, hspan, ht⟩
  bounds l hl := by
    obtain ⟨before, text, after, hsource, hspan, ht⟩ := h.spelled l hl
    have hpos := byteLength_pos ht.ne_nil
    rw [← byteLength_toList, hsource, hspan]
    simp only [byteLength_append]
    omega
  ordered := h.ordered
  gap front back hsplit := by
    obtain ⟨before, gap, after, hsource, hgap, hend, hstart⟩ := h.gap front back hsplit
    rw [List.append_nil] at hgap
    rw [byteLength_toList] at hstart
    simp only [Nat.zero_add] at hend hstart
    exact ⟨before, gap, after, hsource, hgap, hend, hstart⟩

/-- A source is scanned into its tokens, each as long as it can be, or else
the fault lies where no token begins. -/
theorem scan_maximal_munch (source : String) :
    match scan source with
    | .ok lexemes => CutInto source lexemes
    | .error fault => FailsAt source fault := by
  cases h : scan source with
  | ok lexemes => exact cutInto_of_scanned (scanFrom_eq_ok_iff.mp h)
  | error fault =>
    obtain ⟨before, rest, lexemes, hsource, hbefore, hstuck⟩ := scanFrom_eq_error_iff.mp h
    have hfront : scan (String.ofList before) = .ok lexemes := by
      rw [scan, String.toList_ofList]
      exact (hbefore.before_lineEnd (by rintro c ⟨⟩)).scans.whole
    rw [Nat.zero_add] at hstuck
    cases hstuck with
    | @number digits after hne hdigits hafter hvalue =>
      obtain ⟨d, ds, rfl⟩ := List.exists_cons_of_ne_nil hne
      have hwhole := hbefore.last_not_digit (hdigits d (List.mem_cons_self ..))
      refine ⟨before, d :: ds, after, by rw [hsource, List.append_assoc],
        by rw [byteLength_append], ⟨lexemes, hfront⟩, .inl ⟨rfl, rfl, hne, hdigits, hwhole, hafter,
          Nat.lt_of_lt_of_le (by decide) hvalue⟩⟩
    | @character c after hline hblank hdigit hword hslash =>
      exact ⟨before, [c], after, by rw [hsource, List.append_assoc]; rfl,
        by rw [byteLength_append], ⟨lexemes, hfront⟩,
        .inr ⟨c, rfl, rfl, rfl, hline, hblank, hdigit, hword, hslash⟩⟩

end HackVm
