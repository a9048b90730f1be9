import HackVm.Scan

/-!
# Scanning piece by piece

A token is as long as it can be, so what a piece of text is scanned into
depends on the text behind it, but on no more than its first character.
`Scans` says that a piece in front of some rest is scanned by itself, and
leaves the rest to be scanned as if nothing stood before it. Pieces of
which this is true can be put together (`Scans.append`), and so a text is
scanned by cutting it into its words, its numbers and what stands between
them.
-/

namespace HackVm

/-- In front of the rest, the piece is scanned by itself. -/
def Scans (offset : Nat) (piece : List Char) (lexemes : List Lexeme) (rest : List Char) : Prop :=
  scanFrom offset (piece ++ rest) =
    (scanFrom (offset + byteLength piece) rest).map (lexemes ++ ·)

section Scans

variable {offset : Nat} {piece more rest : List Char} {lexemes others : List Lexeme}

theorem Scans.append (h : Scans offset piece lexemes (more ++ rest))
    (h' : Scans (offset + byteLength piece) more others rest) :
    Scans offset (piece ++ more) (lexemes ++ others) rest := by
  rw [Scans] at h h' ⊢
  rw [List.append_assoc, h, h', byteLength_append, Nat.add_assoc]
  cases scanFrom (offset + (byteLength piece + byteLength more)) rest with
  | error fault => rfl
  | ok ls => exact congrArg Except.ok (List.append_assoc ..).symm

/-- A piece that nothing follows is a whole text. -/
theorem Scans.whole (h : Scans offset piece lexemes []) : scanFrom offset piece = .ok lexemes := by
  rw [Scans, List.append_nil, scanFrom] at h
  rw [h]
  exact congrArg Except.ok (List.append_nil lexemes)

end Scans

/-! ## Line ends and blanks -/

variable (offset : Nat) {rest : List Char}

theorem scans_newline (rest : List Char) :
    Scans offset ['\n'] [⟨.newline, ⟨offset, offset + 1⟩⟩] rest := by
  rw [Scans, List.singleton_append, scanFrom, beq_self_eq_true, if_pos rfl]
  rfl

theorem scans_space (rest : List Char) : Scans offset [' '] [] rest := by
  have hsize : byteLength [' '] = 1 := rfl
  rw [Scans, List.singleton_append, scanFrom, if_neg (by decide), if_pos (by decide), hsize]
  exact (congrFun Except.map_id _).symm

/-! ## Words and numbers -/

/-- The rest does not go on with such a character. -/
def StopsAt (p : Char → Bool) (rest : List Char) : Prop := ∀ c ∈ rest.head?, p c = false

theorem stopsAt_nil (p : Char → Bool) : StopsAt p [] := by
  rintro c ⟨⟩

theorem stopsAt_cons {p : Char → Bool} {c : Char} (h : p c = false) (rest : List Char) :
    StopsAt p (c :: rest) := by
  rintro d ⟨⟩
  exact h

theorem StopsAt.mono {p q : Char → Bool} (hpq : ∀ c, p c = true → q c = true) (h : StopsAt q rest) :
    StopsAt p rest :=
  fun c hc => Bool.eq_false_iff.mpr fun hp => Bool.eq_false_iff.mp (h c hc) (hpq c hp)

theorem takeWhile_of_stopsAt {p : Char → Bool} {piece : List Char} (hpiece : ∀ c ∈ piece, p c = true)
    (hrest : StopsAt p rest) : (piece ++ rest).takeWhile p = piece := by
  rw [List.takeWhile_append_of_pos hpiece]
  cases rest with
  | nil => simp
  | cons c rest => rw [List.takeWhile_cons_of_neg (by simp [hrest c rfl]), List.append_nil]

theorem dropWhile_of_stopsAt {p : Char → Bool} {piece : List Char} (hpiece : ∀ c ∈ piece, p c = true)
    (hrest : StopsAt p rest) : (piece ++ rest).dropWhile p = rest := by
  rw [List.dropWhile_append_of_pos hpiece]
  cases rest with
  | nil => simp
  | cons c rest => rw [List.dropWhile_cons_of_neg (by simp [hrest c rfl])]

/-- A class of characters that holds neither the line end nor a blank. -/
theorem not_blank_of_class {p : Char → Bool}
    (hp : ['\n', ' ', '\t', '\r', Char.ofNat 12].any p = false) {c : Char} (hc : p c = true) :
    (c == '\n') = false ∧ isBlank c = false := by
  have hne : ∀ d ∈ ['\n', ' ', '\t', '\r', Char.ofNat 12], (c == d) = false := by
    intro d hd
    rw [beq_eq_false_iff_ne]
    rintro rfl
    exact List.any_eq_false.mp hp c hd hc
  simp only [List.forall_mem_cons] at hne
  obtain ⟨hline, hspace, htab, hreturn, hfeed, -⟩ := hne
  refine ⟨hline, ?_⟩
  rw [isBlank, hspace, htab, hreturn, hfeed]
  rfl

theorem scans_letters {c : Char} {letters : List Char} (hc : isWordStart c = true)
    (hletters : ∀ d ∈ letters, isWordChar d = true) (hrest : StopsAt isWordChar rest) :
    Scans offset (c :: letters)
      [⟨.word (String.ofList (c :: letters)), ⟨offset, offset + byteLength (c :: letters)⟩⟩] rest := by
  obtain ⟨hline, hblank⟩ := not_blank_of_class (p := isWordStart) rfl hc
  rw [Scans, List.cons_append, scanFrom]
  simp only [hline, hblank, not_isDigit_of_isWordStart hc, hc, Bool.false_eq_true, if_false, if_true,
    takeWhile_of_stopsAt hletters hrest, dropWhile_of_stopsAt hletters hrest]
  rfl

theorem scans_digits {c : Char} {digits : List Char} {value : UInt32} (hc : c.isDigit = true)
    (hdigits : ∀ d ∈ digits, d.isDigit = true) (hvalue : numberOf? (c :: digits) = some value)
    (hrest : StopsAt Char.isDigit rest) :
    Scans offset (c :: digits)
      [⟨.integer value, ⟨offset, offset + byteLength (c :: digits)⟩⟩] rest := by
  obtain ⟨hline, hblank⟩ := not_blank_of_class (p := Char.isDigit) rfl hc
  rw [Scans, List.cons_append, scanFrom]
  simp only [hline, hblank, hc, Bool.false_eq_true, if_false, if_true, hvalue,
    takeWhile_of_stopsAt hdigits hrest, dropWhile_of_stopsAt hdigits hrest]
  rfl

end HackVm
