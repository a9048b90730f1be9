import HackVm.Proofs.Alignment
import HackVm.Proofs.Tokens

/-!
# Sources joined by a line end

A source that stands behind another one is read as it is alone, only at
another place: its spans are moved by the bytes in front of it and its
lines are numbered from where the first source ends.

Two facts carry this. A line end ends every token and every comment, so
the first source is scanned as it is alone (`Scanned.before_lineEnd`). And
neither the scanner nor the reader looks at an offset: moving all spans of
their input moves all spans of their answer, faults included
(`scanFrom_moved`, `mapM_numberedCommand_moved`). For the reader this is
what rows have in common that are read side by side, of which one is the
other, moved (`Reader.mapM_numberedCommand_alike`).
-/

namespace HackVm

/-! ## Moving spans -/

namespace Span

def moved (n : Nat) (s : Span) : Span := ⟨s.start + n, s.stop + n⟩

theorem merge_moved (n : Nat) (s t : Span) : (s.moved n).merge (t.moved n) = (s.merge t).moved n := by
  simp [merge, moved]

end Span

def Lexeme.moved (n : Nat) (l : Lexeme) : Lexeme := ⟨l.token, l.span.moved n⟩

/-- The same mistake some bytes further on. -/
def Fault.moved (n : Nat) (f : Fault) : Fault := ⟨f.cause, f.span.moved n⟩

/-- The same value some bytes and some lines further on. -/
def Located.moved {α : Type} (n k : Nat) (x : Located α) : Located α :=
  ⟨x.node, x.span.moved n, x.line + k⟩

/-- A result with another value, or the same fault further on. -/
def movedResult {α β : Type} (n : Nat) (f : α → β) (x : Except Fault α) : Except Fault β :=
  (x.map f).mapError (Fault.moved n)

/-- What agrees with a result but for its place is the result moved. -/
theorem Agree.eq_moved {α β : Type} {n : Nat} {R : α → β → Prop} {f : α → β} {x : Except Fault α}
    {y : Except Fault β} (h : Agree (fun s t => t = s.moved n) R x y)
    (hR : ∀ a b, R a b → b = f a) : y = movedResult n f x := by
  cases h with
  | ok h => exact congrArg Except.ok (hR _ _ h)
  | error cause h =>
    subst h
    rfl

/-! ## Scanning further on -/

section Scan

variable {offset : Nat} {rest piece : List Char}

theorem Scanned.moved (n : Nat) {lexemes : List Lexeme} (h : Scanned rest offset piece lexemes) :
    Scanned rest (offset + n) piece (lexemes.map (Lexeme.moved n)) := by
  induction h with
  | nil offset => exact .nil (offset + n)
  | skip hgap _ ih =>
    rw [Nat.add_right_comm] at ih
    exact .skip hgap ih
  | token ht _ ih =>
    rw [Nat.add_right_comm] at ih
    have hmoved := Scanned.token ht ih
    rwa [Nat.add_right_comm] at hmoved

theorem Stuck.moved (n : Nat) {fault : Fault} (h : Stuck offset rest fault) :
    Stuck (offset + n) rest (fault.moved n) := by
  cases h with
  | number hne hdigits hafter hvalue =>
    have hmoved : Stuck (offset + n) _ _ := .number hne hdigits hafter hvalue
    rwa [Nat.add_right_comm] at hmoved
  | character hline hblank hdigit hword hslash =>
    have hmoved : Stuck (offset + n) _ _ := .character hline hblank hdigit hword hslash
    rwa [Nat.add_right_comm] at hmoved

theorem scanFrom_moved (n offset : Nat) (text : List Char) :
    scanFrom (offset + n) text = movedResult n (List.map (Lexeme.moved n)) (scanFrom offset text) := by
  cases h : scanFrom offset text with
  | ok lexemes => exact scanFrom_eq_ok_iff.mpr ((scanFrom_eq_ok_iff.mp h).moved n)
  | error fault =>
    obtain ⟨piece, rest, lexemes, htext, hpiece, hstuck⟩ := scanFrom_eq_error_iff.mp h
    have hmoved := hstuck.moved n
    rw [Nat.add_right_comm] at hmoved
    exact scanFrom_eq_error_iff.mpr ⟨piece, rest, _, htext, hpiece.moved n, hmoved⟩

/-- The line end between two sources. -/
def lineEndBehind (s : String) : Lexeme := ⟨.newline, ⟨s.utf8ByteSize, s.utf8ByteSize + 1⟩⟩

theorem scan_join {s : String} {lexemes : List Lexeme} (h : scan s = .ok lexemes) (t : String) :
    scan (s ++ "\n" ++ t) =
      movedResult (s.utf8ByteSize + 1)
        (fun more => lexemes ++ lineEndBehind s :: more.map (Lexeme.moved (s.utf8ByteSize + 1)))
        (scan t) := by
  have hfirst : Scanned ('\n' :: t.toList) 0 s.toList lexemes :=
    (scanFrom_eq_ok_iff.mp h).before_lineEnd (by rintro c ⟨⟩; rfl)
  have hline : Scans (0 + byteLength s.toList) ['\n'] [lineEndBehind s] t.toList := by
    rw [Nat.zero_add, byteLength_toList]
    exact scans_newline s.utf8ByteSize t.toList
  have hboth := hfirst.scans.append hline
  have hmoved := scanFrom_moved (s.utf8ByteSize + 1) 0 t.toList
  have hsize : byteLength ['\n'] = 1 := rfl
  have htext : (s ++ "\n" ++ t).toList = s.toList ++ ['\n'] ++ t.toList := by
    rw [String.toList_append, String.toList_append]
    rfl
  rw [Scans, byteLength_append, byteLength_toList, hsize, hmoved, ← htext] at hboth
  rw [scan, hboth, scan]
  cases scanFrom 0 t.toList with
  | error fault => rfl
  | ok more => exact congrArg Except.ok (List.append_assoc ..)

end Scan

/-! ## Reading further on -/

theorem Span.kept_moved (n : Nat) : Span.Kept fun s t => t = s.moved n where
  merge := by
    rintro s _ t _ rfl rfl
    exact merge_moved n s t
  behind := by
    rintro s _ rfl
    rfl

theorem Located.Alike.eq_moved {α : Type} {n k : Nat} {x x' : Located α}
    (h : x.Alike (fun s t => t = s.moved n) k x') : x' = x.moved n k := by
  obtain ⟨node, span, line⟩ := x'
  obtain ⟨rfl, rfl, rfl⟩ := h
  rfl

theorem alike_moved (n : Nat) (lexemes : List Lexeme) :
    List.Forall₂ (Lexeme.Alike fun s t => t = s.moved n) lexemes (lexemes.map (Lexeme.moved n)) :=
  List.forall₂_map_right_iff.mpr (List.forall₂_same.mpr fun _ _ => ⟨rfl, rfl⟩)

namespace Reader

/-- A line is read as it is further on. -/
theorem lineCommand_moved (n : Nat) {line : List Lexeme} (hline : IsLine line) (hne : line ≠ []) :
    lineCommand (line.map (Lexeme.moved n)) = movedResult n (Located.moved n 0) (lineCommand line) :=
  (lineCommand_alike (Span.kept_moved n) (alike_moved n line) hline hne).eq_moved
    fun _ _ => Located.Alike.eq_moved

theorem length_splitOnP {α : Type} (p : α → Bool) (xs : List α) :
    (xs.splitOnP p).length = xs.countP p + 1 := by
  induction xs with
  | nil => rfl
  | cons x xs ih =>
    rw [List.splitOnP_cons_eq_if_modifyHead, List.countP_cons]
    split
    · rw [List.length_cons, ih]
    · rw [List.length_modifyHead, ih, Nat.add_zero]

/-- The lines of two rows with a line end between them are those of the
one and those of the other. -/
theorem linesFrom_join (m : Nat) (front back : List Lexeme) {e : Lexeme} (he : e.isLineEnd = true) :
    linesFrom m (front ++ e :: back) =
      linesFrom m front ++ linesFrom (m + (front.countP Lexeme.isLineEnd + 1)) back := by
  rw [linesFrom, List.splitOnP_append_cons front back he, List.zipIdx_append, List.filter_append,
    length_splitOnP]
  rfl

/-- A row is read as it is some bytes and some lines further on. -/
theorem mapM_numberedCommand_moved (n k m : Nat) (lexemes : List Lexeme) :
    (linesFrom (m + k) (lexemes.map (Lexeme.moved n))).mapM numberedCommand =
      movedResult n (List.map (Located.moved n k)) ((linesFrom m lexemes).mapM numberedCommand) := by
  refine (mapM_numberedCommand_alike (Span.kept_moved n) (alike_moved n lexemes) m k).eq_moved ?_
  intro xs ys h
  have hmoved := h.imp fun _ _ hx => hx.eq_moved.symm
  rw [← List.forall₂_map_left_iff, List.forall₂_eq_eq_eq] at hmoved
  exact hmoved.symm

end Reader

open Reader

/-! ## Joined sources -/

theorem parse_join_eq {s : String} {cs : List (Located Command)} (h : parse s = .ok cs)
    (t : String) :
    parse (s ++ "\n" ++ t) =
      movedResult (s.utf8ByteSize + 1)
        (fun ds => cs ++ ds.map (Located.moved (s.utf8ByteSize + 1) (s.toList.count '\n' + 1)))
        (parse t) := by
  obtain ⟨lexemes, hscan, hread⟩ := except_bind_ok h
  have hcount := (scanFrom_eq_ok_iff.mp hscan).countP_isLineEnd
  rw [readCommands_eq] at hread
  rw [parse, scan_join hscan, parse]
  cases scan t with
  | error fault => rfl
  | ok more =>
    have hmore := mapM_numberedCommand_moved (s.utf8ByteSize + 1) (s.toList.count '\n' + 1) 1 more
    have hlines := linesFrom_join 1 lexemes (more.map (Lexeme.moved (s.utf8ByteSize + 1)))
      (e := lineEndBehind s) rfl
    rw [hcount] at hlines
    show readCommands (lexemes ++ lineEndBehind s :: more.map (Lexeme.moved (s.utf8ByteSize + 1))) =
      movedResult _ _ (readCommands more)
    rw [readCommands_eq, readCommands_eq, hlines, List.mapM_append, hread, hmore]
    cases (linesFrom 1 more).mapM numberedCommand <;> rfl

/-- Behind a source that can be read and a line end, another one is read
as it is alone: its commands or its fault are the same, but for the bytes
and the lines in front of it. -/
theorem parse_join {s : String} {cs : List (Located Command)} (h : parse s = .ok cs) (t : String) :
    match parse t with
    | .ok ds => parse (s ++ "\n" ++ t) =
        .ok (cs ++ ds.map fun x =>
          ⟨x.node, ⟨x.span.start + (s.utf8ByteSize + 1), x.span.stop + (s.utf8ByteSize + 1)⟩,
            x.line + (s.toList.count '\n' + 1)⟩)
    | .error fault => parse (s ++ "\n" ++ t) =
        .error ⟨fault.cause,
          ⟨fault.span.start + (s.utf8ByteSize + 1), fault.span.stop + (s.utf8ByteSize + 1)⟩⟩ := by
  have hjoin := parse_join_eq h t
  cases ht : parse t with
  | ok ds =>
    rw [ht] at hjoin
    exact hjoin
  | error fault =>
    rw [ht] at hjoin
    exact hjoin

/-- A comment that the first source leaves open ends at the joint, and the
second source fails where it fails alone, 12 bytes further on. -/
theorem parse_join_comment :
    parse "add // open" = .ok [⟨.operate .add, ⟨0, 3⟩, 1⟩]
      ∧ parse "\nneg 1" = .error ⟨.unexpectedOperand (.integer 1) "neg", ⟨5, 6⟩⟩
      ∧ parse ("add // open" ++ "\n" ++ "\nneg 1") =
        .error ⟨.unexpectedOperand (.integer 1) "neg", ⟨17, 18⟩⟩ := by
  have hfirst : parse "add // open" = .ok [⟨.operate .add, ⟨0, 3⟩, 1⟩] := by decide +kernel
  have hsecond : parse "\nneg 1" = .error ⟨.unexpectedOperand (.integer 1) "neg", ⟨5, 6⟩⟩ := by
    decide +kernel
  refine ⟨hfirst, hsecond, ?_⟩
  have hjoin := parse_join hfirst "\nneg 1"
  rw [hsecond] at hjoin
  exact hjoin

end HackVm
