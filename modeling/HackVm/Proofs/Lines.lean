import Mathlib.Data.List.Basic
import HackVm.Reader
import HackVm.Proofs.Results

/-!
# Line by line

A reader inside a line sees nothing but that line: what was passed before
the line, what stands beyond its end and the number of the line neither
change what the reader answers nor get changed by it. This is a frame
property (`Reader.Framed`), which the readers of operands have and which
sequencing keeps, so a command that stands in a row of tokens reads as it
does alone (`Reader.runAt_command`).

A row of tokens is therefore read one line after the other, each by
itself: `readCommands_eq` gives the commands of a row as those of its
nonempty lines, up to the first line that fails.
-/

namespace HackVm

/-! ## Cursors inside a line -/

/-- What stands beyond a line: nothing, or a line end and more. -/
def LineBreak (beyond : List Lexeme) : Prop := ∀ l ∈ beyond.head?, l.isLineEnd = true

theorem lineBreak_nil : LineBreak [] := by
  intro l h
  cases h

/-- What stands in front of a line: nothing, or a line end and more. -/
def LineStart (before : List Lexeme) : Prop := ∀ l ∈ before.getLast?, l.isLineEnd = true

theorem lineStart_nil : LineStart [] := by
  intro l h
  cases h

theorem lineStart_append_cons {l : Lexeme} (hl : l.isLineEnd = true) {before : List Lexeme}
    (h : LineStart before) (front : List Lexeme) : LineStart (front ++ l :: before) := by
  intro x hx
  rw [List.getLast?_append_cons, List.getLast?_cons, Option.mem_some_iff] at hx
  subst hx
  cases hlast : before.getLast? with
  | none => exact hl
  | some y => exact h y hlast

/-- A row of tokens without line ends. -/
def IsLine (line : List Lexeme) : Prop := ∀ l ∈ line, l.isLineEnd = false

theorem isLine_cons {l : Lexeme} {line : List Lexeme} :
    IsLine (l :: line) ↔ l.isLineEnd = false ∧ IsLine line :=
  List.forall_mem_cons

namespace Cursor

/-- The first token of the line has been passed, and the rest of the line
is all that is ahead. -/
structure InLine (c : Cursor) : Prop where
  passed : c.passed ≠ []
  ahead : IsLine c.ahead

/-- The same place in a longer row, of which the line is number `n`. -/
def within (before beyond : List Lexeme) (n : Nat) (c : Cursor) : Cursor :=
  ⟨c.passed ++ before, c.ahead ++ beyond, n⟩

variable {c : Cursor} {before beyond : List Lexeme} {n : Nat}

theorem previousSpan_within (hc : c.InLine) :
    (c.within before beyond n).previousSpan = c.previousSpan := by
  obtain ⟨_ | ⟨p, ps⟩, ahead, m⟩ := c
  · exact absurd rfl hc.passed
  · rfl

theorem missing_within (hc : c.InLine) (before beyond : List Lexeme) (n : Nat)
    (what after : String) :
    (c.within before beyond n).missing what after = c.missing what after := by
  rw [missing, previousSpan_within hc, missing]

end Cursor

/-! ## Readers inside a line -/

namespace Reader

/-- A reader that stays inside a line, and that nothing around it reaches. -/
def Framed {α : Type} (r : Reader α) : Prop :=
  ∀ c, c.InLine → (r.runAt c).2.InLine ∧
    ∀ before beyond n, LineBreak beyond →
      r.runAt (c.within before beyond n) =
        ((r.runAt c).1, (r.runAt c).2.within before beyond n)

theorem Framed.pure {α : Type} (a : α) : Framed (Pure.pure a : Reader α) :=
  fun _ hc => ⟨hc, fun _ _ _ _ => rfl⟩

theorem Framed.throw {α : Type} (e : Fault) : Framed (MonadExcept.throw e : Reader α) :=
  fun _ hc => ⟨hc, fun _ _ _ _ => rfl⟩

theorem Framed.bind {α β : Type} {r : Reader α} {f : α → Reader β}
    (hr : Framed r) (hf : ∀ a, Framed (f a)) : Framed (r >>= f) := by
  intro c hc
  obtain ⟨hin, hrun⟩ := hr c hc
  rcases hd : r.runAt c with ⟨e | a, d⟩
  · rw [hd] at hin hrun
    refine ⟨by rw [runAt_bind, hd]; exact hin, fun before beyond n hb => ?_⟩
    rw [runAt_bind, runAt_bind, hrun before beyond n hb, hd]
  · rw [hd] at hin hrun
    obtain ⟨hin', hrun'⟩ := hf a d hin
    refine ⟨by rw [runAt_bind, hd]; exact hin', fun before beyond n hb => ?_⟩
    rw [runAt_bind, runAt_bind, hrun before beyond n hb, hd]
    exact hrun' before beyond n hb

/-- A reader may look at the cursor for the span of the token just passed. -/
theorem Framed.get_bind {α : Type} {f : Span → Reader α} (hf : ∀ s, Framed (f s)) :
    Framed (MonadState.get >>= fun c : Cursor => f c.previousSpan) := by
  intro c hc
  obtain ⟨hin, hrun⟩ := hf c.previousSpan c hc
  refine ⟨hin, fun before beyond n hb => ?_⟩
  rw [runAt_bind, runAt_bind, runAt_get, runAt_get]
  simp only [Cursor.previousSpan_within hc]
  exact hrun before beyond n hb

theorem framed_operand {α : Type} (what after : String) (value : Lexeme → Except Fault α) :
    Framed (operand what after value) := by
  rintro ⟨passed, ahead, m⟩ hc
  cases ahead with
  | nil =>
    refine ⟨hc, fun before beyond n hb => ?_⟩
    have hmissing := Cursor.missing_within hc before beyond n what after
    cases beyond with
    | nil =>
      simp only [operand, runAt_ofFun, Cursor.within, List.append_nil] at hmissing ⊢
      rw [hmissing]
    | cons e rest =>
      have he : e.isLineEnd = true := hb e rfl
      simp only [operand, runAt_ofFun, Cursor.within, List.nil_append, he, if_true] at hmissing ⊢
      rw [hmissing]
  | cons l rest =>
    obtain ⟨hl, hrest⟩ := isLine_cons.mp hc.ahead
    have hstep : (operand what after value).runAt ⟨passed, l :: rest, m⟩ =
        (value l, ⟨l :: passed, rest, m⟩) := by
      simp [operand, Cursor.advance, hl]
    rw [hstep]
    refine ⟨⟨List.cons_ne_nil _ _, hrest⟩, fun before beyond n _ => ?_⟩
    simp [operand, Cursor.advance, Cursor.within, hl]

theorem framed_operands (w : String) (start : Span) (v : Verb) : Framed (operands w start v) :=
  operands_induction .pure .throw .bind .get_bind framed_operand w start v

/-! ## One command, one line -/

/-- The command of a line that is read alone. -/
def lineCommand (line : List Lexeme) : Except Fault (Located Command) :=
  (command.runAt (Cursor.ofLexemes line)).1

/-- What a command does behind the token that it begins with. -/
theorem runAt_command_cons (l : Lexeme) (c : Cursor) (rest : List Lexeme) (h : c.ahead = l :: rest) :
    command.runAt c =
      match verbOf l with
      | .error e => (.error e, c.advance)
      | .ok (w, v) =>
        match (operands w l.span v).runAt c.advance with
        | (.error e, d) => (.error e, d)
        | (.ok node, d) =>
          match (lineEnd w).runAt d with
          | (.error e, d') => (.error e, d')
          | (.ok (), d') => (.ok ⟨node, l.span.merge d.previousSpan, c.line⟩, d') := by
  have hfirst : first.runAt c = (.ok l, c.advance) := by
    simp only [first, runAt_ofFun, h]
  rw [command, runAt_bind, runAt_get]
  simp only
  rw [runAt_bind, hfirst]
  simp only
  cases verbOf l with
  | error e => rfl
  | ok wv =>
    obtain ⟨w, v⟩ := wv
    simp only
    rw [runAt_bind]
    rcases (operands w l.span v).runAt c.advance with ⟨e | node, d⟩
    · rfl
    · simp only
      rw [runAt_bind, runAt_get]
      simp only
      rw [runAt_bind]
      rcases (lineEnd w).runAt d with ⟨e | _, d'⟩ <;> rfl

theorem runAt_lineEnd_within {d : Cursor} (hd : IsLine d.ahead) {beyond : List Lexeme}
    (hbeyond : LineBreak beyond) (before : List Lexeme) (n : Nat) (after : String) :
    (lineEnd after).runAt (d.within before beyond n) =
      match d.ahead with
      | [] => (.ok (), (d.within before beyond n).advance)
      | x :: _ => (.error ⟨.unexpectedOperand x.token after, x.span⟩, d.within before beyond n) := by
  obtain ⟨passed, _ | ⟨x, rest⟩, m⟩ := d
  · cases beyond with
    | nil => rfl
    | cons e beyond =>
      have he : e.isLineEnd = true := hbeyond e rfl
      simp [lineEnd, Cursor.within, he]
  · have hx := (isLine_cons.mp hd).1
    simp [lineEnd, Cursor.within, hx]

/-- A command in a row of tokens reads as its line does alone, and leaves
the cursor behind the end of its line. -/
theorem runAt_command {l : Lexeme} {line : List Lexeme} (hline : IsLine (l :: line))
    {beyond : List Lexeme} (hbeyond : LineBreak beyond) (before : List Lexeme) (n : Nat) :
    (command.runAt ⟨before, l :: line ++ beyond, n⟩).1 =
        (lineCommand (l :: line)).map ({ · with line := n })
      ∧ ∀ x d, command.runAt ⟨before, l :: line ++ beyond, n⟩ = (.ok x, d) →
        ∃ passed, d = (⟨passed, beyond, n⟩ : Cursor).advance := by
  obtain ⟨hl, hrest⟩ := isLine_cons.mp hline
  -- Behind its first token the line looks the same in the row and alone.
  let c : Cursor := ⟨[l], line, 1⟩
  have hc : c.InLine := ⟨List.cons_ne_nil _ _, hrest⟩
  have hrow : (⟨before, l :: line ++ beyond, n⟩ : Cursor).advance = c.within before beyond n := by
    simp [Cursor.advance, Cursor.within, hl, c]
  have halone : (Cursor.ofLexemes (l :: line)).advance = c.within [] [] 1 := by
    simp [Cursor.advance, Cursor.ofLexemes, Cursor.within, hl, c]
  rw [lineCommand, runAt_command_cons l _ _ rfl, runAt_command_cons l (Cursor.ofLexemes _) _ rfl,
    hrow, halone]
  cases verbOf l with
  | error e =>
    refine ⟨rfl, fun x d h => ?_⟩
    cases h
  | ok wv =>
    obtain ⟨w, v⟩ := wv
    obtain ⟨hd, hrun⟩ := framed_operands w l.span v c hc
    simp only
    rw [hrun before beyond n hbeyond, hrun [] [] 1 lineBreak_nil]
    rcases hnode : (operands w l.span v).runAt c with ⟨e | node, d⟩
    · refine ⟨rfl, fun x d h => ?_⟩
      cases h
    · replace hd : d.InLine := by
        rw [hnode] at hd
        exact hd
      simp only
      rw [runAt_lineEnd_within hd.ahead hbeyond, runAt_lineEnd_within hd.ahead lineBreak_nil,
        Cursor.previousSpan_within hd, Cursor.previousSpan_within hd]
      obtain ⟨passed, _ | ⟨x, rest⟩, m⟩ := d
      · refine ⟨rfl, fun x d h => ?_⟩
        cases h
        exact ⟨_, rfl⟩
      · refine ⟨rfl, fun y d h => ?_⟩
        cases h

/-! ## All lines -/

/-- The nonempty lines of a row of tokens, each with its number. -/
def linesFrom (n : Nat) (lexemes : List Lexeme) : List (List Lexeme × Nat) :=
  ((lexemes.splitOnP Lexeme.isLineEnd).zipIdx n).filter fun x => !x.1.isEmpty

theorem linesFrom_lineEnd {l : Lexeme} (hl : l.isLineEnd = true) (n : Nat) (rest : List Lexeme) :
    linesFrom n (l :: rest) = linesFrom (n + 1) rest := by
  rw [linesFrom, List.splitOnP_cons_eq_if_modifyHead, if_pos hl]
  rfl

theorem linesFrom_append {l : Lexeme} {line beyond : List Lexeme} (hline : IsLine (l :: line))
    (hbeyond : LineBreak beyond) (n : Nat) :
    linesFrom n (l :: (line ++ beyond)) = (l :: line, n) :: linesFrom (n + 1) beyond.tail := by
  rw [← List.cons_append]
  cases beyond with
  | nil =>
    rw [List.append_nil, linesFrom, List.splitOnP_eq_singleton hline]
    rfl
  | cons e rest =>
    have he : e.isLineEnd = true := hbeyond e rfl
    rw [linesFrom, List.splitOnP_append_cons_of_forall_mem hline e he]
    rfl

theorem linesFrom_advance {beyond : List Lexeme} (hbeyond : LineBreak beyond) (passed : List Lexeme)
    (n : Nat) : linesFrom (⟨passed, beyond, n⟩ : Cursor).advance.line
      (⟨passed, beyond, n⟩ : Cursor).advance.ahead = linesFrom (n + 1) beyond.tail := by
  cases beyond with
  | nil => rfl
  | cons e rest => simp [Cursor.advance, hbeyond e rfl]

/-- The lines of a row are its pieces between line ends, the empty ones
left out. -/
theorem exists_mem_linesFrom {line lexemes : List Lexeme} {n : Nat} :
    (∃ m, (line, m) ∈ linesFrom n lexemes) ↔
      line ∈ lexemes.splitOnP Lexeme.isLineEnd ∧ line ≠ [] := by
  rw [linesFrom]
  generalize lexemes.splitOnP Lexeme.isLineEnd = pieces
  have hpieces : line ∈ pieces ↔ ∃ m, (line, m) ∈ pieces.zipIdx n := by
    conv_lhs => rw [← List.zipIdx_map_fst n pieces]
    simp only [List.mem_map, Prod.exists, exists_and_right, exists_eq_right]
  simp [hpieces]

theorem linesFrom_line {line : List Lexeme} (hline : IsLine line) (hne : line ≠ []) (n : Nat) :
    linesFrom n line = [(line, n)] := by
  obtain ⟨l, rest, rfl⟩ := List.exists_cons_of_ne_nil hne
  have happend := linesFrom_append hline lineBreak_nil n
  rwa [List.append_nil] at happend

theorem linesFrom_skipLineEnds (c : Cursor) :
    linesFrom c.skipLineEnds.line c.skipLineEnds.ahead = linesFrom c.line c.ahead := by
  obtain ⟨passed, ahead, n⟩ := c
  simp only [Cursor.skipLineEnds]
  induction ahead generalizing n with
  | nil => rfl
  | cons l rest ih =>
    cases hl : l.isLineEnd with
    | false => simp [hl]
    | true =>
      rw [linesFrom_lineEnd hl, ← ih (n + 1)]
      simp [hl, ← Nat.add_assoc, Nat.add_right_comm]

/-- A row that begins inside a line is the rest of that line, and what
stands beyond it. -/
theorem exists_line (lexemes : List Lexeme) :
    ∃ line beyond, lexemes = line ++ beyond ∧ IsLine line ∧ LineBreak beyond := by
  refine ⟨lexemes.takeWhile fun l => !l.isLineEnd, lexemes.dropWhile fun l => !l.isLineEnd,
    List.takeWhile_append_dropWhile.symm, fun l hl => ?_, fun l hl => ?_⟩
  · have hnot := List.all_takeWhile (p := fun l : Lexeme => !l.isLineEnd) (l := lexemes)
    simpa using List.all_eq_true.mp hnot l hl
  · have hnot := List.head?_dropWhile_not (fun l : Lexeme => !l.isLineEnd) lexemes
    rw [Option.mem_def.mp hl] at hnot
    simpa using hnot

/-- A line stands between line ends, and its number counts those in front
of it. -/
theorem mem_linesFrom {line lexemes : List Lexeme} {m n : Nat} (h : (line, n) ∈ linesFrom m lexemes) :
    IsLine line ∧ ∃ before beyond, lexemes = before ++ line ++ beyond ∧ LineStart before
      ∧ LineBreak beyond ∧ n = m + before.countP Lexeme.isLineEnd := by
  cases lexemes with
  | nil => cases h
  | cons l rest =>
    -- The row begins with an empty line, or else with a line to be found.
    cases hl : l.isLineEnd with
    | true =>
      rw [linesFrom_lineEnd hl] at h
      obtain ⟨hline, before, beyond, rfl, hbefore, hbeyond, rfl⟩ := mem_linesFrom h
      refine ⟨hline, l :: before, beyond, rfl, lineStart_append_cons hl hbefore [], hbeyond, ?_⟩
      rw [List.countP_cons_of_pos hl, Nat.add_right_comm, Nat.add_assoc]
    | false =>
      obtain ⟨front, beyond, rfl, hfront, hbeyond⟩ := exists_line rest
      have hfirst : IsLine (l :: front) := isLine_cons.mpr ⟨hl, hfront⟩
      rw [linesFrom_append hfirst hbeyond, List.mem_cons] at h
      rcases h with h | h
      · cases h
        exact ⟨hfirst, [], beyond, rfl, lineStart_nil, hbeyond, rfl⟩
      · cases beyond with
        | nil => cases h
        | cons e rest =>
          have he : e.isLineEnd = true := hbeyond e rfl
          obtain ⟨hline, before, beyond, rfl, hbefore, hbeyond, rfl⟩ := mem_linesFrom h
          refine ⟨hline, l :: front ++ e :: before, beyond, by simp,
            lineStart_append_cons he hbefore _, hbeyond, ?_⟩
          have hzero : (l :: front).countP Lexeme.isLineEnd = 0 :=
            List.countP_eq_zero.mpr fun x hx => by simp [hfirst x hx]
          rw [List.countP_append, hzero, List.countP_cons_of_pos he]
          omega
termination_by lexemes.length

/-- The command of a line alone, at its number in the row. -/
def numberedCommand (line : List Lexeme × Nat) : Except Fault (Located Command) :=
  (lineCommand line.1).map ({ · with line := line.2 })

theorem commands_eq (c : Cursor) :
    (commands c).1 = (linesFrom c.line c.ahead).mapM numberedCommand := by
  -- As `commands` does, go on from behind the line ends that come first.
  rw [commands, ← linesFrom_skipLineEnds c]
  have hle := c.length_ahead_skipLineEnds_le
  have hstart : ∀ l ∈ c.skipLineEnds.ahead.head?, l.isLineEnd = false := by
    intro l hl
    have hnot := List.head?_dropWhile_not Lexeme.isLineEnd c.ahead
    rw [Option.mem_def] at hl
    simp only [Cursor.skipLineEnds] at hl
    rw [hl] at hnot
    exact hnot
  generalize c.skipLineEnds = d at hle hstart ⊢
  obtain ⟨before, ahead, n⟩ := d
  cases ahead with
  | nil => rfl
  | cons l rest =>
    obtain ⟨line, beyond, rfl, hline, hbeyond⟩ := exists_line rest
    have hl : IsLine (l :: line) := isLine_cons.mpr ⟨hstart l rfl, hline⟩
    obtain ⟨hread, hnext⟩ := runAt_command hl hbeyond before n
    rw [List.cons_append] at hread hnext
    simp only [Cursor.atEnd, List.isEmpty_cons, Bool.false_eq_true, if_false]
    rw [linesFrom_append hl hbeyond, List.mapM_cons, numberedCommand, ← hread]
    split
    · rename_i e d hfail
      rw [hfail]
      rfl
    · rename_i x d hok
      obtain ⟨passed, rfl⟩ := hnext x d hok
      rw [hok]
      have ih := commands_eq (⟨passed, beyond, n⟩ : Cursor).advance
      rw [linesFrom_advance hbeyond] at ih
      rw [← ih]
      rcases commands (⟨passed, beyond, n⟩ : Cursor).advance with ⟨e | xs, d'⟩ <;> rfl
termination_by c.ahead.length
decreasing_by
  have hadvance := (⟨passed, beyond, n⟩ : Cursor).length_ahead_advance_le
  simp only [List.length_cons, List.length_append] at hle hadvance
  omega

end Reader

open Reader

/-- A row of tokens is read line by line. -/
theorem readCommands_eq (lexemes : List Lexeme) :
    readCommands lexemes = (linesFrom 1 lexemes).mapM numberedCommand :=
  commands_eq (Cursor.ofLexemes lexemes)

theorem readCommands_line {line : List Lexeme} (hline : IsLine line) (hne : line ≠ []) :
    readCommands line = (numberedCommand (line, 1)).map ([·]) := by
  rw [readCommands_eq, linesFrom_line hline hne, List.mapM_cons]
  cases numberedCommand (line, 1) <;> rfl

end HackVm
