import HackVm.Proofs.Lines

/-!
# Steps of a cursor

Whatever is asked of a cursor, it passes some of the tokens ahead, one
after the other, and counts the line ends among them (`Cursor.Passes`).
This holds of each step whether it succeeds or fails (`Step.passes`), and
so, by induction, wherever a row of steps leads (`Step.tracks`).

A command that is read passes its line and the end of it. One that is not
read passes tokens of its line only, or the line end that stands in its
place (`Reader.command_passes`). As each command that is read passes a
token at least, reading all of them comes to an end: it is a finite row of
calls, no more of them than there are tokens (`Reader.exists_reading`).
-/

namespace HackVm

/-! ## Passing tokens -/

namespace Cursor

variable {c d e : Cursor} {s t : List Lexeme}

/-- The cursor has passed some tokens, and has counted their line ends. -/
structure Passes (c : Cursor) (tokens : List Lexeme) (d : Cursor) : Prop where
  ahead : c.ahead = tokens ++ d.ahead
  passed : d.passed = tokens.reverse ++ c.passed
  line : d.line = c.line + tokens.countP Lexeme.isLineEnd

theorem Passes.refl (c : Cursor) : c.Passes [] c := ⟨rfl, rfl, rfl⟩

theorem Passes.trans (h : c.Passes s d) (h' : d.Passes t e) : c.Passes (s ++ t) e where
  ahead := by rw [h.ahead, h'.ahead, List.append_assoc]
  passed := by rw [h'.passed, h.passed, List.reverse_append, List.append_assoc]
  line := by rw [h'.line, h.line, List.countP_append, Nat.add_assoc]

theorem Passes.position (h : c.Passes s d) : d.position = c.position + s.length := by
  rw [Cursor.position, h.passed, List.length_append, List.length_reverse, Nat.add_comm]
  rfl

theorem advance_passes (c : Cursor) : c.Passes (c.ahead.take 1) c.advance := by
  obtain ⟨passed, _ | ⟨l, rest⟩, n⟩ := c
  · exact .refl _
  · refine ⟨rfl, rfl, ?_⟩
    cases hl : l.isLineEnd <;> simp [advance, hl]

theorem skipLineEnds_passes (c : Cursor) :
    c.Passes (c.ahead.takeWhile Lexeme.isLineEnd) c.skipLineEnds := by
  refine ⟨List.takeWhile_append_dropWhile.symm, rfl, ?_⟩
  rw [List.countP_eq_length.mpr (List.all_eq_true.mp List.all_takeWhile)]
  rfl

/-- The tokens ahead up to the first line end, and this line end. -/
def lineAhead (c : Cursor) : List Lexeme :=
  c.ahead.takeWhile (fun l => !l.isLineEnd) ++ (c.ahead.dropWhile fun l => !l.isLineEnd).take 1

theorem lineAhead_eq {line beyond : List Lexeme} (hline : IsLine line) (hbeyond : LineBreak beyond)
    (h : c.ahead = line ++ beyond) : c.lineAhead = line ++ beyond.take 1 := by
  have hall : ∀ l ∈ line, (!l.isLineEnd) = true := fun l hl => by rw [hline l hl]; rfl
  rw [lineAhead, h, List.takeWhile_append_of_pos hall, List.dropWhile_append_of_pos hall]
  cases beyond with
  | nil => simp
  | cons l rest => simp [hbeyond l rfl]

end Cursor

/-! ## Readers pass tokens -/

namespace Reader

variable {α β : Type}

/-- Whether it succeeds or not, the reader passes no line end. -/
def InLine (r : Reader α) : Prop :=
  ∀ c : Cursor, ∃ tokens, IsLine tokens ∧ c.Passes tokens (r.runAt c).2

theorem InLine.pure (a : α) : InLine (Pure.pure a : Reader α) :=
  fun c => ⟨[], List.forall_mem_nil _, .refl c⟩

theorem InLine.throw (e : Fault) : InLine (MonadExcept.throw e : Reader α) :=
  fun c => ⟨[], List.forall_mem_nil _, .refl c⟩

theorem InLine.get : InLine (MonadState.get : Reader Cursor) :=
  fun c => ⟨[], List.forall_mem_nil _, .refl c⟩

theorem InLine.bind {r : Reader α} {f : α → Reader β} (hr : InLine r) (hf : ∀ a, InLine (f a)) :
    InLine (r >>= f) := by
  intro c
  obtain ⟨s, hs, hpass⟩ := hr c
  rw [runAt_bind]
  rcases hd : r.runAt c with ⟨e | a, d⟩
  · rw [hd] at hpass
    exact ⟨s, hs, hpass⟩
  · rw [hd] at hpass
    obtain ⟨t, ht, hpass'⟩ := hf a d
    exact ⟨s ++ t, List.forall_mem_append.mpr ⟨hs, ht⟩, hpass.trans hpass'⟩

theorem inLine_operand (what after : String) (value : Lexeme → Except Fault α) :
    InLine (operand what after value) := by
  intro c
  rw [operand, runAt_ofFun]
  have hadvance := c.advance_passes
  split
  · exact ⟨[], List.forall_mem_nil _, .refl c⟩
  · rename_i l rest hahead
    split
    · exact ⟨[], List.forall_mem_nil _, .refl c⟩
    · rename_i hl
      rw [hahead] at hadvance
      exact ⟨[l], List.forall_mem_singleton.mpr (Bool.eq_false_iff.mpr hl), hadvance⟩

theorem inLine_operands (w : String) (start : Span) (v : Verb) : InLine (operands w start v) :=
  operands_induction .pure .throw .bind (fun hf => InLine.get.bind fun _ => hf _)
    inLine_operand w start v

theorem lineEnd_passes (after : String) (c : Cursor) :
    match (lineEnd after).runAt c with
    | (.ok (), d) => LineBreak c.ahead ∧ c.Passes (c.ahead.take 1) d
    | (.error _, d) => d = c := by
  rw [lineEnd, runAt_ofFun]
  obtain ⟨passed, _ | ⟨l, rest⟩, n⟩ := c
  · exact ⟨lineBreak_nil, .refl _⟩
  · cases hl : l.isLineEnd with
    | true =>
      simp only [hl, if_true]
      refine ⟨fun x hx => ?_, Cursor.advance_passes _⟩
      cases hx
      exact hl
    | false => simp only [hl, Bool.false_eq_true, if_false]

theorem not_isLineEnd_of_verbOf {l : Lexeme} {wv : String × Verb} (h : verbOf l = .ok wv) :
    l.isLineEnd = false := by
  obtain ⟨token, span⟩ := l
  cases token with
  | newline => cases h
  | integer => rfl
  | word => rfl

/-- A command that is read takes the tokens of its line and the end of the
line. One that is not read takes tokens of its line only, or the line end
that stands in its place. -/
def CommandPasses (c : Cursor) : Except Fault (Located Command) → Cursor → Prop
  | .ok _, d => c.Passes c.lineAhead d
  | .error _, d => ∃ tokens, c.Passes tokens d
      ∧ if c.ahead.head?.any Lexeme.isLineEnd then tokens = c.ahead.take 1 else IsLine tokens

/-- A command that does not begin with a line end fails in its line. -/
theorem commandPasses_error {c d : Cursor} {tokens : List Lexeme}
    (hhead : c.ahead.head?.any Lexeme.isLineEnd = false) (htokens : IsLine tokens)
    (hpass : c.Passes tokens d) (e : Fault) : CommandPasses c (.error e) d := by
  refine ⟨tokens, hpass, ?_⟩
  rw [hhead, if_neg Bool.false_ne_true]
  exact htokens

theorem runAt_command_nil {c : Cursor} (h : c.ahead = []) :
    command.runAt c = (.error (c.missing "a command" "end of file"), c) := by
  simp only [command, runAt_bind, runAt_get, first, runAt_ofFun, h]

theorem command_passes (c : Cursor) :
    CommandPasses c (command.runAt c).1 (command.runAt c).2 := by
  cases hahead : c.ahead with
  | nil =>
    rw [runAt_command_nil hahead]
    exact commandPasses_error (by rw [hahead]; rfl) (List.forall_mem_nil _) (.refl c) _
  | cons l rest =>
    have hadvance := c.advance_passes
    rw [hahead] at hadvance
    have hhead : c.ahead.head?.any Lexeme.isLineEnd = l.isLineEnd := by rw [hahead]; rfl
    rw [runAt_command_cons l c rest hahead]
    cases hverb : verbOf l with
    | error e =>
      cases hl : l.isLineEnd with
      | true =>
        refine ⟨[l], hadvance, ?_⟩
        rw [hhead, hl, if_pos rfl, hahead]
        rfl
      | false =>
        exact commandPasses_error (hhead.trans hl) (List.forall_mem_singleton.mpr hl) hadvance e
    | ok wv =>
      obtain ⟨w, v⟩ := wv
      have hl := not_isLineEnd_of_verbOf hverb
      obtain ⟨tokens, htokens, hoperands⟩ := inLine_operands w l.span v c.advance
      have hline : IsLine (l :: tokens) := isLine_cons.mpr ⟨hl, htokens⟩
      have hpass := hadvance.trans hoperands
      rcases hnode : (operands w l.span v).runAt c.advance with ⟨e | node, d⟩
      · rw [hnode] at hpass
        simp only [hnode]
        exact commandPasses_error (hhead.trans hl) hline hpass e
      · rw [hnode] at hpass
        simp only [hnode]
        have hend := lineEnd_passes w d
        rcases hlast : (lineEnd w).runAt d with ⟨e | u, d'⟩
        · rw [hlast] at hend
          obtain rfl : d' = d := hend
          exact commandPasses_error (hhead.trans hl) hline hpass e
        · rw [hlast] at hend
          obtain ⟨hbreak, hlast⟩ := hend
          show c.Passes c.lineAhead d'
          rw [Cursor.lineAhead_eq hline hbreak hpass.ahead]
          exact hpass.trans hlast

theorem CommandPasses.exists_passes {c d : Cursor} {answer : Except Fault (Located Command)}
    (h : CommandPasses c answer d) : ∃ tokens, c.Passes tokens d := by
  cases answer with
  | error e =>
    obtain ⟨tokens, hpass, -⟩ := h
    exact ⟨tokens, hpass⟩
  | ok x => exact ⟨_, h⟩

/-! ## Reading all commands -/

/-- A reading of all commands from a cursor on, the number of times that a
command is asked for, the answer, and the cursor at the end. -/
inductive Reading : Cursor → Nat → Except Fault (List (Located Command)) → Cursor → Prop
  | done {c : Cursor} (hend : c.skipLineEnds.atEnd = true) : Reading c 0 (.ok []) c.skipLineEnds
  | fault {c d : Cursor} {e : Fault} (hend : c.skipLineEnds.atEnd = false)
      (hread : command.runAt c.skipLineEnds = (.error e, d)) : Reading c 1 (.error e) d
  | next {c d d' : Cursor} {x : Located Command} {n : Nat}
      {answer : Except Fault (List (Located Command))} (hend : c.skipLineEnds.atEnd = false)
      (hread : command.runAt c.skipLineEnds = (.ok x, d)) (hrest : Reading d n answer d') :
    Reading c (n + 1) (answer.map (x :: ·)) d'

/-- All commands are read in the end, and no more of them are asked for than
there are tokens. -/
theorem exists_reading (c : Cursor) :
    ∃ n ≤ c.ahead.length, Reading c n (commands c).1 (commands c).2 := by
  rw [commands]
  have hskip := c.length_ahead_skipLineEnds_le
  cases hend : c.skipLineEnds.atEnd with
  | true => exact ⟨0, Nat.zero_le _, by simpa [hend] using .done hend⟩
  | false =>
    have hsome : 0 < c.skipLineEnds.ahead.length :=
      List.length_pos_iff.mpr fun hnil => by simp [Cursor.atEnd, hnil] at hend
    simp only [Bool.false_eq_true, if_false]
    split
    · rename_i e d hread
      exact ⟨1, by omega, .fault hend hread⟩
    · rename_i x d hread
      have hshorter := command_shorter hread
      obtain ⟨n, hn, hrest⟩ := exists_reading d
      refine ⟨n + 1, by omega, ?_⟩
      have hnext := Reading.next hend hread hrest
      rcases hmore : commands d with ⟨e | xs, d'⟩
      · rw [hmore] at hnext
        exact hnext
      · rw [hmore] at hnext
        exact hnext
termination_by c.ahead.length
decreasing_by exact Nat.lt_of_lt_of_le hshorter hskip

theorem Reading.exists_passes {c d : Cursor} {n : Nat}
    {answer : Except Fault (List (Located Command))} (h : Reading c n answer d) :
    ∃ tokens, c.Passes tokens d := by
  induction h with
  | done hend => exact ⟨_, Cursor.skipLineEnds_passes _⟩
  | @fault c d e hend hread =>
    obtain ⟨tokens, hpass⟩ := (command_passes c.skipLineEnds).exists_passes
    rw [hread] at hpass
    exact ⟨_, c.skipLineEnds_passes.trans hpass⟩
  | @next c d d' x n answer hend hread hrest ih =>
    obtain ⟨first, hfirst⟩ := (command_passes c.skipLineEnds).exists_passes
    rw [hread] at hfirst
    obtain ⟨more, hmore⟩ := ih
    exact ⟨_, (c.skipLineEnds_passes.trans hfirst).trans hmore⟩

/-! ## Rows of steps -/

/-- What can be asked of a cursor. -/
inductive Step where
  | advance
  | skipLineEnds
  | command
  | segment (after : String)
  | name (after : String)
  | integer (what after : String)
  | lineEnd (after : String)
  | commands

namespace Step

/-- Where a step leads, whether it succeeds or not. -/
def run (c : Cursor) : Step → Cursor
  | advance => c.advance
  | skipLineEnds => c.skipLineEnds
  | command => (Reader.command.runAt c).2
  | segment after => ((Reader.segment after).runAt c).2
  | name after => ((Reader.name after).runAt c).2
  | integer what after => ((Reader.integer what after).runAt c).2
  | lineEnd after => ((Reader.lineEnd after).runAt c).2
  | commands => (Reader.commands c).2

def runAll (c : Cursor) (steps : List Step) : Cursor := steps.foldl run c

/-- Every step passes some of the tokens ahead. -/
theorem passes (s : Step) (c : Cursor) : ∃ tokens, c.Passes tokens (s.run c) := by
  cases s with
  | advance => exact ⟨_, c.advance_passes⟩
  | skipLineEnds => exact ⟨_, c.skipLineEnds_passes⟩
  | command => exact (command_passes c).exists_passes
  | segment after =>
    obtain ⟨tokens, -, hpass⟩ := inLine_operand "a segment" after segmentOf c
    exact ⟨tokens, hpass⟩
  | name after =>
    obtain ⟨tokens, -, hpass⟩ := inLine_operand "a name" after (nameOf after) c
    exact ⟨tokens, hpass⟩
  | integer what after =>
    obtain ⟨tokens, -, hpass⟩ := inLine_operand what after (integerOf what after) c
    exact ⟨tokens, hpass⟩
  | lineEnd after =>
    have hend := lineEnd_passes after c
    rw [run]
    rcases hd : (Reader.lineEnd after).runAt c with ⟨e | u, d⟩
    · rw [hd] at hend
      obtain rfl : d = c := hend
      exact ⟨[], .refl d⟩
    · rw [hd] at hend
      exact ⟨_, hend.2⟩
  | commands =>
    obtain ⟨n, -, hreading⟩ := exists_reading c
    exact hreading.exists_passes

theorem runAll_passes (steps : List Step) (c : Cursor) :
    ∃ tokens, c.Passes tokens (runAll c steps) := by
  induction steps generalizing c with
  | nil => exact ⟨[], .refl c⟩
  | cons s rest ih =>
    obtain ⟨first, hfirst⟩ := s.passes c
    obtain ⟨more, hmore⟩ := ih (s.run c)
    exact ⟨first ++ more, hfirst.trans hmore⟩

end Step

/-- The cursor stands somewhere in a row of tokens, in the line that the
line ends before it make. -/
structure Tracks (lexemes : List Lexeme) (c : Cursor) : Prop where
  position : c.position ≤ lexemes.length
  passed : c.passed.reverse = lexemes.take c.position
  ahead : c.ahead = lexemes.drop c.position
  line : c.line = 1 + (lexemes.take c.position).countP Lexeme.isLineEnd

theorem tracks_of_passes {tokens lexemes : List Lexeme} {c : Cursor}
    (h : (Cursor.ofLexemes lexemes).Passes tokens c) : Tracks lexemes c := by
  have hlexemes : lexemes = tokens ++ c.ahead := h.ahead
  have hposition : c.position = tokens.length := by
    rw [h.position]
    exact Nat.zero_add _
  have hpassed : c.passed = tokens.reverse := h.passed.trans (List.append_nil _)
  constructor
  · rw [hposition, hlexemes, List.length_append]
    exact Nat.le_add_right ..
  · rw [hpassed, List.reverse_reverse, hposition, hlexemes, List.take_left]
  · rw [hposition, hlexemes, List.drop_left]
  · rw [hposition, hlexemes, List.take_left]
    exact h.line

/-- Wherever steps lead from the first of some tokens, the cursor stands
between two of these tokens, and the number of its line is one more than the
line ends in front of it; no further steps go back. There a command takes
its whole line if it can be read, and no line end but one in its own place
if it cannot; and reading all commands comes to an end. -/
theorem steps_tracked (lexemes : List Lexeme) (steps : List Step) :
    let c := Step.runAll (Cursor.ofLexemes lexemes) steps
    Tracks lexemes c
      ∧ (∀ more, c.position ≤ (Step.runAll c more).position)
      ∧ CommandPasses c (command.runAt c).1 (command.runAt c).2
      ∧ ∃ n ≤ c.ahead.length, Reading c n (commands c).1 (commands c).2 := by
  intro c
  obtain ⟨tokens, hpass⟩ := Step.runAll_passes steps (Cursor.ofLexemes lexemes)
  refine ⟨tracks_of_passes hpass, fun more => ?_, command_passes c, exists_reading c⟩
  obtain ⟨tokens', hmore⟩ := Step.runAll_passes more c
  rw [hmore.position]
  exact Nat.le_add_right ..

end Reader

end HackVm
