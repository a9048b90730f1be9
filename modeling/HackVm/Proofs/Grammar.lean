import Mathlib.Data.List.Forall2
import HackVm.Proofs.Lines

/-!
# The grammar of lines

A line of the source language is a word that says what to do and its
operands. `Denotes` lists the shapes of a line with the command that each
stands for, with no regard to how a line is read. The reader accepts
exactly these lines (`Reader.failure?_lineCommand`): soundness follows the
reader step by step, completeness runs it on each of the shapes.

By `readCommands_eq` the same is true of whole rows of tokens, whichever
spans the tokens carry.
-/

namespace HackVm

/-- The tokens of a line, and the command that they denote. -/
inductive Denotes : List Token → Command → Prop
  | push (s : Segment) {v : UInt32} (hv : v.toNat ≤ 65535) :
    Denotes [.word "push", .word s.keyword, .integer v] (.push s v.toUInt16)
  | pop {s : Segment} (hs : s ≠ .constant) {v : UInt32} (hv : v.toNat ≤ 65535) :
    Denotes [.word "pop", .word s.keyword, .integer v] (.pop s v.toUInt16)
  | label {name : String} (hname : isSymbol name = true) :
    Denotes [.word "label", .word name] (.label name)
  | goto {name : String} (hname : isSymbol name = true) :
    Denotes [.word "goto", .word name] (.goto name)
  | ifGoto {name : String} (hname : isSymbol name = true) :
    Denotes [.word "if-goto", .word name] (.ifGoto name)
  | function {name : String} (hname : isSymbol name = true) {v : UInt32} (hv : v.toNat ≤ 65535) :
    Denotes [.word "function", .word name, .integer v] (.function name v.toUInt16)
  | call {name : String} (hname : isSymbol name = true) {v : UInt32} (hv : v.toNat ≤ 65535) :
    Denotes [.word "call", .word name, .integer v] (.call name v.toUInt16)
  | ret : Denotes [.word "return"] .ret
  | operate (op : Operation) : Denotes [.word op.keyword] (.operate op)

/-! ## What tokens mean -/

theorem Segment.ofKeyword?_eq_some {w : String} {s : Segment} :
    Segment.ofKeyword? w = some s ↔ w = s.keyword := by
  constructor
  · intro h
    have hfound := List.find?_some h
    exact (beq_iff_eq.mp hfound).symm
  · rintro rfl
    exact Segment.ofKeyword?_keyword s

theorem Operation.ofKeyword?_eq_some {w : String} {op : Operation} :
    Operation.ofKeyword? w = some op ↔ w = op.keyword := by
  constructor
  · intro h
    have hfound := List.find?_some h
    exact (beq_iff_eq.mp hfound).symm
  · rintro rfl
    exact Operation.ofKeyword?_keyword op

namespace Reader

def Verb.keyword : Verb → String
  | .push => "push"
  | .pop => "pop"
  | .label => "label"
  | .goto => "goto"
  | .ifGoto => "if-goto"
  | .function => "function"
  | .call => "call"
  | .ret => "return"
  | .operate op => op.keyword

theorem Verb.ofWord?_keyword (v : Verb) : Verb.ofWord? v.keyword = some v := by
  cases v with
  | operate op => cases op <;> rfl
  | _ => rfl

theorem Verb.keyword_of_ofWord? {w : String} {v : Verb} (h : Verb.ofWord? w = some v) :
    w = v.keyword := by
  unfold Verb.ofWord? at h
  split at h
  case h_9 =>
    obtain ⟨op, hop, rfl⟩ := Option.map_eq_some_iff.mp h
    exact Operation.ofKeyword?_eq_some.mp hop
  all_goals
    cases h
    rfl

variable {l : Lexeme}

theorem verbOf_ok {w : String} {v : Verb} :
    verbOf l = .ok (w, v) ↔ l.token = .word v.keyword ∧ w = v.keyword := by
  rw [verbOf]
  constructor
  · intro h
    split at h
    · rename_i word hword
      split at h
      · rename_i v' hv
        cases h
        rw [hword, Verb.keyword_of_ofWord? hv]
        exact ⟨rfl, rfl⟩
      · cases h
    · cases h
  · rintro ⟨hword, rfl⟩
    simp only [hword, Verb.ofWord?_keyword]

theorem segmentOf_ok {s : Segment} : segmentOf l = .ok s ↔ l.token = .word s.keyword := by
  rw [segmentOf]
  constructor
  · intro h
    split at h
    · rename_i word hword
      split at h
      · rename_i s' hs
        cases h
        rw [hword, Segment.ofKeyword?_eq_some.mp hs]
      · cases h
    · cases h
  · intro hword
    simp only [hword, Segment.ofKeyword?_keyword]

theorem nameOf_ok {after name : String} :
    nameOf after l = .ok name ↔ l.token = .word name ∧ isSymbol name = true := by
  rw [nameOf]
  constructor
  · intro h
    split at h
    · rename_i word hword
      split at h
      · rename_i hname
        cases h
        exact ⟨hword, hname⟩
      · cases h
    · cases h
  · rintro ⟨hword, hname⟩
    simp only [hword, hname, if_true]

theorem integerOf_ok {what after : String} {i : UInt16} :
    integerOf what after l = .ok i ↔
      ∃ v, l.token = .integer v ∧ v.toNat ≤ 65535 ∧ v.toUInt16 = i := by
  rw [integerOf]
  constructor
  · intro h
    split at h
    · rename_i v hv
      split at h
      · rename_i hlt
        cases h
        exact ⟨v, hv, Nat.le_of_lt_succ hlt, rfl⟩
      · cases h
    · cases h
  · rintro ⟨v, hv, hle, rfl⟩
    have hlt : v.toNat < UInt16.size := Nat.lt_succ_of_le hle
    simp only [hv, hlt, if_true]

/-! ## Readers that succeed -/

theorem runAt_bind_ok {α β : Type} {r : Reader α} {f : α → Reader β} {c d : Cursor} {b : β} :
    (r >>= f).runAt c = (.ok b, d) ↔
      ∃ a c', r.runAt c = (.ok a, c') ∧ (f a).runAt c' = (.ok b, d) := by
  rw [runAt_bind]
  rcases r.runAt c with ⟨e | a, c'⟩ <;> simp

/-- An operand that is taken is the next token of its line. -/
theorem operand_bind_ok {α β : Type} {what after : String} {value : Lexeme → Except Fault α}
    {f : α → Reader β} {passed rest : List Lexeme} {n : Nat} {d : Cursor} {b : β}
    (h : (operand what after value >>= f).runAt ⟨passed, rest, n⟩ = (.ok b, d)) :
    ∃ l rest' a, rest = l :: rest' ∧ value l = .ok a
      ∧ (f a).runAt ⟨l :: passed, rest', n⟩ = (.ok b, d) := by
  obtain ⟨a, c, ha, h⟩ := runAt_bind_ok.mp h
  cases rest with
  | nil => cases ha
  | cons l rest =>
    cases hl : l.isLineEnd with
    | true => simp [operand, hl] at ha
    | false =>
      simp only [operand, runAt_ofFun, hl, Bool.false_eq_true, if_false, Prod.mk.injEq] at ha
      obtain ⟨ha, rfl⟩ := ha
      refine ⟨l, rest, a, rfl, ha, ?_⟩
      simpa [Cursor.advance, hl] using h

/-- What the reader of operands takes makes a line of the grammar, together
with the word in front. -/
theorem denotes_of_operands {l : Lexeme} {rest : List Lexeme} {w : String} {v : Verb} {n : Nat}
    {node : Command} {d : Cursor} (hl : l.token = .word v.keyword)
    (h : (operands w l.span v).runAt ⟨[l], rest, n⟩ = (.ok node, d)) :
    ∃ taken, rest = taken ++ d.ahead ∧ d.passed = (l :: taken).reverse
      ∧ Denotes ((l :: taken).map Lexeme.token) node := by
  cases v with
  | push =>
    obtain ⟨a, _, s, rfl, hs, h⟩ := operand_bind_ok h
    obtain ⟨b, _, i, rfl, hi, h⟩ := operand_bind_ok h
    obtain ⟨v, hb, hv, rfl⟩ := integerOf_ok.mp hi
    cases h
    refine ⟨[a, b], rfl, rfl, ?_⟩
    simp only [List.map_cons, List.map_nil, hl, segmentOf_ok.mp hs, hb]
    exact .push s hv
  | pop =>
    obtain ⟨a, _, s, rfl, hs, h⟩ := operand_bind_ok h
    obtain ⟨b, _, i, rfl, hi, h⟩ := operand_bind_ok h
    obtain ⟨v, hb, hv, rfl⟩ := integerOf_ok.mp hi
    rw [runAt_bind, runAt_get] at h
    simp only at h
    split at h
    · cases h
    · rename_i hconstant
      cases h
      refine ⟨[a, b], rfl, rfl, ?_⟩
      simp only [List.map_cons, List.map_nil, hl, segmentOf_ok.mp hs, hb]
      exact .pop hconstant hv
  | label =>
    obtain ⟨a, _, name, rfl, hname, h⟩ := operand_bind_ok h
    obtain ⟨ha, hname⟩ := nameOf_ok.mp hname
    cases h
    refine ⟨[a], rfl, rfl, ?_⟩
    simp only [List.map_cons, List.map_nil, hl, ha]
    exact .label hname
  | goto =>
    obtain ⟨a, _, name, rfl, hname, h⟩ := operand_bind_ok h
    obtain ⟨ha, hname⟩ := nameOf_ok.mp hname
    cases h
    refine ⟨[a], rfl, rfl, ?_⟩
    simp only [List.map_cons, List.map_nil, hl, ha]
    exact .goto hname
  | ifGoto =>
    obtain ⟨a, _, name, rfl, hname, h⟩ := operand_bind_ok h
    obtain ⟨ha, hname⟩ := nameOf_ok.mp hname
    cases h
    refine ⟨[a], rfl, rfl, ?_⟩
    simp only [List.map_cons, List.map_nil, hl, ha]
    exact .ifGoto hname
  | function =>
    obtain ⟨a, _, name, rfl, hname, h⟩ := operand_bind_ok h
    obtain ⟨b, _, i, rfl, hi, h⟩ := operand_bind_ok h
    obtain ⟨ha, hname⟩ := nameOf_ok.mp hname
    obtain ⟨v, hb, hv, rfl⟩ := integerOf_ok.mp hi
    cases h
    refine ⟨[a, b], rfl, rfl, ?_⟩
    simp only [List.map_cons, List.map_nil, hl, ha, hb]
    exact .function hname hv
  | call =>
    obtain ⟨a, _, name, rfl, hname, h⟩ := operand_bind_ok h
    obtain ⟨b, _, i, rfl, hi, h⟩ := operand_bind_ok h
    obtain ⟨ha, hname⟩ := nameOf_ok.mp hname
    obtain ⟨v, hb, hv, rfl⟩ := integerOf_ok.mp hi
    cases h
    refine ⟨[a, b], rfl, rfl, ?_⟩
    simp only [List.map_cons, List.map_nil, hl, ha, hb]
    exact .call hname hv
  | ret =>
    cases h
    refine ⟨[], rfl, rfl, ?_⟩
    simp only [List.map_cons, List.map_nil, hl]
    exact .ret
  | operate op =>
    cases h
    refine ⟨[], rfl, rfl, ?_⟩
    simp only [List.map_cons, List.map_nil, hl]
    exact .operate op

/-! ## Lines of the grammar -/

section RunAt

variable {β : Type} {a : Lexeme} {passed rest : List Lexeme} {n : Nat} {after : String}

theorem runAt_operand_bind {α : Type} {what : String} {value : Lexeme → Except Fault α}
    {f : α → Reader β} {x : α} (ha : a.token ≠ .newline) (hx : value a = .ok x) :
    (operand what after value >>= f).runAt ⟨passed, a :: rest, n⟩ =
      (f x).runAt ⟨a :: passed, rest, n⟩ := by
  have hend : a.isLineEnd = false := beq_eq_false_iff_ne.mpr ha
  rw [runAt_bind]
  simp [operand, hend, hx, Cursor.advance]

theorem runAt_segment_bind {f : Segment → Reader β} {s : Segment}
    (ha : a.token = .word s.keyword) :
    (segment after >>= f).runAt ⟨passed, a :: rest, n⟩ = (f s).runAt ⟨a :: passed, rest, n⟩ :=
  runAt_operand_bind (by rw [ha]; exact nofun) (segmentOf_ok.mpr ha)

theorem runAt_name_bind {f : String → Reader β} {name : String} (ha : a.token = .word name)
    (hname : isSymbol name = true) :
    (Reader.name after >>= f).runAt ⟨passed, a :: rest, n⟩ =
      (f name).runAt ⟨a :: passed, rest, n⟩ :=
  runAt_operand_bind (by rw [ha]; exact nofun) (nameOf_ok.mpr ⟨ha, hname⟩)

theorem runAt_integer_bind {what : String} {f : UInt16 → Reader β} {v : UInt32}
    (ha : a.token = .integer v) (hv : v.toNat ≤ 65535) :
    (integer what after >>= f).runAt ⟨passed, a :: rest, n⟩ =
      (f v.toUInt16).runAt ⟨a :: passed, rest, n⟩ :=
  runAt_operand_bind (by rw [ha]; exact nofun) (integerOf_ok.mpr ⟨v, ha, hv, rfl⟩)

theorem runAt_operand_bind_error {α : Type} {what : String} {value : Lexeme → Except Fault α}
    {f : α → Reader β} {e : Fault} (ha : a.token ≠ .newline) (he : value a = .error e) :
    (operand what after value >>= f).runAt ⟨passed, a :: rest, n⟩ =
      (.error e, ⟨a :: passed, rest, n⟩) := by
  have hend : a.isLineEnd = false := beq_eq_false_iff_ne.mpr ha
  rw [runAt_bind]
  simp [operand, hend, he, Cursor.advance]

theorem runAt_integer_bind_wide {what : String} {f : UInt16 → Reader β} {v : UInt32}
    (ha : a.token = .integer v) (hv : 65535 < v.toNat) :
    (integer what after >>= f).runAt ⟨passed, a :: rest, n⟩ =
      (.error ⟨.wideInteger v, a.span⟩, ⟨a :: passed, rest, n⟩) := by
  have hwide : integerOf what after a = .error ⟨.wideInteger v, a.span⟩ := by
    have hlt : ¬v.toNat < UInt16.size := Nat.not_lt_of_le hv
    simp only [integerOf, ha, if_neg hlt]
  exact runAt_operand_bind_error (by rw [ha]; exact nofun) hwide

end RunAt

/-- On a line of the grammar the reader of operands takes all that stands
behind the first word. -/
theorem operands_of_denotes {line : List Lexeme} {node : Command}
    (h : Denotes (line.map Lexeme.token) node) :
    ∃ l rest v, line = l :: rest ∧ l.token = .word v.keyword
      ∧ ∀ w n, (operands w l.span v).runAt ⟨[l], rest, n⟩ = (.ok node, ⟨line.reverse, [], n⟩) := by
  generalize htokens : line.map Lexeme.token = tokens at h
  cases h with
  | push s hv =>
    simp only [List.map_eq_cons_iff, List.map_eq_nil_iff] at htokens
    obtain ⟨l, _, rfl, hl, a, _, rfl, ha, b, _, rfl, hb, rfl⟩ := htokens
    refine ⟨l, _, .push, rfl, hl, fun w n => ?_⟩
    rw [operands, runAt_segment_bind ha, runAt_integer_bind hb hv]
    rfl
  | pop hs hv =>
    simp only [List.map_eq_cons_iff, List.map_eq_nil_iff] at htokens
    obtain ⟨l, _, rfl, hl, a, _, rfl, ha, b, _, rfl, hb, rfl⟩ := htokens
    refine ⟨l, _, .pop, rfl, hl, fun w n => ?_⟩
    rw [operands, runAt_segment_bind ha, runAt_integer_bind hb hv, runAt_bind, runAt_get]
    simp only [if_neg hs]
    rfl
  | label hname =>
    simp only [List.map_eq_cons_iff, List.map_eq_nil_iff] at htokens
    obtain ⟨l, _, rfl, hl, a, _, rfl, ha, rfl⟩ := htokens
    refine ⟨l, _, .label, rfl, hl, fun w n => ?_⟩
    rw [operands, runAt_name_bind ha hname]
    rfl
  | goto hname =>
    simp only [List.map_eq_cons_iff, List.map_eq_nil_iff] at htokens
    obtain ⟨l, _, rfl, hl, a, _, rfl, ha, rfl⟩ := htokens
    refine ⟨l, _, .goto, rfl, hl, fun w n => ?_⟩
    rw [operands, runAt_name_bind ha hname]
    rfl
  | ifGoto hname =>
    simp only [List.map_eq_cons_iff, List.map_eq_nil_iff] at htokens
    obtain ⟨l, _, rfl, hl, a, _, rfl, ha, rfl⟩ := htokens
    refine ⟨l, _, .ifGoto, rfl, hl, fun w n => ?_⟩
    rw [operands, runAt_name_bind ha hname]
    rfl
  | function hname hv =>
    simp only [List.map_eq_cons_iff, List.map_eq_nil_iff] at htokens
    obtain ⟨l, _, rfl, hl, a, _, rfl, ha, b, _, rfl, hb, rfl⟩ := htokens
    refine ⟨l, _, .function, rfl, hl, fun w n => ?_⟩
    rw [operands, runAt_name_bind ha hname, runAt_integer_bind hb hv]
    rfl
  | call hname hv =>
    simp only [List.map_eq_cons_iff, List.map_eq_nil_iff] at htokens
    obtain ⟨l, _, rfl, hl, a, _, rfl, ha, b, _, rfl, hb, rfl⟩ := htokens
    refine ⟨l, _, .call, rfl, hl, fun w n => ?_⟩
    rw [operands, runAt_name_bind ha hname, runAt_integer_bind hb hv]
    rfl
  | ret =>
    simp only [List.map_eq_cons_iff, List.map_eq_nil_iff] at htokens
    obtain ⟨l, _, rfl, hl, rfl⟩ := htokens
    exact ⟨l, _, .ret, rfl, hl, fun w n => rfl⟩
  | operate op =>
    simp only [List.map_eq_cons_iff, List.map_eq_nil_iff] at htokens
    obtain ⟨l, _, rfl, hl, rfl⟩ := htokens
    exact ⟨l, _, .operate op, rfl, hl, fun w n => rfl⟩

/-! ## Lines alone -/

theorem isLineEnd_of_word {l : Lexeme} {w : String} (h : l.token = .word w) :
    l.isLineEnd = false := by
  rw [Lexeme.isLineEnd, h]
  rfl

theorem advance_ofLexemes {l : Lexeme} {w : String} (h : l.token = .word w) (rest : List Lexeme) :
    (Cursor.ofLexemes (l :: rest)).advance = ⟨[l], rest, 1⟩ := by
  simp [Cursor.ofLexemes, Cursor.advance, isLineEnd_of_word h]

theorem previousSpan_of_getLast? {line passed ahead : List Lexeme} {last : Lexeme} {n : Nat}
    (hpassed : passed = line.reverse) (hlast : line.getLast? = some last) :
    (Cursor.mk passed ahead n).previousSpan = last.span := by
  rw [← List.head?_reverse, ← hpassed] at hlast
  obtain ⟨ps, rfl⟩ := List.head?_eq_some_iff.mp hlast
  rfl

/-- A line of the grammar is read as the command that it denotes. -/
theorem lineCommand_of_denotes {line : List Lexeme} {node : Command}
    (h : Denotes (line.map Lexeme.token) node) :
    ∃ x, lineCommand line = .ok x ∧ x.node = node := by
  obtain ⟨l, rest, v, rfl, hl, hrun⟩ := operands_of_denotes h
  refine ⟨⟨node, l.span.merge (Cursor.mk (l :: rest).reverse [] 1).previousSpan, 1⟩, ?_, rfl⟩
  rw [lineCommand, runAt_command_cons l _ _ rfl, verbOf_ok.mpr ⟨hl, rfl⟩,
    advance_ofLexemes hl]
  simp only [hrun]
  rfl

/-- What is read from a line is the command that the line denotes, and its
span reaches from the first token to the last. -/
theorem lineCommand_ok {line : List Lexeme} (hline : IsLine line) {x : Located Command}
    (h : lineCommand line = .ok x) :
    Denotes (line.map Lexeme.token) x.node
      ∧ ∃ first last, line.head? = some first ∧ line.getLast? = some last
        ∧ x.span = first.span.merge last.span := by
  cases line with
  | nil => cases h
  | cons l rest =>
    rw [lineCommand, runAt_command_cons l _ _ rfl] at h
    cases hverb : verbOf l with
    | error e =>
      rw [hverb] at h
      cases h
    | ok wv =>
      obtain ⟨w, v⟩ := wv
      obtain ⟨hl, rfl⟩ := verbOf_ok.mp hverb
      rw [hverb, advance_ofLexemes hl] at h
      simp only at h
      rcases hnode : (operands v.keyword l.span v).runAt ⟨[l], rest, 1⟩ with ⟨e | node, d⟩
      · rw [hnode] at h
        cases h
      · obtain ⟨taken, rfl, hpassed, hdenotes⟩ := denotes_of_operands hl hnode
        rw [hnode] at h
        -- What is left of the line is nothing, or a token that ends no line.
        obtain ⟨passed, _ | ⟨y, ahead⟩, n⟩ := d
        · cases h
          have hlast := List.getLast?_eq_some_getLast (List.cons_ne_nil l taken)
          rw [List.append_nil]
          refine ⟨hdenotes, l, _, rfl, hlast, ?_⟩
          simp only [previousSpan_of_getLast? hpassed hlast]
        · have hy : y.isLineEnd = false := hline y (by simp)
          simp [lineEnd, hy] at h

theorem numberedCommand_of_denotes {line : List Lexeme} {c : Command} (hline : IsLine line)
    (h : Denotes (line.map Lexeme.token) c) (n : Nat) :
    ∃ first last, line.head? = some first ∧ line.getLast? = some last
      ∧ numberedCommand (line, n) = .ok ⟨c, first.span.merge last.span, n⟩ := by
  obtain ⟨x, hx, rfl⟩ := lineCommand_of_denotes h
  obtain ⟨-, first, last, hfirst, hlast, hspan⟩ := lineCommand_ok hline hx
  refine ⟨first, last, hfirst, hlast, ?_⟩
  rw [numberedCommand, hx, ← hspan]
  rfl

theorem failure?_lineCommand {line : List Lexeme} (hline : IsLine line) :
    failure? (lineCommand line) = none ↔ ∃ c, Denotes (line.map Lexeme.token) c := by
  rw [failure?_eq_none]
  constructor
  · rintro ⟨x, hx⟩
    exact ⟨x.node, (lineCommand_ok hline hx).1⟩
  · rintro ⟨c, hc⟩
    obtain ⟨x, hx, -⟩ := lineCommand_of_denotes hc
    exact ⟨x, hx⟩

theorem failure?_numberedCommand (x : List Lexeme × Nat) :
    failure? (numberedCommand x) = failure? (lineCommand x.1) :=
  failure?_map _ _

end Reader

open Reader

/-! ## Rows of tokens -/

/-- The commands of a row are those of its lines. -/
theorem readCommands_ok {lexemes : List Lexeme} {cs : List (Located Command)}
    (h : readCommands lexemes = .ok cs) :
    List.Forall₂ (fun line (x : Located Command) =>
      Denotes (line.1.map Lexeme.token) x.node ∧ x.line = line.2
        ∧ ∃ first last, line.1.head? = some first ∧ line.1.getLast? = some last
          ∧ x.span = first.span.merge last.span)
      (linesFrom 1 lexemes) cs := by
  rw [readCommands_eq] at h
  have hlines : ∀ line ∈ linesFrom 1 lexemes, IsLine line.1 := fun _ hn => (mem_linesFrom hn).1
  refine ((List.forall₂_and_left _ _).mpr ⟨hlines, mapM_ok h⟩).imp ?_
  rintro ⟨line, n⟩ x ⟨hline, hx⟩
  obtain ⟨y, hy, rfl⟩ := except_map_ok hx
  obtain ⟨hdenotes, hspan⟩ := lineCommand_ok hline hy
  exact ⟨hdenotes, rfl, hspan⟩

/-- A row of tokens is read as its nonempty lines, each by the grammar. -/
structure ReadByLine (lexemes : List Lexeme) : Prop where
  /-- There are commands exactly if the grammar has every nonempty line. -/
  isOk_iff : (∃ cs, readCommands lexemes = .ok cs) ↔
    ∀ line ∈ lexemes.splitOnP Lexeme.isLineEnd, line ≠ [] →
      ∃ c, Denotes (line.map Lexeme.token) c
  /-- Each nonempty line gives one command, the one that it denotes. -/
  ok : ∀ cs, readCommands lexemes = .ok cs →
    List.Forall₂ (fun line (x : Located Command) =>
      Denotes (line.1.map Lexeme.token) x.node ∧ x.line = line.2
        ∧ ∃ first last, line.1.head? = some first ∧ line.1.getLast? = some last
          ∧ x.span = ⟨min first.span.start last.span.start, max first.span.stop last.span.stop⟩)
      (linesFrom 1 lexemes) cs
  /-- The number of a line counts the line ends in front of it. -/
  number : ∀ line n, (line, n) ∈ linesFrom 1 lexemes →
    ∃ before beyond, lexemes = before ++ line ++ beyond ∧ LineStart before ∧ LineBreak beyond
      ∧ n = 1 + before.countP Lexeme.isLineEnd
  /-- The first line that the grammar lacks gives the fault that it gives
  alone. -/
  error : ∀ e, readCommands lexemes = .error e →
    ∃ before line n after, linesFrom 1 lexemes = before ++ (line, n) :: after
      ∧ (∀ x ∈ before, ∃ c, Denotes (x.1.map Lexeme.token) c)
      ∧ (¬ ∃ c, Denotes (line.map Lexeme.token) c)
      ∧ readCommands line = .error e

theorem readCommands_by_line (lexemes : List Lexeme) : ReadByLine lexemes where
  isOk_iff := by
    rw [← failure?_eq_none, readCommands_eq, failure?_mapM, List.findSome?_eq_none_iff]
    constructor
    · intro h line hline hne
      obtain ⟨n, hn⟩ := exists_mem_linesFrom.mpr ⟨hline, hne⟩
      have hread := h _ hn
      rw [failure?_numberedCommand] at hread
      exact (failure?_lineCommand (mem_linesFrom hn).1).mp hread
    · rintro h ⟨line, n⟩ hn
      obtain ⟨hline, hne⟩ := exists_mem_linesFrom.mp ⟨n, hn⟩
      rw [failure?_numberedCommand]
      exact (failure?_lineCommand (mem_linesFrom hn).1).mpr (h line hline hne)
  ok cs h := readCommands_ok h
  number line n h := (mem_linesFrom h).2
  error e h := by
    rw [← failure?_eq_some, readCommands_eq, failure?_mapM, List.findSome?_eq_some_iff] at h
    obtain ⟨before, ⟨line, n⟩, after, hsplit, hfail, hbefore⟩ := h
    have hmem : (line, n) ∈ linesFrom 1 lexemes := by rw [hsplit]; simp
    have hline := (mem_linesFrom hmem).1
    have hne := (exists_mem_linesFrom.mp ⟨n, hmem⟩).2
    rw [failure?_numberedCommand] at hfail
    refine ⟨before, line, n, after, hsplit, fun x hx => ?_, fun hdenotes => ?_, ?_⟩
    · have hxmem : x ∈ linesFrom 1 lexemes := by rw [hsplit]; exact List.mem_append_left _ hx
      have hread := hbefore x hx
      rw [failure?_numberedCommand] at hread
      exact (failure?_lineCommand (mem_linesFrom hxmem).1).mp hread
    · rw [(failure?_lineCommand hline).mpr hdenotes] at hfail
      cases hfail
    · rw [← failure?_eq_some, readCommands_eq, linesFrom_line hline hne, failure?_mapM,
        List.findSome?_singleton, failure?_numberedCommand, hfail]

/-! ## Commands that can be read -/

def Command.name? : Command → Option String
  | .label name | .goto name | .ifGoto name | .function name _ | .call name _ => some name
  | _ => none

/-- A command of the language: its name is a symbol, and it does not pop
into the constants. -/
structure Command.Readable (c : Command) : Prop where
  name : ∀ name, c.name? = some name → isSymbol name = true
  target : ∀ index, c ≠ .pop .constant index

theorem Denotes.readable {tokens : List Token} {c : Command} (h : Denotes tokens c) :
    c.Readable := by
  cases h with
  | pop hs hv =>
    refine ⟨nofun, fun index heq => ?_⟩
    cases heq
    exact hs rfl
  | label hname | goto hname | ifGoto hname | function hname hv | call hname hv =>
    refine ⟨fun name heq => ?_, nofun⟩
    cases heq
    exact hname
  | _ => exact ⟨nofun, nofun⟩

theorem readable_of_parse {text : String} {cs : List (Located Command)} (h : parse text = .ok cs) :
    ∀ x ∈ cs, x.node.Readable := by
  intro x hx
  obtain ⟨lexemes, -, hread⟩ := except_bind_ok h
  obtain ⟨line, -, hdenotes, -⟩ :=
    exists_mem_of_forall₂ (readCommands_ok hread) hx
  exact hdenotes.readable

end HackVm
