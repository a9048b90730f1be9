import HackVm.Proofs.Lines
import HackVm.Proofs.Listing

/-!
# Rows read side by side

The reader looks at tokens, but not at where they stand. Two rows of the
same tokens are read alike, however they lie in their sources: as the same
commands, or not at all and for the same cause.

The spans of what is read are made of the spans of the tokens, by merging
two of them or by taking the empty one behind another. A relation of spans
that these two keep (`Span.Kept`) relates the answers of the reader if it
relates the rows (`Reader.lineCommand_alike`). As the span of the first
word of a command is handed to the reader of its operands, this is shown
for two readers at a time (`Reader.Alike`).
-/

namespace HackVm

/-- The reader makes related spans of related spans. -/
structure Span.Kept (S : Span → Span → Prop) : Prop where
  merge {s s' t t' : Span} (hs : S s s') (ht : S t t') : S (s.merge t) (s'.merge t')
  behind {s s' : Span} (hs : S s s') : S (.point s.stop) (.point s'.stop)

variable {S : Span → Span → Prop}

/-! ## Tokens and answers -/

/-- The same token, at a related span. -/
structure Lexeme.Alike (S : Span → Span → Prop) (l l' : Lexeme) : Prop where
  token : l'.token = l.token
  span : S l.span l'.span

theorem Lexeme.Alike.isLineEnd {l l' : Lexeme} (h : l.Alike S l') :
    l'.isLineEnd = l.isLineEnd := by
  rw [Lexeme.isLineEnd, Lexeme.isLineEnd, h.token]

/-- The same value at a related span, some lines further on. -/
structure Located.Alike {α : Type} (S : Span → Span → Prop) (k : Nat) (x x' : Located α) : Prop where
  node : x'.node = x.node
  span : S x.span x'.span
  line : x'.line = x.line + k

/-- Related values, or the same mistake at related spans. -/
inductive Agree (S : Span → Span → Prop) {α β : Type} (R : α → β → Prop) :
    Except Fault α → Except Fault β → Prop
  | ok {a : α} {b : β} (h : R a b) : Agree S R (.ok a) (.ok b)
  | error (cause : Cause) {s s' : Span} (h : S s s') :
    Agree S R (.error ⟨cause, s⟩) (.error ⟨cause, s'⟩)

namespace Agree

variable {α β γ δ : Type} {R : α → β → Prop}

theorem map {R' : γ → δ → Prop} {f : α → γ} {g : β → δ} {x : Except Fault α} {y : Except Fault β}
    (h : Agree S R x y) (hR : ∀ a b, R a b → R' (f a) (g b)) : Agree S R' (x.map f) (y.map g) := by
  cases h with
  | ok h => exact .ok (hR _ _ h)
  | error cause h => exact .error cause h

theorem bind {R' : γ → δ → Prop} {f : α → Except Fault γ} {g : β → Except Fault δ}
    {x : Except Fault α} {y : Except Fault β} (h : Agree S R x y)
    (hR : ∀ a b, R a b → Agree S R' (f a) (g b)) : Agree S R' (x >>= f) (y >>= g) := by
  cases h with
  | ok h => exact hR _ _ h
  | error cause h => exact .error cause h

theorem imp {R' : α → β → Prop} {x : Except Fault α} {y : Except Fault β} (h : Agree S R x y)
    (hR : ∀ a b, R a b → R' a b) : Agree S R' x y := by
  cases h with
  | ok h => exact .ok (hR _ _ h)
  | error cause h => exact .error cause h

theorem eq {x y : Except Fault α} (h : Agree Eq Eq x y) : x = y := by
  cases h with
  | ok h => rw [h]
  | error cause h => rw [h]

/-- Rows of computations agree if their members do. -/
theorem mapM {f : γ → Except Fault α} {g : δ → Except Fault β} {xs : List γ} {ys : List δ}
    (h : List.Forall₂ (fun x y => Agree S R (f x) (g y)) xs ys) :
    Agree S (List.Forall₂ R) (xs.mapM f) (ys.mapM g) := by
  induction h with
  | nil => exact .ok .nil
  | cons hxy _ ih =>
    rw [List.mapM_cons, List.mapM_cons]
    exact hxy.bind fun _ _ hab => ih.bind fun _ _ hrest => .ok (.cons hab hrest)

end Agree

/-! ## Cursors -/

namespace Cursor

/-- The same place in one line of each row. -/
structure Alike (S : Span → Span → Prop) (c c' : Cursor) : Prop where
  inLine : c.InLine
  passed : List.Forall₂ (Lexeme.Alike S) c.passed c'.passed
  ahead : List.Forall₂ (Lexeme.Alike S) c.ahead c'.ahead

variable {c c' : Cursor}

theorem Alike.previousSpan (h : c.Alike S c') : S c.previousSpan c'.previousSpan := by
  obtain ⟨passed, ahead, m⟩ := c
  obtain ⟨passed', ahead', m'⟩ := c'
  cases h.passed with
  | nil => exact absurd rfl h.inLine.passed
  | cons hl _ => exact hl.span

theorem Alike.missing {α : Type} {R : α → α → Prop} (hS : Span.Kept S) (h : c.Alike S c')
    (what after : String) :
    Agree S R (.error (c.missing what after)) (.error (c'.missing what after)) :=
  .error _ (hS.behind h.previousSpan)

theorem Alike.advance {l l' : Lexeme} {rest rest' : List Lexeme} (h : c.Alike S c')
    (hc : c.ahead = l :: rest) (hc' : c'.ahead = l' :: rest') : c.advance.Alike S c'.advance := by
  have hahead := h.ahead
  have hline := h.inLine.ahead
  rw [hc] at hline
  rw [hc, hc', List.forall₂_cons] at hahead
  rw [Cursor.advance, Cursor.advance, hc, hc']
  exact ⟨⟨List.cons_ne_nil _ _, (isLine_cons.mp hline).2⟩, .cons hahead.1 h.passed, hahead.2⟩

end Cursor

/-! ## Readers -/

namespace Reader

/-- At the same place of their lines, two readers answer related values or
fail alike. -/
def Alike (S : Span → Span → Prop) {α β : Type} (R : α → β → Prop) (r : Reader α) (r' : Reader β) :
    Prop :=
  ∀ c c', c.Alike S c' →
    Agree S R (r.runAt c).1 (r'.runAt c').1 ∧ (r.runAt c).2.Alike S (r'.runAt c').2

section Alike

variable {α β γ : Type} {R : α → β → Prop}

theorem Alike.pure {a : α} {b : β} (h : R a b) : Alike S R (Pure.pure a) (Pure.pure b) :=
  fun _ _ hc => ⟨.ok h, hc⟩

theorem Alike.throw (cause : Cause) {s s' : Span} (hs : S s s') :
    Alike S R (MonadExcept.throw ⟨cause, s⟩) (MonadExcept.throw ⟨cause, s'⟩) :=
  fun _ _ hc => ⟨.error cause hs, hc⟩

theorem Alike.bind {r r' : Reader γ} {f : γ → Reader α} {f' : γ → Reader β} (hr : Alike S Eq r r')
    (hf : ∀ a, Alike S R (f a) (f' a)) : Alike S R (r >>= f) (r' >>= f') := by
  intro c c' hc
  obtain ⟨hanswer, hleft⟩ := hr c c' hc
  rw [runAt_bind, runAt_bind]
  generalize r.runAt c = answer, r'.runAt c' = answer' at hanswer hleft
  obtain ⟨x, d⟩ := answer
  obtain ⟨x', d'⟩ := answer'
  simp only at hanswer hleft
  cases hanswer with
  | error cause hs => exact ⟨.error cause hs, hleft⟩
  | ok h =>
    subst h
    exact hf _ d d' hleft

/-- A reader may look at the cursor for the span of the token just passed. -/
theorem Alike.get_bind {f : Span → Reader α} {f' : Span → Reader β}
    (hf : ∀ s s', S s s' → Alike S R (f s) (f' s')) :
    Alike S R (MonadState.get >>= fun c : Cursor => f c.previousSpan)
      (MonadState.get >>= fun c : Cursor => f' c.previousSpan) := by
  intro c c' hc
  rw [runAt_bind, runAt_bind, runAt_get, runAt_get]
  exact hf _ _ hc.previousSpan c c' hc

theorem alike_operand (hS : Span.Kept S) {what after : String} {value : Lexeme → Except Fault α}
    (hvalue : ∀ l l', l.Alike S l' → Agree S Eq (value l) (value l')) :
    Alike S Eq (operand what after value) (operand what after value) := by
  intro c c' hc
  simp only [operand, runAt_ofFun]
  cases hahead : c.ahead with
  | nil =>
    have hahead' := hc.ahead
    rw [hahead, List.forall₂_nil_left_iff] at hahead'
    rw [hahead']
    exact ⟨hc.missing hS what after, hc⟩
  | cons l rest =>
    have hrow := hc.ahead
    have hline := hc.inLine.ahead
    rw [hahead] at hrow hline
    obtain ⟨l', rest', hl, -, hahead'⟩ := List.forall₂_cons_left_iff.mp hrow
    have hl' := (isLine_cons.mp hline).1
    rw [hahead']
    simp only [hl.isLineEnd, hl', Bool.false_eq_true, if_false]
    exact ⟨hvalue l l' hl, hc.advance hahead hahead'⟩

theorem alike_lineEnd (after : String) : Alike S Eq (lineEnd after) (lineEnd after) := by
  intro c c' hc
  simp only [lineEnd, runAt_ofFun]
  cases hahead : c.ahead with
  | nil =>
    have hahead' := hc.ahead
    rw [hahead, List.forall₂_nil_left_iff] at hahead'
    rw [hahead']
    exact ⟨.ok rfl, hc⟩
  | cons l rest =>
    have hrow := hc.ahead
    have hline := hc.inLine.ahead
    rw [hahead] at hrow hline
    obtain ⟨l', rest', hl, -, hahead'⟩ := List.forall₂_cons_left_iff.mp hrow
    have hl' := (isLine_cons.mp hline).1
    rw [hahead']
    simp only [hl.isLineEnd, hl', Bool.false_eq_true, if_false, hl.token]
    exact ⟨.error _ hl.span, hc⟩

end Alike

variable {l l' : Lexeme}

theorem segmentOf_alike (h : l.Alike S l') : Agree S Eq (segmentOf l) (segmentOf l') := by
  rw [segmentOf, segmentOf, h.token]
  split
  · split
    · exact .ok rfl
    · exact .error _ h.span
  · exact .error _ h.span

theorem nameOf_alike (after : String) (h : l.Alike S l') :
    Agree S Eq (nameOf after l) (nameOf after l') := by
  rw [nameOf, nameOf, h.token]
  split
  · split
    · exact .ok rfl
    · exact .error _ h.span
  · exact .error _ h.span

theorem integerOf_alike (what after : String) (h : l.Alike S l') :
    Agree S Eq (integerOf what after l) (integerOf what after l') := by
  rw [integerOf, integerOf, h.token]
  split
  · split
    · exact .ok rfl
    · exact .error _ h.span
  · exact .error _ h.span

theorem verbOf_alike (h : l.Alike S l') : Agree S Eq (verbOf l) (verbOf l') := by
  rw [verbOf, verbOf, h.token]
  split
  · split
    · exact .ok rfl
    · exact .error _ h.span
  · exact .error _ h.span

/-- The end of a command of the first line, behind its operands. -/
def commandEnd (w : String) (start : Span) (node : Command) (previous : Span) :
    Reader (Located Command) := do
  lineEnd w
  return ⟨node, start.merge previous, 1⟩

/-- What is read of a command of the first line behind its first token. -/
def commandBehind (l : Lexeme) (w : String) (v : Verb) : Reader (Located Command) := do
  let node ← operands w l.span v
  let c ← get
  commandEnd w l.span node c.previousSpan

theorem lineCommand_cons (l : Lexeme) (rest : List Lexeme) :
    lineCommand (l :: rest) = (verbOf l).bind fun wv =>
      ((commandBehind l wv.1 wv.2).runAt (Cursor.ofLexemes (l :: rest)).advance).1 := by
  rw [lineCommand, command, runAt_bind, runAt_get]
  simp only [first, runAt_bind, runAt_ofFun, Cursor.ofLexemes]
  cases verbOf l <;> rfl

section Operands

variable (hS : Span.Kept S)

include hS

theorem alike_segment (after : String) : Alike S Eq (segment after) (segment after) :=
  alike_operand hS fun _ _ => segmentOf_alike

theorem alike_name (after : String) : Alike S Eq (name after) (name after) :=
  alike_operand hS fun _ _ => nameOf_alike after

theorem alike_integer (what after : String) : Alike S Eq (integer what after) (integer what after) :=
  alike_operand hS fun _ _ => integerOf_alike what after

theorem alike_operands (w : String) {start start' : Span} (hstart : S start start') (v : Verb) :
    Alike S Eq (operands w start v) (operands w start' v) := by
  cases v with
  | push => exact (alike_segment hS _).bind fun _ => (alike_integer hS _ _).bind fun _ => .pure rfl
  | pop =>
    refine (alike_segment hS _).bind fun s => (alike_integer hS _ _).bind fun i => ?_
    let behind (from' previous : Span) : Reader Command :=
      if s = .constant then throw ⟨.popConstant i, from'.merge previous⟩
      else Pure.pure (Command.pop s i)
    have hbehind : ∀ s s', S s s' → Alike S Eq (behind start s) (behind start' s') := by
      intro previous previous' h
      simp only [behind]
      split
      · exact .throw _ (hS.merge hstart h)
      · exact .pure rfl
    exact Alike.get_bind hbehind
  | label => exact (alike_name hS _).bind fun _ => .pure rfl
  | goto => exact (alike_name hS _).bind fun _ => .pure rfl
  | ifGoto => exact (alike_name hS _).bind fun _ => .pure rfl
  | function => exact (alike_name hS _).bind fun _ => (alike_integer hS _ _).bind fun _ => .pure rfl
  | call => exact (alike_name hS _).bind fun _ => (alike_integer hS _ _).bind fun _ => .pure rfl
  | ret => exact .pure rfl
  | operate op => exact .pure rfl

/-- Lines of the same tokens are read alike. -/
theorem lineCommand_alike {line line' : List Lexeme} (h : List.Forall₂ (Lexeme.Alike S) line line')
    (hline : IsLine line) (hne : line ≠ []) :
    Agree S (Located.Alike S 0) (lineCommand line) (lineCommand line') := by
  cases h with
  | nil => exact absurd rfl hne
  | @cons l l' rest rest' hl hrest =>
    obtain ⟨-, hrest₀⟩ := isLine_cons.mp hline
    have hstart : (Cursor.ofLexemes (l :: rest)).advance.Alike S
        (Cursor.ofLexemes (l' :: rest')).advance :=
      ⟨⟨List.cons_ne_nil _ _, hrest₀⟩, .cons hl .nil, hrest⟩
    rw [lineCommand_cons, lineCommand_cons]
    refine (verbOf_alike hl).bind fun wv _ h => ?_
    subst h
    have hread : Alike S (Located.Alike S 0) (commandBehind l wv.1 wv.2)
        (commandBehind l' wv.1 wv.2) := by
      refine (alike_operands hS wv.1 hl.span wv.2).bind fun node => Alike.get_bind fun s s' hs => ?_
      exact (alike_lineEnd wv.1).bind fun _ => .pure ⟨rfl, hS.merge hl.span hs, rfl⟩
    exact (hread _ _ hstart).1

end Operands

/-! ## Lines -/

theorem splitOnP_forall₂ {α β : Type} {R : α → β → Prop} {p : α → Bool} {q : β → Bool}
    {xs : List α} {ys : List β} (h : List.Forall₂ (fun x y => R x y ∧ q y = p x) xs ys) :
    List.Forall₂ (List.Forall₂ R) (xs.splitOnP p) (ys.splitOnP q) := by
  induction h with
  | nil => exact .cons .nil .nil
  | @cons x y xs ys hxy _ ih =>
    rw [List.splitOnP_cons_eq_if_modifyHead, List.splitOnP_cons_eq_if_modifyHead, hxy.2]
    generalize xs.splitOnP p = pieces, ys.splitOnP q = pieces' at ih
    split
    · exact .cons .nil ih
    · cases ih with
      | nil => exact .nil
      | cons hhead htail => exact .cons (.cons hxy.1 hhead) htail

/-- The same line, some lines further on. -/
structure LineAlike (S : Span → Span → Prop) (k : Nat) (x x' : List Lexeme × Nat) : Prop where
  tokens : List.Forall₂ (Lexeme.Alike S) x.1 x'.1
  number : x'.2 = x.2 + k

/-- Rows of the same tokens have the same lines. -/
theorem linesFrom_alike {lexemes lexemes' : List Lexeme}
    (h : List.Forall₂ (Lexeme.Alike S) lexemes lexemes') (m k : Nat) :
    List.Forall₂ (LineAlike S k) (linesFrom m lexemes) (linesFrom (m + k) lexemes') := by
  have hpieces := splitOnP_forall₂ (p := Lexeme.isLineEnd) (q := Lexeme.isLineEnd)
    (h.imp fun _ _ hl => ⟨hl, hl.isLineEnd⟩)
  rw [linesFrom, linesFrom]
  generalize lexemes.splitOnP Lexeme.isLineEnd = pieces,
    lexemes'.splitOnP Lexeme.isLineEnd = pieces' at hpieces
  induction hpieces generalizing m with
  | nil => exact .nil
  | @cons piece piece' _ _ hpiece _ ih =>
    have hrest := ih (m + 1)
    rw [Nat.add_right_comm] at hrest
    rw [List.zipIdx_cons, List.zipIdx_cons, List.filter_cons, List.filter_cons]
    cases hpiece with
    | nil => exact hrest
    | cons hl hls => exact .cons ⟨.cons hl hls, rfl⟩ hrest

/-- Rows of the same tokens are read alike. -/
theorem mapM_numberedCommand_alike (hS : Span.Kept S) {lexemes lexemes' : List Lexeme}
    (h : List.Forall₂ (Lexeme.Alike S) lexemes lexemes') (m k : Nat) :
    Agree S (List.Forall₂ (Located.Alike S k)) ((linesFrom m lexemes).mapM numberedCommand)
      ((linesFrom (m + k) lexemes').mapM numberedCommand) := by
  refine Agree.mapM ?_
  have hlines := linesFrom_alike h m k
  have hnonempty : ∀ x ∈ linesFrom m lexemes, IsLine x.1 ∧ x.1 ≠ [] := fun x hx =>
    ⟨(mem_linesFrom hx).1, (exists_mem_linesFrom.mp ⟨x.2, hx⟩).2⟩
  generalize linesFrom m lexemes = lines, linesFrom (m + k) lexemes' = lines' at hlines hnonempty
  induction hlines with
  | nil => exact .nil
  | @cons x x' _ _ hx _ ih =>
    obtain ⟨⟨hline, hne⟩, hrest⟩ := List.forall_mem_cons.mp hnonempty
    refine .cons ?_ (ih hrest)
    exact (lineCommand_alike hS hx.tokens hline hne).map fun a b hab =>
      ⟨hab.node, hab.span, hx.number⟩

end Reader

/-! ## Code -/

/-- The same commands are translated alike. -/
theorem Generator.translateAll_alike {k : Nat} {cs cs' : List (Located Command)}
    (h : List.Forall₂ (Located.Alike S k) cs cs') (g : Generator) :
    Agree S Eq (g.translateAll cs).1 (g.translateAll cs').1 := by
  induction h generalizing g with
  | nil => exact .ok rfl
  | @cons c c' cs cs' hc _ ih =>
    rw [translateAll_cons, translateAll_cons, hc.node]
    cases Code.block g.file g.comments g.labels c.node with
    | error cause => exact .error cause hc.span
    | ok block => exact (ih (g.after c.node)).map fun _ _ h => by rw [h]

end HackVm
