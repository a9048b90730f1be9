import HackVm.Symbol
import HackVm.Cursor
import HackVm.Scan

/-!
# Reading commands

A reader takes what it needs from the tokens ahead of a cursor. It
answers a value or a fault, and in either case leaves the cursor where it
stopped.

A command is one line: a word that says what to do, its operands, and the
end of the line. `command` reads one such line, `commands` all that
follow, skipping empty lines. `parse` is the whole way from a source text
to its commands.
-/

namespace HackVm

/-- A computation on a cursor that may fail and moves the cursor even then. -/
abbrev Reader := ExceptT Fault (StateM Cursor)

namespace Reader

/-- The reader that a function on cursors describes. -/
def ofFun {α : Type} (f : Cursor → Except Fault α × Cursor) : Reader α := ExceptT.mk f

/-- What a reader answers at a cursor, and where it leaves it. -/
def runAt {α : Type} (r : Reader α) (c : Cursor) : Except Fault α × Cursor := (ExceptT.run r) c

@[simp] theorem runAt_ofFun {α : Type} (f : Cursor → Except Fault α × Cursor) (c : Cursor) :
    (ofFun f).runAt c = f c := rfl

@[simp] theorem runAt_pure {α : Type} (a : α) (c : Cursor) :
    (pure a : Reader α).runAt c = (.ok a, c) := rfl

@[simp] theorem runAt_throw {α : Type} (e : Fault) (c : Cursor) :
    (throw e : Reader α).runAt c = (.error e, c) := rfl

@[simp] theorem runAt_get (c : Cursor) : (get : Reader Cursor).runAt c = (.ok c, c) := rfl

/-- One reader after another: a fault of the first is the fault of both,
and leaves the cursor where the first stopped. -/
theorem runAt_bind {α β : Type} (r : Reader α) (f : α → Reader β) (c : Cursor) :
    (r >>= f).runAt c =
      match r.runAt c with
      | (.ok a, d) => (f a).runAt d
      | (.error e, d) => (.error e, d) := by
  show (ExceptT.bind r f).run c = _
  simp only [ExceptT.bind, ExceptT.run, ExceptT.mk, runAt]
  show (match (r : StateM Cursor _) c with
    | (a, d) => ExceptT.bindCont f a d) = _
  rcases (r : StateM Cursor _) c with ⟨_ | a, d⟩ <;> rfl

/-- The reader never moves a cursor backward. -/
def Forward {α : Type} (r : Reader α) : Prop :=
  ∀ c, (r.runAt c).2.ahead.length ≤ c.ahead.length

theorem Forward.pure {α : Type} (a : α) : Forward (Pure.pure a : Reader α) :=
  fun _ => Nat.le_refl _

theorem Forward.throw {α : Type} (e : Fault) : Forward (MonadExcept.throw e : Reader α) :=
  fun _ => Nat.le_refl _

theorem Forward.get : Forward (MonadState.get : Reader Cursor) :=
  fun _ => Nat.le_refl _

theorem Forward.bind {α β : Type} {r : Reader α} {f : α → Reader β}
    (hr : Forward r) (hf : ∀ a, Forward (f a)) : Forward (r >>= f) := by
  intro c
  have h := hr c
  rw [runAt_bind]
  rcases hc : r.runAt c with ⟨_ | a, d⟩
  · simpa [hc] using h
  · rw [hc] at h
    exact Nat.le_trans (hf a d) h

/-! ## Operands -/

/-- Take the next word or number of this line, which is the operand `what`
of the command `after`. -/
def operand {α : Type} (what after : String) (value : Lexeme → Except Fault α) : Reader α :=
  ofFun fun c =>
    match c.ahead with
    | [] => (.error (c.missing what after), c)
    | l :: _ =>
      if l.isLineEnd then (.error (c.missing what after), c)
      else (value l, c.advance)

/-- The segment that a token names. -/
def segmentOf (l : Lexeme) : Except Fault Segment :=
  match l.token with
  | .word w =>
    match Segment.ofKeyword? w with
    | some s => .ok s
    | none => .error ⟨.unknownSegment l.token, l.span⟩
  | _ => .error ⟨.unknownSegment l.token, l.span⟩

/-- The name that a token is, behind the command `after`. -/
def nameOf (after : String) (l : Lexeme) : Except Fault String :=
  match l.token with
  | .word w => if isSymbol w then .ok w else .error ⟨.invalidName w, l.span⟩
  | _ => .error ⟨.expectedName after l.token, l.span⟩

/-- The machine word that a token is, behind the command `after`. -/
def integerOf (what after : String) (l : Lexeme) : Except Fault UInt16 :=
  match l.token with
  | .integer v => if v.toNat < UInt16.size then .ok v.toUInt16 else .error ⟨.wideInteger v, l.span⟩
  | _ => .error ⟨.expectedInteger what after l.token, l.span⟩

def segment (after : String) : Reader Segment := operand "a segment" after segmentOf

def name (after : String) : Reader String := operand "a name" after (nameOf after)

def integer (what after : String) : Reader UInt16 := operand what after (integerOf what after)

/-- Pass the end of the line behind the command `after`. The end of all
tokens will do as well. -/
def lineEnd (after : String) : Reader Unit :=
  ofFun fun c =>
    match c.ahead with
    | [] => (.ok (), c)
    | l :: _ =>
      if l.isLineEnd then (.ok (), c.advance)
      else (.error ⟨.unexpectedOperand l.token after, l.span⟩, c)

/-- Take any token, as the start of a command. -/
def first : Reader Lexeme :=
  ofFun fun c =>
    match c.ahead with
    | [] => (.error (c.missing "a command" "end of file"), c)
    | l :: _ => (.ok l, c.advance)

/-! ## Commands -/

/-- What the first word of a line says to do. -/
inductive Verb where
  | push | pop | label | goto | ifGoto | function | call | ret
  | operate (op : Operation)
deriving DecidableEq

/-- The verb that a word spells. -/
def Verb.ofWord? (w : String) : Option Verb :=
  match w with
  | "push" => some .push
  | "pop" => some .pop
  | "label" => some .label
  | "goto" => some .goto
  | "if-goto" => some .ifGoto
  | "function" => some .function
  | "call" => some .call
  | "return" => some .ret
  | _ => (Operation.ofKeyword? w).map .operate

/-- Read the operands of a verb, spelled `w` at `start`. Nothing can be
popped into the constants, which is found out once the operands are read. -/
def operands (w : String) (start : Span) : Verb → Reader Command
  | .push => do
    let s ← segment w
    let i ← integer "an index" w
    return .push s i
  | .pop => do
    let s ← segment w
    let i ← integer "an index" w
    let c ← get
    if s = .constant then throw ⟨.popConstant i, start.merge c.previousSpan⟩
    else return .pop s i
  | .label => do return .label (← name w)
  | .goto => do return .goto (← name w)
  | .ifGoto => do return .ifGoto (← name w)
  | .function => do
    let f ← name w
    let n ← integer "a local count" w
    return .function f n
  | .call => do
    let f ← name w
    let n ← integer "an argument count" w
    return .call f n
  | .ret => return .ret
  | .operate op => return .operate op

/-- The verb that a token is, at the start of a line. -/
def verbOf (l : Lexeme) : Except Fault (String × Verb) :=
  match l.token with
  | .word w =>
    match Verb.ofWord? w with
    | some v => .ok (w, v)
    | none => .error ⟨.unknownCommand w, l.span⟩
  | _ => .error ⟨.notACommand l.token, l.span⟩

/-- Read one line. The command's span reaches from its first word to its
last operand. -/
def command : Reader (Located Command) := do
  let line := (← get).line
  let l ← first
  match verbOf l with
  | .error e => throw e
  | .ok (w, v) =>
    let node ← operands w l.span v
    let span := l.span.merge (← get).previousSpan
    lineEnd w
    return ⟨node, span, line⟩

/-! ## Readers move forward -/

theorem forward_operand {α : Type} (what after : String) (value : Lexeme → Except Fault α) :
    Forward (operand what after value) := by
  intro c
  simp only [operand, runAt_ofFun]
  split
  · exact Nat.le_refl _
  · split
    · exact Nat.le_refl _
    · exact c.length_ahead_advance_le

theorem forward_lineEnd (after : String) : Forward (lineEnd after) := by
  intro c
  simp only [lineEnd, runAt_ofFun]
  split
  · exact Nat.le_refl _
  · split
    · exact c.length_ahead_advance_le
    · exact Nat.le_refl _

/-- What holds of one operand, and of readers one after another, holds of
the operands of every verb. -/
theorem operands_induction {P : {α : Type} → Reader α → Prop}
    (pure : ∀ {α : Type} (a : α), P (Pure.pure a : Reader α))
    (throw : ∀ {α : Type} (e : Fault), P (MonadExcept.throw e : Reader α))
    (bind : ∀ {α β : Type} {r : Reader α} {f : α → Reader β},
      P r → (∀ a, P (f a)) → P (r >>= f))
    (get_bind : ∀ {α : Type} {f : Span → Reader α},
      (∀ s, P (f s)) → P (MonadState.get >>= fun c : Cursor => f c.previousSpan))
    (operand : ∀ {α : Type} (what after : String) (value : Lexeme → Except Fault α),
      P (operand what after value))
    (w : String) (start : Span) (v : Verb) : P (operands w start v) := by
  cases v with
  | push => exact bind (operand _ _ _) fun _ => bind (operand _ _ _) fun _ => pure _
  | pop =>
    refine bind (operand _ _ _) fun s => bind (operand _ _ _) fun i =>
      get_bind (f := fun previous =>
        if s = .constant then MonadExcept.throw ⟨.popConstant i, start.merge previous⟩
        else Pure.pure (Command.pop s i)) fun _ => ?_
    split
    · exact throw _
    · exact pure _
  | label => exact bind (operand _ _ _) fun _ => pure _
  | goto => exact bind (operand _ _ _) fun _ => pure _
  | ifGoto => exact bind (operand _ _ _) fun _ => pure _
  | function => exact bind (operand _ _ _) fun _ => bind (operand _ _ _) fun _ => pure _
  | call => exact bind (operand _ _ _) fun _ => bind (operand _ _ _) fun _ => pure _
  | ret => exact pure _
  | operate op => exact pure _

theorem forward_operands (w : String) (start : Span) (v : Verb) :
    Forward (operands w start v) :=
  operands_induction .pure .throw .bind (fun hf => Forward.get.bind fun _ => hf _)
    forward_operand w start v

/-- A command takes at least the first token ahead. -/
theorem command_shorter {c d : Cursor} {x : Located Command}
    (h : command.runAt c = (.ok x, d)) : d.ahead.length < c.ahead.length := by
  simp only [command, runAt_bind, runAt_get, first, runAt_ofFun] at h
  cases hc : c.ahead with
  | nil => simp [hc] at h
  | cons l rest =>
    simp only [hc] at h
    have hlt : c.advance.ahead.length < (l :: rest).length := by
      simp [Cursor.advance, hc]
    cases hv : verbOf l with
    | error e => simp [hv] at h
    | ok wv =>
      obtain ⟨w, v⟩ := wv
      simp only [hv, runAt_bind, runAt_get] at h
      have ho := forward_operands w l.span v c.advance
      rcases hn : (operands w l.span v).runAt c.advance with ⟨_ | node, c₁⟩
      · simp [hn] at h
      · rw [hn] at ho h
        have hl := forward_lineEnd w c₁
        rcases he : (lineEnd w).runAt c₁ with ⟨_ | u, c₂⟩
        · simp [he] at h
        · simp only [he, runAt_pure, Prod.mk.injEq] at h
          rw [he] at hl
          obtain ⟨-, rfl⟩ := h
          exact Nat.lt_of_le_of_lt hl (Nat.lt_of_le_of_lt ho hlt)

/-- Read every line from a cursor on, skipping empty ones. The first fault
ends the reading. -/
def commands (c : Cursor) : Except Fault (List (Located Command)) × Cursor :=
  let c := c.skipLineEnds
  if c.atEnd then (.ok [], c)
  else
    match _h : command.runAt c with
    | (.error e, d) => (.error e, d)
    | (.ok x, d) =>
      match commands d with
      | (.error e, d') => (.error e, d')
      | (.ok xs, d') => (.ok (x :: xs), d')
termination_by c.ahead.length
decreasing_by
  exact Nat.lt_of_lt_of_le (command_shorter _h) (Cursor.length_ahead_skipLineEnds_le _)

end Reader

/-- The commands of a row of tokens. -/
def readCommands (lexemes : List Lexeme) : Except Fault (List (Located Command)) :=
  (Reader.commands (Cursor.ofLexemes lexemes)).1

/-- The commands of a source text. -/
def parse (source : String) : Except Fault (List (Located Command)) := do
  readCommands (← scan source)

end HackVm
