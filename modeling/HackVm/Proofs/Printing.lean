import HackVm.Proofs.Scanning
import HackVm.Proofs.WellFormed

/-!
# Printing and reading

Commands are printed one to a line, each as a row of words and numbers
with one blank between them. Such a row is scanned into the tokens that it
was written from (`scans_spread`), because every token stops at the blank
or the line end behind it, and these tokens denote the command
(`Command.denotes_tokens`). So a printed program is read back as the
commands that it was printed from, each where it stands
(`parse_printed`).

The other way around, all that is ever read from a source can be printed
and read again.
-/

namespace HackVm

open Reader

/-! ## Tokens as they are written -/

def Token.spelling : Token → String
  | newline => "\n"
  | integer value => toString value.toNat
  | word w => w

/-- A word of the source language. -/
def isWord (w : String) : Bool :=
  match w.toList with
  | [] => false
  | c :: rest => isWordStart c && rest.all isWordChar

/-- A token that can stand in a line and that its spelling is scanned into. -/
def Token.isWritten : Token → Bool
  | newline => false
  | integer _ => true
  | word w => isWord w

theorem isWord_of_isSymbol {name : String} (h : isSymbol name = true) : isWord name = true := by
  rw [isSymbol] at h
  rw [isWord]
  cases hname : name.toList with
  | nil => simp [hname] at h
  | cons c rest =>
    simp only [hname, Bool.and_eq_true, Bool.not_eq_true', List.all_eq_true] at h
    obtain ⟨⟨hdigit, hc⟩, hrest⟩ := h
    simp only [Bool.and_eq_true, List.all_eq_true]
    refine ⟨by simp [isWordStart, hc, hdigit], fun d hd => ?_⟩
    simp [isWordChar, hrest d hd]

theorem byteLength_toList (s : String) : byteLength s.toList = s.utf8ByteSize := by
  rw [byteLength_ofList, String.ofList_toList]

section Spelling

variable (offset : Nat) {rest : List Char}

theorem scans_word {w : String} (hw : isWord w = true) (hrest : StopsAt isWordChar rest) :
    Scans offset w.toList [⟨.word w, ⟨offset, offset + w.utf8ByteSize⟩⟩] rest := by
  rw [← byteLength_toList]
  rw [isWord] at hw
  cases hchars : w.toList with
  | nil => simp [hchars] at hw
  | cons c letters =>
    simp only [hchars, Bool.and_eq_true, List.all_eq_true] at hw
    have hscan := scans_letters offset hw.1 hw.2 hrest
    rwa [← hchars, String.ofList_toList, hchars] at hscan

theorem numberOf?_toString (value : UInt32) :
    numberOf? (toString value.toNat).toList = some value := by
  have hvalue : Nat.ofDigitChars 10 (toString value.toNat).toList 0 = value.toNat := by
    rw [Nat.toString_eq_repr, Nat.toList_repr, Nat.ofDigitChars_ten_toDigits]
  rw [numberOf?, hvalue]
  simp only [value.toNat_lt_size, if_true, UInt32.ofNat_toNat]

theorem scans_integer (value : UInt32) (hrest : StopsAt isWordChar rest) :
    Scans offset (toString value.toNat).toList
      [⟨.integer value, ⟨offset, offset + (toString value.toNat).utf8ByteSize⟩⟩] rest := by
  have hstops : StopsAt Char.isDigit rest :=
    hrest.mono fun d hdigit => by simp [isWordChar, isSymbolChar_of_isDigit hdigit]
  have hvalue := numberOf?_toString value
  have hdigits : ∀ d ∈ (toString value.toNat).toList, d.isDigit = true :=
    fun d hd => isDigit_of_mem_toString hd
  rw [← byteLength_toList]
  cases hchars : (toString value.toNat).toList with
  | nil =>
    rw [Nat.toString_eq_repr, Nat.toList_repr] at hchars
    exact absurd hchars Nat.toDigits_ne_nil
  | cons c digits =>
    rw [hchars] at hvalue hdigits
    obtain ⟨hc, hdigits⟩ := List.forall_mem_cons.mp hdigits
    exact scans_digits offset hc hdigits hvalue hstops

theorem scans_spelling {t : Token} (ht : t.isWritten = true) (hrest : StopsAt isWordChar rest) :
    Scans offset t.spelling.toList [⟨t, ⟨offset, offset + t.spelling.utf8ByteSize⟩⟩] rest := by
  cases t with
  | newline => cases ht
  | integer value => exact scans_integer offset value hrest
  | word w => exact scans_word offset ht hrest

end Spelling

/-! ## Rows of tokens -/

/-- The text of a row of tokens, with one blank between them. -/
def spaced (tokens : List Token) : String := " ".intercalate (tokens.map Token.spelling)

/-- The tokens of a row that is written from a byte offset on. -/
def spread (offset : Nat) : List Token → List Lexeme
  | [] => []
  | t :: rest =>
    ⟨t, ⟨offset, offset + t.spelling.utf8ByteSize⟩⟩ ::
      spread (offset + t.spelling.utf8ByteSize + 1) rest

theorem spaced_cons_cons (t u : Token) (rest : List Token) :
    spaced (t :: u :: rest) = t.spelling ++ " " ++ spaced (u :: rest) := by
  rw [spaced, List.map_cons, List.map_cons, String.intercalate_cons_cons]
  rfl

theorem spaced_singleton (t : Token) : spaced [t] = t.spelling := by
  rw [spaced, List.map_singleton, String.intercalate_singleton]

theorem utf8ByteSize_spaced_cons_cons (t u : Token) (rest : List Token) :
    (spaced (t :: u :: rest)).utf8ByteSize =
      t.spelling.utf8ByteSize + 1 + (spaced (u :: rest)).utf8ByteSize := by
  rw [spaced_cons_cons, String.utf8ByteSize_append, String.utf8ByteSize_append]
  rfl

/-- A row of tokens is scanned into its tokens. -/
theorem scans_spread {tokens : List Token} (htokens : ∀ t ∈ tokens, t.isWritten = true)
    (hne : tokens ≠ []) (offset : Nat) {rest : List Char} (hrest : StopsAt isWordChar rest) :
    Scans offset (spaced tokens).toList (spread offset tokens) rest := by
  induction tokens generalizing offset with
  | nil => exact absurd rfl hne
  | cons t tokens ih =>
    obtain ⟨ht, htokens⟩ := List.forall_mem_cons.mp htokens
    cases tokens with
    | nil =>
      rw [spaced_singleton]
      exact scans_spelling offset ht hrest
    | cons u tokens =>
      have hstops : StopsAt isWordChar (([' '] ++ (spaced (u :: tokens)).toList) ++ rest) :=
        stopsAt_cons rfl _
      have hfirst := scans_spelling offset ht hstops
      have hblank := scans_space (offset + t.spelling.utf8ByteSize)
        ((spaced (u :: tokens)).toList ++ rest)
      have hmore := ih htokens (List.cons_ne_nil u tokens) (offset + t.spelling.utf8ByteSize + 1)
      have hbehind : Scans (offset + byteLength t.spelling.toList)
          ([' '] ++ (spaced (u :: tokens)).toList)
          (spread (offset + t.spelling.utf8ByteSize + 1) (u :: tokens)) rest := by
        rw [byteLength_toList]
        exact hblank.append hmore
      rw [spaced_cons_cons, String.toList_append, String.toList_append, List.append_assoc]
      exact hfirst.append hbehind

/-- The tokens of a row lie between its ends. -/
theorem bounds_of_mem_spread {offset : Nat} {tokens : List Token} {l : Lexeme}
    (h : l ∈ spread offset tokens) :
    offset ≤ l.span.start ∧ l.span.stop ≤ offset + (spaced tokens).utf8ByteSize := by
  induction tokens generalizing offset with
  | nil => cases h
  | cons t tokens ih =>
    rw [spread, List.mem_cons] at h
    cases tokens with
    | nil =>
      rw [spread, List.mem_nil_iff, or_false] at h
      rw [h, spaced_singleton]
      exact ⟨Nat.le_refl _, Nat.le_refl _⟩
    | cons u tokens =>
      rw [utf8ByteSize_spaced_cons_cons]
      rcases h with rfl | h
      · simp only
        omega
      · have hbounds := ih h
        omega

theorem start_of_head?_spread {offset : Nat} {tokens : List Token} {l : Lexeme}
    (h : (spread offset tokens).head? = some l) : l.span.start = offset := by
  cases tokens <;> cases h
  rfl

theorem stop_of_getLast?_spread {offset : Nat} {tokens : List Token} {l : Lexeme}
    (h : (spread offset tokens).getLast? = some l) :
    l.span.stop = offset + (spaced tokens).utf8ByteSize := by
  induction tokens generalizing offset with
  | nil => cases h
  | cons t tokens ih =>
    cases tokens with
    | nil =>
      obtain rfl := Option.some.inj h
      rw [spaced_singleton]
      rfl
    | cons u tokens =>
      rw [spread, spread, List.getLast?_cons_cons] at h
      rw [ih h, utf8ByteSize_spaced_cons_cons]
      omega

theorem map_token_spread (offset : Nat) (tokens : List Token) :
    (spread offset tokens).map Lexeme.token = tokens := by
  induction tokens generalizing offset with
  | nil => rfl
  | cons t tokens ih => rw [spread, List.map_cons, ih]

theorem isLine_spread {tokens : List Token} (htokens : ∀ t ∈ tokens, t.isWritten = true)
    (offset : Nat) : IsLine (spread offset tokens) := by
  intro l hl
  have hmem := List.mem_map_of_mem (f := Lexeme.token) hl
  rw [map_token_spread] at hmem
  have hwritten := htokens _ hmem
  rw [Lexeme.isLineEnd, beq_eq_false_iff_ne]
  rintro hline
  rw [hline] at hwritten
  cases hwritten

/-! ## The line of a command -/

namespace Command

/-- The tokens that a command is written with. -/
def tokens : Command → List Token
  | push s index => [.word "push", .word s.keyword, .integer index.toUInt32]
  | pop s index => [.word "pop", .word s.keyword, .integer index.toUInt32]
  | operate op => [.word op.keyword]
  | label name => [.word "label", .word name]
  | goto name => [.word "goto", .word name]
  | ifGoto name => [.word "if-goto", .word name]
  | function name locals => [.word "function", .word name, .integer locals.toUInt32]
  | call name args => [.word "call", .word name, .integer args.toUInt32]
  | ret => [.word "return"]

theorem tokens_ne_nil (c : Command) : c.tokens ≠ [] := by
  cases c <;> exact List.cons_ne_nil _ _

theorem spaced_tokens (c : Command) : spaced c.tokens = c.text := by
  cases c <;>
    simp [spaced, tokens, text, Token.spelling, String.intercalate_cons_cons, String.append_assoc]

variable {c : Command}

theorem isWritten_of_mem_tokens (h : c.Readable) : ∀ t ∈ c.tokens, t.isWritten = true := by
  have hkeyword (s : Segment) : isWord s.keyword = true := by cases s <;> rfl
  have hoperation (op : Operation) : isWord op.keyword = true := by cases op <;> rfl
  have hname {name : String} (hc : c.name? = some name) : isWord name = true :=
    isWord_of_isSymbol (h.name name hc)
  cases c <;> simp only [tokens, List.forall_mem_cons]
  case push s index => exact ⟨rfl, hkeyword s, rfl, List.forall_mem_nil _⟩
  case pop s index => exact ⟨rfl, hkeyword s, rfl, List.forall_mem_nil _⟩
  case operate op => exact ⟨hoperation op, List.forall_mem_nil _⟩
  case label name => exact ⟨rfl, hname rfl, List.forall_mem_nil _⟩
  case goto name => exact ⟨rfl, hname rfl, List.forall_mem_nil _⟩
  case ifGoto name => exact ⟨rfl, hname rfl, List.forall_mem_nil _⟩
  case function name locals => exact ⟨rfl, hname rfl, rfl, List.forall_mem_nil _⟩
  case call name args => exact ⟨rfl, hname rfl, rfl, List.forall_mem_nil _⟩
  case ret => exact ⟨rfl, List.forall_mem_nil _⟩

theorem denotes_tokens (h : c.Readable) : Denotes c.tokens c := by
  have hle (i : UInt16) : i.toUInt32.toNat ≤ 65535 := by
    rw [UInt16.toNat_toUInt32]
    exact Nat.le_of_lt_succ i.toNat_lt
  cases c with
  | push s index => simpa [tokens] using Denotes.push s (hle index)
  | pop s index =>
    have hs : s ≠ .constant := fun hs => h.target index (by rw [hs])
    simpa [tokens] using Denotes.pop hs (hle index)
  | operate op => exact .operate op
  | label name => exact .label (h.name name rfl)
  | goto name => exact .goto (h.name name rfl)
  | ifGoto name => exact .ifGoto (h.name name rfl)
  | function name locals => simpa [tokens] using Denotes.function (h.name name rfl) (hle locals)
  | call name args => simpa [tokens] using Denotes.call (h.name name rfl) (hle args)
  | ret => exact .ret

/-- The line of a command is read as the command, and its span is all of
its text. -/
theorem numberedCommand_spread (h : c.Readable) (offset n : Nat) :
    numberedCommand (spread offset c.tokens, n) =
      .ok ⟨c, ⟨offset, offset + c.text.utf8ByteSize⟩, n⟩ := by
  have hdenotes : Denotes ((spread offset c.tokens).map Lexeme.token) c := by
    rw [map_token_spread]
    exact denotes_tokens h
  obtain ⟨first, last, hfirst, hlast, hread⟩ :=
    numberedCommand_of_denotes (isLine_spread (isWritten_of_mem_tokens h) offset) hdenotes n
  have hstart := start_of_head?_spread hfirst
  have hstop := stop_of_getLast?_spread hlast
  have hfirstBounds := bounds_of_mem_spread (List.mem_of_head? hfirst)
  have hlastBounds := bounds_of_mem_spread (List.mem_of_getLast? hlast)
  rw [spaced_tokens] at hstop hfirstBounds
  simp only [hread, Except.ok.injEq, Located.mk.injEq, Span.merge, Span.mk.injEq, true_and,
    and_true]
  omega

end Command

/-! ## Printed programs -/

/-- The text of a row of commands, one to a line. -/
def printed (cs : List Command) : String := "\n".intercalate (cs.map Command.text)

/-- The lines in front of the command at an index. -/
def linesBefore (cs : List Command) (i : Nat) : String :=
  String.join ((cs.take i).map fun c => c.text ++ "\n")

theorem printed_cons_cons (c d : Command) (rest : List Command) :
    printed (c :: d :: rest) = c.text ++ "\n" ++ printed (d :: rest) := by
  rw [printed, List.map_cons, List.map_cons, String.intercalate_cons_cons]
  rfl

theorem printed_singleton (c : Command) : printed [c] = c.text := by
  rw [printed, List.map_singleton, String.intercalate_singleton]

theorem linesBefore_cons_succ (c : Command) (rest : List Command) (i : Nat) :
    linesBefore (c :: rest) (i + 1) = c.text ++ "\n" ++ linesBefore rest i := by
  simp [linesBefore]

/-- A command stands behind the lines in front of it. -/
theorem printed_eq {cs : List Command} {i : Nat} {c : Command} (h : cs[i]? = some c) :
    ∃ after, printed cs = linesBefore cs i ++ c.text ++ after := by
  induction cs generalizing i with
  | nil => cases h
  | cons d rest ih =>
    cases i with
    | zero =>
      obtain rfl := Option.some.inj h
      have hnone : linesBefore (d :: rest) 0 = "" := rfl
      rw [hnone, String.empty_append]
      cases rest with
      | nil => exact ⟨"", by rw [printed_singleton, String.append_empty]⟩
      | cons e rest => exact ⟨_, by rw [printed_cons_cons, String.append_assoc]⟩
    | succ i =>
      cases rest with
      | nil => cases h
      | cons e rest =>
        obtain ⟨after, hafter⟩ := ih h
        refine ⟨after, ?_⟩
        rw [printed_cons_cons, linesBefore_cons_succ, hafter]
        simp only [String.append_assoc]

/-- A row of commands, printed from a byte offset and a line on, with each
command where it stands. -/
def placedFrom (offset line : Nat) : List Command → List (Located Command)
  | [] => []
  | c :: rest =>
    ⟨c, ⟨offset, offset + c.text.utf8ByteSize⟩, line⟩ ::
      placedFrom (offset + c.text.utf8ByteSize + 1) (line + 1) rest

theorem map_node_placedFrom (offset line : Nat) (cs : List Command) :
    (placedFrom offset line cs).map Located.node = cs := by
  induction cs generalizing offset line with
  | nil => rfl
  | cons c rest ih => rw [placedFrom, List.map_cons, ih]

theorem placedFrom_getElem? {offset line i : Nat} {cs : List Command} {x : Located Command}
    (h : (placedFrom offset line cs)[i]? = some x) :
    cs[i]? = some x.node ∧ x.line = line + i
      ∧ x.span = ⟨offset + (linesBefore cs i).utf8ByteSize,
        offset + (linesBefore cs i).utf8ByteSize + x.node.text.utf8ByteSize⟩ := by
  induction cs generalizing offset line i with
  | nil => cases h
  | cons c rest ih =>
    cases i with
    | zero =>
      obtain rfl := Option.some.inj h
      exact ⟨rfl, rfl, rfl⟩
    | succ i =>
      obtain ⟨hnode, hline, hspan⟩ := ih h
      have hsize : (linesBefore (c :: rest) (i + 1)).utf8ByteSize =
          c.text.utf8ByteSize + 1 + (linesBefore rest i).utf8ByteSize := by
        rw [linesBefore_cons_succ, String.utf8ByteSize_append, String.utf8ByteSize_append]
        rfl
      refine ⟨hnode, by omega, ?_⟩
      rw [hspan, hsize, Span.mk.injEq]
      omega

/-- A printed program is scanned into the lines of its commands, and each
line is read as its command. -/
theorem scan_printed {cs : List Command} (hcs : ∀ c ∈ cs, c.Readable) (offset line : Nat) :
    ∃ lexemes, scanFrom offset (printed cs).toList = .ok lexemes
      ∧ (linesFrom line lexemes).mapM numberedCommand = .ok (placedFrom offset line cs) := by
  induction cs generalizing offset line with
  | nil => exact ⟨[], by rw [printed, List.map_nil, String.intercalate_nil]; exact scanFrom.eq_1 _, rfl⟩
  | cons c rest ih =>
    obtain ⟨hc, hrest⟩ := List.forall_mem_cons.mp hcs
    have hwritten := Command.isWritten_of_mem_tokens hc
    have hline := isLine_spread hwritten offset
    obtain ⟨l, ls, hls⟩ : ∃ l ls, spread offset c.tokens = l :: ls := by
      cases htokens : c.tokens with
      | nil => exact absurd htokens c.tokens_ne_nil
      | cons t ts => exact ⟨_, _, rfl⟩
    have hcommand := Command.numberedCommand_spread hc offset line
    have hscan (more : List Char) (hmore : StopsAt isWordChar more) :
        Scans offset c.text.toList (l :: ls) more := by
      rw [← Command.spaced_tokens, ← hls]
      exact scans_spread hwritten c.tokens_ne_nil offset hmore
    rw [hls] at hline hcommand
    cases rest with
    | nil =>
      refine ⟨l :: ls, ?_, ?_⟩
      · rw [printed_singleton]
        exact (hscan [] (stopsAt_nil _)).whole
      · rw [linesFrom_line hline (List.cons_ne_nil l ls), List.mapM_cons, hcommand]
        rfl
    | cons d rest =>
      obtain ⟨others, hothers, hplaced⟩ :=
        ih hrest (offset + c.text.utf8ByteSize + 1) (line + 1)
      let newline : Lexeme :=
        ⟨.newline, ⟨offset + c.text.utf8ByteSize, offset + c.text.utf8ByteSize + 1⟩⟩
      have hbreak : LineBreak (newline :: others) := by
        rintro x ⟨⟩
        rfl
      refine ⟨l :: ls ++ newline :: others, ?_, ?_⟩
      · have hpiece := hscan (['\n'] ++ (printed (d :: rest)).toList) (stopsAt_cons rfl _)
        have hend := scans_newline (offset + byteLength c.text.toList) (printed (d :: rest)).toList
        have hboth := hpiece.append hend
        have hsize : byteLength ['\n'] = 1 := rfl
        rw [Scans, byteLength_append, byteLength_toList, hsize, ← Nat.add_assoc, hothers] at hboth
        rw [printed_cons_cons, String.toList_append, String.toList_append]
        exact hboth.trans (congrArg Except.ok (List.append_assoc ..))
      · rw [List.cons_append, linesFrom_append hline hbreak, List.mapM_cons, hcommand,
          List.tail_cons, hplaced]
        rfl

/-- A printed program is read as its commands, each where it stands. -/
theorem parse_printed {cs : List Command} (hcs : ∀ c ∈ cs, c.Readable) :
    parse (printed cs) = .ok (placedFrom 0 1 cs) := by
  obtain ⟨lexemes, hscan, hread⟩ := scan_printed hcs 0 1
  rw [← readCommands_eq] at hread
  rw [parse, scan, hscan]
  exact hread

/-! ## Printing and reading are inverse -/

/-- Commands as they stand in the text that is printed of them. -/
structure PlacedAsPrinted (cs : List Command) (placed : List (Located Command)) : Prop where
  nodes : placed.map Located.node = cs
  line : ∀ i x, placed[i]? = some x → x.line = i + 1
  /-- The span of a command is that of its text, which stands behind the
  lines of the commands before it. -/
  span : ∀ i x, placed[i]? = some x →
    x.span = ⟨(linesBefore cs i).utf8ByteSize, (linesBefore cs i ++ x.node.text).utf8ByteSize⟩
      ∧ ∃ after, printed cs = linesBefore cs i ++ x.node.text ++ after

theorem placedAsPrinted (cs : List Command) : PlacedAsPrinted cs (placedFrom 0 1 cs) where
  nodes := map_node_placedFrom 0 1 cs
  line i x h := by
    obtain ⟨-, hline, -⟩ := placedFrom_getElem? h
    rw [hline, Nat.add_comm]
  span i x h := by
    obtain ⟨hnode, -, hspan⟩ := placedFrom_getElem? h
    refine ⟨?_, printed_eq hnode⟩
    rw [hspan, String.utf8ByteSize_append, Nat.zero_add]

/-- Commands that can be read are what is read from their text, and only
such commands are ever read from a source, so that they can be printed and
read again. -/
theorem printed_parsed_inverse :
    (∀ cs : List Command, (∀ c ∈ cs, c.Readable) →
      ∃ placed, parse (printed cs) = .ok placed ∧ PlacedAsPrinted cs placed)
    ∧ ∀ (source : String) (read : List (Located Command)), parse source = .ok read →
      (∀ x ∈ read, x.node.Readable)
        ∧ ∃ again, parse (printed (read.map Located.node)) = .ok again
          ∧ again.map Located.node = read.map Located.node := by
  refine ⟨fun cs hcs => ⟨_, parse_printed hcs, placedAsPrinted cs⟩, fun source read h => ?_⟩
  have hreadable := readable_of_parse h
  have hnodes : ∀ c ∈ read.map Located.node, c.Readable := by
    intro c hc
    obtain ⟨x, hx, rfl⟩ := List.mem_map.mp hc
    exact hreadable x hx
  exact ⟨hreadable, _, parse_printed hnodes, map_node_placedFrom 0 1 _⟩

/-- A keyword, and a number behind marks, as names. -/
def oddNames : List Command := [.label "push", .function "$if.goto:1" 65535, .pop .sp 0]

theorem printed_parsed_inverse_odd :
    printed oddNames = "label push\nfunction $if.goto:1 65535\npop sp 0"
      ∧ ∃ placed, parse (printed oddNames) = .ok placed ∧ PlacedAsPrinted oddNames placed := by
  refine ⟨by decide +kernel, printed_parsed_inverse.1 oddNames ?_⟩
  simp only [oddNames, List.forall_mem_cons]
  refine ⟨⟨?_, nofun⟩, ⟨?_, nofun⟩, ⟨nofun, nofun⟩, List.forall_mem_nil _⟩
  · rintro name ⟨⟩
    decide
  · rintro name ⟨⟩
    decide

end HackVm
