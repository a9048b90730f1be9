import HackVm.Proofs.Modularity
import HackVm.Proofs.Tokens

/-!
# Limits of numbers

A number in a source passes three gates, each with a width of its own: the
scanner has numbers of 32 bits, a command takes machine words, and what a
segment or a call can do with a word depends on the command
(`OperandForm.limit`). A line of one command and a run of digits is taken
through them one by one, and at each the run is told by its value alone,
however long it is and whatever zeros it begins with.

Nothing is lost between two gates: the value is the same at all three of
them (`scan_line`, `parse_line`), so a number beyond all limits is never
taken for a small one.
-/

namespace HackVm

open Reader

/-! ## Numerals -/

/-- A run of decimal digits. -/
structure Numeral where
  text : String
  ne_empty : text ≠ ""
  isDigit : ∀ c ∈ text.toList, c.isDigit = true

def Numeral.value (d : Numeral) : Nat := Nat.ofDigitChars 10 d.text.toList 0

theorem Numeral.toList_ne_nil (d : Numeral) : d.text.toList ≠ [] :=
  mt String.toList_eq_nil_iff.mp d.ne_empty

theorem Numeral.exists_value (d : Numeral) (h : d.value ≤ 4294967295) :
    ∃ value : UInt32, d.value = value.toNat :=
  ⟨UInt32.ofNat d.value, (UInt32.toNat_ofNat_of_lt' (Nat.lt_succ_of_le h)).symm⟩

/-! ## Indices of segments -/

/-- The greatest index that a segment has a place for. -/
def Segment.limit : Segment → Nat
  | constant | locals | arguments | this | that | sp => 32767
  | temp => 10
  | pointer => 1
  | static => 65535

theorem Segment.limit_le (s : Segment) : s.limit ≤ 65535 := by
  cases s <;> decide

/-- The error of a word that is no index. All words are indices of static
cells. -/
def Segment.limitCode : Segment → ErrorCode
  | temp => .tempIndexOutOfRange
  | pointer => .invalidPointerIndex
  | _ => .constantOutOfRange

def Segment.limitCause (s : Segment) (index : UInt16) (c : Command) : Cause :=
  match s with
  | temp => .tempIndex index c
  | pointer => .pointerIndex index c
  | _ => .valueTooLarge index c

/-- In a file with a name, each index up to the limit has a place. -/
theorem failure?_resolve {file : String} (hfile : isSymbol file = true) (s : Segment)
    (index : UInt16) (c : Command) : failure? (Cell.resolve file s index c) =
      if index.toNat ≤ s.limit then none else some (s.limitCause index c) := by
  cases s with
  | temp =>
    have hle : Cell.tempBase + index.toNat ≤ Cell.tempLast ↔ index.toNat ≤ 10 := by
      unfold Cell.tempBase Cell.tempLast
      omega
    exact (failure?_ite _ _).trans (if_congr hle rfl rfl)
  | pointer =>
    rw [Cell.resolve, Segment.limit]
    by_cases h0 : index = 0
    · subst h0
      rfl
    by_cases h1 : index = 1
    · subst h1
      rfl
    have hgreat : ¬index.toNat ≤ 1 := by
      intro hle
      rw [← UInt16.toNat_inj] at h0 h1
      have hzero : (0 : UInt16).toNat = 0 := rfl
      have hone : (1 : UInt16).toNat = 1 := rfl
      omega
    rw [if_neg h0, if_neg h1, if_neg hgreat]
    rfl
  | static =>
    rw [Code.resolve_static_ok hfile]
    exact (if_pos (Nat.le_of_lt_succ index.toNat_lt)).symm
  | _ => exact (failure?_map _ _).trans (failure?_ite _ _)

/-- What keeps a pop from having code is that its cell has no place. -/
theorem failure?_bind_pop {s : Segment} (hs : s ≠ .constant) (file : String) (index : UInt16)
    (c : Command) : failure? ((Cell.resolve file s index c).bind (Code.pop c)) =
      failure? (Cell.resolve file s index c) := by
  cases hcell : Cell.resolve file s index c with
  | error cause => rfl
  | ok cell =>
    cases Code.resolved_of_resolve hcell with
    | constant => exact absurd rfl hs
    | _ => rfl

/-! ## Commands with a number -/

/-- The commands whose last operand is a number, without that number. -/
inductive OperandForm where
  | push (s : Segment)
  | pop (s : Segment) (h : s ≠ .constant)
  | function (name : String) (h : isSymbol name = true)
  | call (name : String) (h : isSymbol name = true)

namespace OperandForm

def verb : OperandForm → Verb
  | push _ => .push
  | pop _ _ => .pop
  | function _ _ => .function
  | call _ _ => .call

/-- The operand in front of the number. -/
def word : OperandForm → String
  | push s | pop s _ => s.keyword
  | function name _ | call name _ => name

def command : OperandForm → UInt16 → Command
  | push s, index => .push s index
  | pop s _, index => .pop s index
  | function name _, locals => .function name locals
  | call name _, args => .call name args

def limit : OperandForm → Nat
  | push s | pop s _ => s.limit
  | function _ _ => 65535
  | call _ _ => 32762

/-- The error of a greater word. A function takes all of them. -/
def limitCode : OperandForm → ErrorCode
  | push s | pop s _ => s.limitCode
  | function _ _ | call _ _ => .constantOutOfRange

def limitCause (f : OperandForm) (i : UInt16) : Cause :=
  match f with
  | push s | pop s _ => s.limitCause i (f.command i)
  | function _ _ => .valueTooLarge i (f.command i)
  | call _ _ => .tooManyArguments (f.command i)

/-- The text of the command up to its number. -/
def front (f : OperandForm) : String := f.verb.keyword ++ " " ++ f.word ++ " "

/-- The command as a source line. -/
def line (f : OperandForm) (d : Numeral) : String := f.front ++ d.text

/-- Where the number stands in the line. -/
def numberSpan (f : OperandForm) (d : Numeral) : Span :=
  ⟨f.front.utf8ByteSize, (f.line d).utf8ByteSize⟩

def lineSpan (f : OperandForm) (d : Numeral) : Span := ⟨0, (f.line d).utf8ByteSize⟩

variable (f : OperandForm) (d : Numeral) {value : UInt32}

theorem limit_le : f.limit ≤ 65535 := by
  cases f with
  | push s | pop s => exact s.limit_le
  | function | call => simp [limit]

/-! ## Scanning -/

/-- The tokens in front of the number. -/
def frontTokens : List Token := [.word f.verb.keyword, .word f.word]

theorem isSymbol_word : isSymbol f.word = true := by
  have hkeyword (s : Segment) : isSymbol s.keyword = true := by cases s <;> rfl
  cases f with
  | push s | pop s => exact hkeyword s
  | function name hname | call name hname => exact hname

theorem isWritten_of_mem_frontTokens : ∀ t ∈ f.frontTokens, t.isWritten = true := by
  have hverb (v : Verb) : isWord v.keyword = true := by
    cases v with
    | operate op => cases op <;> rfl
    | _ => rfl
  simp only [frontTokens, List.forall_mem_cons]
  exact ⟨hverb f.verb, isWord_of_isSymbol f.isSymbol_word, List.forall_mem_nil _⟩

theorem front_eq : f.front = spaced f.frontTokens ++ " " := by
  rw [front, frontTokens, spaced_cons_cons, spaced_singleton]
  rfl

theorem scans_front (rest : List Char) :
    Scans 0 f.front.toList (spread 0 f.frontTokens) rest := by
  have hwords := scans_spread f.isWritten_of_mem_frontTokens (List.cons_ne_nil _ _) 0
    (stopsAt_cons rfl _ : StopsAt isWordChar ([' '] ++ rest))
  have hblank := hwords.append (scans_space _ rest)
  rw [List.append_nil] at hblank
  rw [front_eq, String.toList_append]
  exact hblank

/-- What is scanned of the line is scanned of its number, behind the first
two tokens. -/
theorem scan_line_eq : scan (f.line d) =
    (scanFrom f.front.utf8ByteSize d.text.toList).map (spread 0 f.frontTokens ++ ·) := by
  have hfront := f.scans_front d.text.toList
  rw [Scans, Nat.zero_add, byteLength_toList] at hfront
  rw [scan, line, String.toList_append]
  exact hfront

theorem numberSpan_eq : f.numberSpan d =
    ⟨f.front.utf8ByteSize, f.front.utf8ByteSize + byteLength d.text.toList⟩ := by
  rw [numberSpan, line, String.utf8ByteSize_append, byteLength_toList]

/-- The tokens of the line, once its number is one that the scanner has. -/
def lexemes (value : UInt32) : List Lexeme :=
  spread 0 f.frontTokens ++ [⟨.integer value, f.numberSpan d⟩]

theorem scan_line (hvalue : d.value = value.toNat) : scan (f.line d) = .ok (f.lexemes d value) := by
  have hspells : Token.Spells (.integer value) d.text.toList [] :=
    .integer d.toList_ne_nil d.isDigit hvalue (stopsAt_nil _)
  rw [scan_line_eq, (hspells.scans _).whole, lexemes, numberSpan_eq]
  rfl

theorem scan_line_error (h : 4294967295 < d.value) :
    scan (f.line d) = .error ⟨.literalTooLarge d.text, f.numberSpan d⟩ := by
  have hstuck : Stuck f.front.utf8ByteSize (d.text.toList ++ []) _ :=
    .number d.toList_ne_nil d.isDigit (stopsAt_nil _) h
  rw [List.append_nil, String.ofList_toList] at hstuck
  rw [scan_line_eq, scanFrom_of_stuck hstuck, numberSpan_eq]
  rfl

/-! ## Reading -/

theorem map_token_lexemes :
    (f.lexemes d value).map Lexeme.token = f.frontTokens ++ [.integer value] := by
  rw [lexemes, List.map_append, map_token_spread]
  rfl

theorem isLine_lexemes : IsLine (f.lexemes d value) := by
  intro l hl
  rcases List.mem_append.mp hl with hl | hl
  · exact isLine_spread f.isWritten_of_mem_frontTokens 0 l hl
  · obtain rfl := List.mem_singleton.mp hl
    rfl

theorem denotes_command (h : value.toNat ≤ 65535) :
    Denotes (f.frontTokens ++ [.integer value]) (f.command value.toUInt16) := by
  cases f with
  | push s => exact .push s h
  | pop s hs => exact .pop hs h
  | function name hname => exact .function hname h
  | call name hname => exact .call hname h

theorem parse_line (hvalue : d.value = value.toNat) (h : value.toNat ≤ 65535) :
    parse (f.line d) = .ok [⟨f.command value.toUInt16, f.lineSpan d, 1⟩] := by
  have hdenotes := f.denotes_command h
  rw [← f.map_token_lexemes d] at hdenotes
  obtain ⟨first, last, hfirst, hlast, hread⟩ :=
    numberedCommand_of_denotes (f.isLine_lexemes d) hdenotes 1
  rw [lexemes, List.getLast?_concat] at hlast
  obtain rfl := Option.some.inj hfirst
  obtain rfl := Option.some.inj hlast
  have hspan : (⟨0, 0 + f.verb.keyword.utf8ByteSize⟩ : Span).merge (f.numberSpan d) =
      f.lineSpan d := by
    simp only [Span.merge, numberSpan, lineSpan, line, front, String.utf8ByteSize_append,
      Span.mk.injEq]
    omega
  rw [parse, scan_line f d hvalue, ← hspan]
  exact (readCommands_line (f.isLine_lexemes d) (List.cons_ne_nil _ _)).trans (congrArg _ hread)

theorem lineCommand_wide {l a b : Lexeme} (hl : l.token = .word f.verb.keyword)
    (ha : a.token = .word f.word) (hb : b.token = .integer value) (h : 65535 < value.toNat) :
    lineCommand [l, a, b] = .error ⟨.wideInteger value, b.span⟩ := by
  have hoperands (w : String) (n : Nat) : (operands w l.span f.verb).runAt ⟨[l], [a, b], n⟩ =
      (.error ⟨.wideInteger value, b.span⟩, ⟨[b, a, l], [], n⟩) := by
    cases f with
    | push s | pop s => exact (runAt_segment_bind ha).trans (runAt_integer_bind_wide hb h)
    | function name hname | call name hname =>
      exact (runAt_name_bind ha hname).trans (runAt_integer_bind_wide hb h)
  rw [lineCommand, runAt_command_cons l _ _ rfl, verbOf_ok.mpr ⟨hl, rfl⟩, advance_ofLexemes hl]
  simp only [hoperands]

theorem parse_line_error (hvalue : d.value = value.toNat) (h : 65535 < value.toNat) :
    parse (f.line d) = .error ⟨.wideInteger value, f.numberSpan d⟩ := by
  have hline : lineCommand (f.lexemes d value) = .error ⟨.wideInteger value, f.numberSpan d⟩ :=
    f.lineCommand_wide rfl rfl rfl h
  have hread : readCommands (f.lexemes d value) = _ :=
    readCommands_line (f.isLine_lexemes d) (List.cons_ne_nil _ _)
  rw [numberedCommand, hline] at hread
  rw [parse, scan_line f d hvalue]
  exact hread

/-! ## Translating -/

theorem failure?_ofCommand {file : String} (hfile : isSymbol file = true) (i : UInt16) :
    failure? (Code.ofCommand file {} (f.command i)) =
      if i.toNat ≤ f.limit then none else some (f.limitCause i) := by
  cases f with
  | push s => exact (failure?_map _ _).trans (failure?_resolve hfile s i _)
  | pop s hs => exact (failure?_bind_pop hs file i _).trans (failure?_resolve hfile s i _)
  | function name hname => exact (if_pos (Nat.le_of_lt_succ i.toNat_lt)).symm
  | call name hname => exact failure?_ite _ _

theorem limitCode_eq (i : UInt16) : (f.limitCause i).code = f.limitCode := by
  have hsegment (s : Segment) (c : Command) : (s.limitCause i c).code = s.limitCode := by
    cases s <;> rfl
  cases f with
  | push s | pop s => exact hsegment s _
  | function | call => rfl

variable {file : String} {fault : Fault}

theorem translate_line (hfile : isSymbol (baseName file) = true) (hvalue : d.value = value.toNat)
    (h : value.toNat ≤ 65535) : failure? (translate (f.line d) file) =
      if d.value ≤ f.limit then none else some ⟨f.limitCause value.toUInt16, f.lineSpan d⟩ := by
  have hnat : value.toUInt16.toNat = d.value := by
    rw [UInt32.toNat_toUInt16, hvalue]
    exact Nat.mod_eq_of_lt (Nat.lt_succ_of_le h)
  rw [failure?_translate, parse_line f d hvalue h]
  simp only [List.findSome?_singleton, Code.fault?, failure?_ofCommand f hfile, hnat]
  split <;> rfl

theorem translate_of_parse_error (h : parse (f.line d) = .error fault) :
    failure? (translate (f.line d) file) = some fault := by
  rw [failure?_translate, h]

theorem translate_of_scan_error (h : scan (f.line d) = .error fault) :
    failure? (translate (f.line d) file) = some fault := by
  refine f.translate_of_parse_error d ?_
  rw [parse, h]
  rfl

/-! ## All stages -/

/-- What becomes of the line, and which stage refuses a number that is too
great. -/
structure Limited (f : OperandForm) (d : Numeral) (file : String) : Prop where
  isOk_iff : (∃ code, translate (f.line d) file = .ok code) ↔ d.value ≤ f.limit
  /-- The scanner has no number of more than 32 bits. -/
  scanner : ∀ fault, translate (f.line d) file = .error fault → 4294967295 < d.value →
    scan (f.line d) = .error fault
      ∧ fault.cause.code = .integerTooLarge ∧ fault.span = f.numberSpan d
  /-- The reader has no operand of more than 16 bits. -/
  reader : ∀ fault, translate (f.line d) file = .error fault → 65535 < d.value →
    d.value ≤ 4294967295 →
    (∃ lexemes, scan (f.line d) = .ok lexemes) ∧ parse (f.line d) = .error fault
      ∧ fault.cause.code = .integerTooLarge ∧ fault.span = f.numberSpan d
  /-- All else is a matter of the command, and it is to blame as a whole. -/
  generator : ∀ fault, translate (f.line d) file = .error fault → d.value ≤ 65535 →
    (∃ cs, parse (f.line d) = .ok cs)
      ∧ fault.cause.code = f.limitCode ∧ fault.span = f.lineSpan d

/-- The value of a numeral alone decides, whatever the length of it. -/
theorem limited (hfile : isSymbol (baseName file) = true) : f.Limited d file where
  isOk_iff := by
    have hlimit := f.limit_le
    rw [← failure?_eq_none]
    rcases Nat.lt_or_ge 4294967295 d.value with hgreat | hle
    · rw [f.translate_of_scan_error d (f.scan_line_error d hgreat)]
      exact ⟨nofun, fun h => by omega⟩
    · obtain ⟨value, hvalue⟩ := d.exists_value hle
      rcases Nat.lt_or_ge 65535 d.value with hwide | hword
      · rw [f.translate_of_parse_error d (f.parse_line_error d hvalue (by omega))]
        exact ⟨nofun, fun h => by omega⟩
      · rw [f.translate_line d hfile hvalue (by omega)]
        simp
  scanner fault hfault hgreat := by
    have hscan := f.scan_line_error d hgreat
    rw [← failure?_eq_some, f.translate_of_scan_error d hscan] at hfault
    obtain rfl := Option.some.inj hfault
    exact ⟨hscan, rfl, rfl⟩
  reader fault hfault hwide hle := by
    obtain ⟨value, hvalue⟩ := d.exists_value hle
    have hparse := f.parse_line_error d hvalue (by omega)
    rw [← failure?_eq_some, f.translate_of_parse_error d hparse] at hfault
    obtain rfl := Option.some.inj hfault
    exact ⟨⟨_, f.scan_line d hvalue⟩, hparse, rfl, rfl⟩
  generator fault hfault hword := by
    obtain ⟨value, hvalue⟩ := d.exists_value (by omega)
    rw [← failure?_eq_some, f.translate_line d hfile hvalue (by omega)] at hfault
    split at hfault
    · cases hfault
    · obtain rfl := Option.some.inj hfault
      exact ⟨⟨_, f.parse_line d hvalue (by omega)⟩, f.limitCode_eq _, rfl⟩

/-- One more than a call can hand over, behind zeros. -/
def manyArguments : Numeral := ⟨"0032763", by decide, List.all_eq_true.mp (by decide)⟩

theorem limited_manyArguments :
    ∃ fault, translate "call Main.run 0032763" "Main.vm" = .error fault
      ∧ fault.cause.code = .constantOutOfRange ∧ fault.span = ⟨0, 21⟩ := by
  let f : OperandForm := .call "Main.run" (by decide)
  have hfile : isSymbol (baseName "Main.vm") = true := by decide
  have hlimited := limited f manyArguments hfile
  have hvalue : manyArguments.value = 32763 := by decide
  have hline : f.line manyArguments = "call Main.run 0032763" := by decide +kernel
  have hspan : f.lineSpan manyArguments = ⟨0, 21⟩ := by decide +kernel
  have hfails : ¬∃ code, translate (f.line manyArguments) "Main.vm" = .ok code := by
    rw [hlimited.isOk_iff, hvalue]
    decide
  rw [← hline, ← hspan]
  cases htranslate : translate (f.line manyArguments) "Main.vm" with
  | ok code => exact absurd ⟨code, htranslate⟩ hfails
  | error fault =>
    exact ⟨fault, rfl, (hlimited.generator fault htranslate (by rw [hvalue]; decide)).2⟩

end OperandForm

end HackVm
