import HackVm.Proofs.WellFormed

/-!
# Reading the text of a program

The text of a program has one line for each instruction, and these lines
can be told apart: a comment begins with two slashes and a blank, a label
stands in parentheses, an address behind an at sign, and all else is a
computation, with at most one equals sign and at most one semicolon. So a
reader that knows nothing of the translation reads the instructions back
(`Instruction.ofText?_render`).

It needs what well-formed code has. A line end in a comment would make two
lines of one, a symbol that a digit begins would be read as a number, and
a number above the largest literal is none that the machine can load.
-/

namespace HackVm

/-! ## The reader -/

/-- An address that a digit begins is a number, and else it is a symbol. -/
def Address.ofChars? : List Char → Option Address
  | [] => none
  | c :: rest =>
    if c.isDigit then
      let value := Nat.ofDigitChars 10 (c :: rest) 0
      if rest.all Char.isDigit && value ≤ Cell.largestLiteral then
        some (.constant (UInt16.ofNat value))
      else none
    else
      let name := String.ofList (c :: rest)
      if isSymbol name then some (.symbol name) else none

namespace Instruction

/-- A computation and the jump behind it. -/
def operation? (line : List Char) : Option (Comp × Option Jump) :=
  match line.splitOn ';' with
  | [comp] => (Comp.ofMnemonic? (String.ofList comp)).map (·, none)
  | [comp, jump] => do
    let x ← Comp.ofMnemonic? (String.ofList comp)
    let y ← Jump.ofMnemonic? (String.ofList jump)
    return (x, some y)
  | _ => none

/-- A line `[dest=]comp[;jump]`. -/
def ofCompute? (line : List Char) : Option Instruction :=
  match line.splitOn '=' with
  | [rest] => (operation? rest).map fun (comp, jump) => .compute none comp jump
  | [dest, rest] => do
    let x ← Dest.ofMnemonic? (String.ofList dest)
    let (comp, jump) ← operation? rest
    return .compute (some x) comp jump
  | _ => none

def ofLine? : List Char → Option Instruction
  | '/' :: '/' :: ' ' :: text => some (.comment (String.ofList text))
  | '(' :: rest =>
    let name := String.ofList rest.dropLast
    if rest.getLast? = some ')' && isSymbol name then some (.label name) else none
  | '@' :: rest => (Address.ofChars? rest).map .address
  | line => ofCompute? line

/-- A text of lines, each closed by a line end. -/
def ofText? (text : String) : Option (List Instruction) :=
  let pieces := text.toList.splitOn '\n'
  if pieces.getLast? = some [] then pieces.dropLast.mapM ofLine? else none

end Instruction

/-! ## Addresses -/

theorem ofChars?_constant {value : UInt16} (h : value.toNat ≤ Cell.largestLiteral) :
    Address.ofChars? (toString value.toNat).toList = some (.constant value) := by
  have hdigits : ∀ c ∈ (toString value.toNat).toList, c.isDigit = true :=
    fun _ hc => isDigit_of_mem_toString hc
  have hvalue : Nat.ofDigitChars 10 (toString value.toNat).toList 0 = value.toNat := by
    rw [Nat.toString_eq_repr, Nat.toList_repr, Nat.ofDigitChars_ten_toDigits]
  -- There is a first digit, and it is what makes the address a number.
  cases hchars : (toString value.toNat).toList with
  | nil =>
    rw [Nat.toString_eq_repr, Nat.toList_repr] at hchars
    exact absurd hchars Nat.toDigits_ne_nil
  | cons c rest =>
    rw [hchars] at hdigits hvalue
    obtain ⟨hc, hrest⟩ := List.forall_mem_cons.mp hdigits
    rw [Address.ofChars?, if_pos hc, hvalue, List.all_eq_true.mpr hrest]
    simp [h]

theorem ofChars?_symbol {name : String} (h : isSymbol name = true) :
    Address.ofChars? name.toList = some (.symbol name) := by
  have hname := h
  rw [isSymbol] at hname
  cases hchars : name.toList with
  | nil => simp [hchars] at hname
  | cons c rest =>
    simp only [hchars, Bool.and_eq_true, Bool.not_eq_true'] at hname
    have hback : String.ofList (c :: rest) = name := by rw [← hchars, String.ofList_toList]
    simp [Address.ofChars?, hname.1.1, hback, h]

theorem ofChars?_text {a : Address} (h : a.isLoadable = true) :
    Address.ofChars? a.text.toList = some a := by
  cases a with
  | constant value => exact ofChars?_constant (of_decide_eq_true h)
  | symbol name => exact ofChars?_symbol h

/-! ## Computations -/

theorem not_mem_of_forall {p : Char → Bool} {s : List Char} (h : ∀ c ∈ s, p c = true) {c : Char}
    (hc : p c = false) : c ∉ s := by
  intro hmem
  rw [h c hmem] at hc
  cases hc

theorem splitOn_pair {sep : Char} {s t : List Char} (hs : sep ∉ s) (ht : sep ∉ t) :
    (s ++ sep :: t).splitOn sep = [s, t] := by
  have hboth : ∀ l ∈ [s, t], sep ∉ l := by simp [hs, ht]
  have hsplit := List.splitOn_intercalate sep hboth (List.cons_ne_nil _ _)
  simpa using hsplit

/-- What the mnemonics are made of. -/
def isMnemonicChar (c : Char) : Bool := c.isAlphanum || ['+', '-', '!', '&', '|'].contains c

theorem Dest.isMnemonicChar_of_mem (x : Dest) :
    ∀ c ∈ x.mnemonic.toList, isMnemonicChar c = true :=
  List.all_eq_true.mp (by cases x <;> rfl)

theorem Comp.isMnemonicChar_of_mem (x : Comp) :
    ∀ c ∈ x.mnemonic.toList, isMnemonicChar c = true :=
  List.all_eq_true.mp (by cases x <;> rfl)

theorem Jump.isMnemonicChar_of_mem (x : Jump) :
    ∀ c ∈ x.mnemonic.toList, isMnemonicChar c = true :=
  List.all_eq_true.mp (by cases x <;> rfl)

namespace Instruction

/-- The text of a computation and the jump behind it. -/
def operationText (comp : Comp) (jump : Option Jump) : List Char :=
  comp.mnemonic.toList ++ jump.elim [] fun x => ';' :: x.mnemonic.toList

theorem toList_text_compute (dest : Option Dest) (comp : Comp) (jump : Option Jump) :
    (compute dest comp jump).text.toList =
      (dest.elim [] fun x => x.mnemonic.toList ++ ['=']) ++ operationText comp jump := by
  cases dest <;> cases jump <;> simp [text, operationText]

theorem operation?_text (comp : Comp) (jump : Option Jump) :
    operation? (operationText comp jump) = some (comp, jump) := by
  have hcomp : ';' ∉ comp.mnemonic.toList := not_mem_of_forall comp.isMnemonicChar_of_mem (by decide)
  cases jump with
  | none =>
    have hsplit := List.splitOn_eq_singleton hcomp
    simp [operation?, operationText, hsplit, Comp.ofMnemonic?_mnemonic]
  | some x =>
    have hx : ';' ∉ x.mnemonic.toList := not_mem_of_forall x.isMnemonicChar_of_mem (by decide)
    have hsplit := splitOn_pair hcomp hx
    simp [operation?, operationText, hsplit, Comp.ofMnemonic?_mnemonic, Jump.ofMnemonic?_mnemonic]

theorem isOperationChar_of_mem {comp : Comp} {jump : Option Jump} :
    ∀ c ∈ operationText comp jump, (isMnemonicChar c || c == ';') = true := by
  intro c hc
  rw [operationText, List.mem_append] at hc
  rcases hc with hc | hc
  · simp [comp.isMnemonicChar_of_mem c hc]
  · cases jump with
    | none => cases hc
    | some x =>
      rcases List.mem_cons.mp hc with rfl | hc
      · decide
      · simp [x.isMnemonicChar_of_mem c hc]

theorem ofCompute?_text (dest : Option Dest) (comp : Comp) (jump : Option Jump) :
    ofCompute? (compute dest comp jump).text.toList = some (compute dest comp jump) := by
  have hrest : '=' ∉ operationText comp jump := not_mem_of_forall isOperationChar_of_mem (by decide)
  rw [toList_text_compute, ofCompute?]
  cases dest with
  | none =>
    have hsplit := List.splitOn_eq_singleton hrest
    simp [hsplit, operation?_text]
  | some x =>
    have hx : '=' ∉ x.mnemonic.toList := not_mem_of_forall x.isMnemonicChar_of_mem (by decide)
    have hsplit := splitOn_pair hx hrest
    simp [hsplit, operation?_text, Dest.ofMnemonic?_mnemonic]

theorem isComputeChar_of_mem (dest : Option Dest) (comp : Comp) (jump : Option Jump) :
    ∀ c ∈ (compute dest comp jump).text.toList,
      (isMnemonicChar c || c == ';' || c == '=') = true := by
  intro c hc
  rw [toList_text_compute, List.mem_append] at hc
  rcases hc with hc | hc
  · cases dest with
    | none => cases hc
    | some x =>
      rcases List.mem_append.mp hc with hc | hc
      · simp [x.isMnemonicChar_of_mem c hc]
      · obtain rfl := List.mem_singleton.mp hc
        decide
  · rw [isOperationChar_of_mem c hc, Bool.true_or]

/-! ## Lines -/

/-- A line that nothing marks as another kind is a computation. -/
theorem ofLine?_compute (dest : Option Dest) (comp : Comp) (jump : Option Jump) :
    ofLine? (compute dest comp jump).text.toList = some (compute dest comp jump) := by
  have hchars := isComputeChar_of_mem dest comp jump
  rw [← ofCompute?_text]
  generalize (compute dest comp jump).text.toList = line at hchars
  unfold ofLine?
  split
  · exact absurd (hchars '/' (List.mem_cons_self ..)) (by decide)
  · exact absurd (hchars '(' (List.mem_cons_self ..)) (by decide)
  · exact absurd (hchars '@' (List.mem_cons_self ..)) (by decide)
  · rfl

theorem ofLine?_text {i : Instruction} (h : i.isWellFormed = true) :
    ofLine? i.text.toList = some i := by
  cases i with
  | comment t => simp [text, ofLine?]
  | address target => simp [text, ofLine?, ofChars?_text h]
  | compute dest comp jump => exact ofLine?_compute dest comp jump
  | label name =>
    have hname : isSymbol name = true := h
    simp [text, ofLine?, hname]

/-- The text of a well-formed instruction is one line. -/
theorem lineEnd_not_mem_text {i : Instruction} (h : i.isWellFormed = true) :
    '\n' ∉ i.text.toList := by
  cases i with
  | comment t =>
    have ht : '\n' ∉ t.toList := not_mem_of_forall (List.all_eq_true.mp h) (by decide)
    simp [text, ht]
  | address target =>
    cases target with
    | constant value =>
      have hvalue : '\n' ∉ (toString value.toNat).toList :=
        not_mem_of_forall (fun _ hc => isDigit_of_mem_toString hc) (by decide)
      simpa [text, Address.text] using hvalue
    | symbol name =>
      have hname : '\n' ∉ name.toList := not_mem_of_forall (isSymbolChar_of_isSymbol h) (by decide)
      simp [text, Address.text, hname]
  | compute dest comp jump => exact not_mem_of_forall (isComputeChar_of_mem dest comp jump) (by decide)
  | label name =>
    have hname : '\n' ∉ name.toList := not_mem_of_forall (isSymbolChar_of_isSymbol h) (by decide)
    simp [text, hname]

end Instruction

/-! ## Texts -/

theorem toList_render (code : List Instruction) :
    (render code).toList = ['\n'].intercalate (code.map (·.text.toList) ++ [[]]) := by
  induction code with
  | nil => rfl
  | cons i rest ih =>
    have hcons : render (i :: rest) = i.text ++ "\n" ++ render rest := by
      simp [render]
    -- The piece behind the last line end keeps the rest from being empty.
    obtain ⟨line, lines, hlines⟩ :=
      List.exists_cons_of_ne_nil (show rest.map (·.text.toList) ++ [[]] ≠ [] by simp)
    rw [hcons, String.toList_append, String.toList_append, ih, List.map_cons, List.cons_append,
      hlines, List.intercalate_cons_cons]
    rfl

theorem splitOn_render {code : List Instruction} (h : WellFormed code) :
    (render code).toList.splitOn '\n' = code.map (·.text.toList) ++ [[]] := by
  rw [toList_render]
  refine List.splitOn_intercalate '\n' (fun line hline => ?_) (by simp)
  rcases List.mem_append.mp hline with hline | hline
  · obtain ⟨i, hi, rfl⟩ := List.mem_map.mp hline
    exact Instruction.lineEnd_not_mem_text (h i hi)
  · obtain rfl := List.mem_singleton.mp hline
    exact List.not_mem_nil

theorem mapM_ofLine? {code : List Instruction} (h : WellFormed code) :
    (code.map (·.text.toList)).mapM Instruction.ofLine? = some code := by
  induction code with
  | nil => rfl
  | cons i rest ih =>
    obtain ⟨hi, hrest⟩ := List.forall_mem_cons.mp h
    simp [Instruction.ofLine?_text hi, ih hrest]

/-- Well-formed code can be read back from its text. -/
theorem Instruction.ofText?_render {code : List Instruction} (h : WellFormed code) :
    ofText? (render code) = some code := by
  simp [ofText?, splitOn_render h, mapM_ofLine? h]

/-! ## Translated programs -/

/-- Code that an assembler can take, and whose text loses nothing of it. -/
structure ReadsBack (code : List Instruction) : Prop where
  constant : ∀ value, .address (.constant value) ∈ code → value.toNat ≤ 32767
  symbol : ∀ name, .address (.symbol name) ∈ code → isSymbol name = true
  label : ∀ name, .label name ∈ code → isSymbol name = true
  /-- A computation either stores or jumps. -/
  compute : ∀ dest comp jump, .compute dest comp jump ∈ code → dest.isSome = jump.isNone
  comment : ∀ text, .comment text ∈ code → '\n' ∉ text.toList ∧ '\r' ∉ text.toList
  /-- One line for each instruction, and nothing behind the last line end. -/
  lines : (render code).toList.splitOn '\n' = code.map (·.text.toList) ++ [[]]
  read : Instruction.ofText? (render code) = some code

theorem WellFormed.readsBack {code : List Instruction} (h : WellFormed code) : ReadsBack code where
  constant _ hmem := of_decide_eq_true (h _ hmem)
  symbol _ hmem := h _ hmem
  label _ hmem := h _ hmem
  compute dest _ jump hmem := by
    have hone : (dest.isSome != jump.isSome) = true := h _ hmem
    cases dest <;> cases jump <;> first | rfl | cases hone
  comment _ hmem :=
    have hchars := List.all_eq_true.mp (h _ hmem)
    ⟨not_mem_of_forall hchars (by decide), not_mem_of_forall hchars (by decide)⟩
  lines := splitOn_render h
  read := Instruction.ofText?_render h

namespace Job

variable {j : Job} {code : List Instruction}

/-- What a program translates to can be loaded and read back, so that
programs with the same text have the same instructions. -/
theorem render_faithful (h : j.translate = .ok code) :
    ReadsBack code ∧ ∀ {j' : Job} {code' : List Instruction},
      j'.translate = .ok code' → render code' = render code → code' = code := by
  have hread := (wellFormed_code h).readsBack
  refine ⟨hread, fun {j' code'} h' htext => ?_⟩
  have hread' := (wellFormed_code h').readsBack.read
  rw [htext, hread.read] at hread'
  exact (Option.some.inj hread').symm

/-- A loop, followed on its last line by some more text. -/
def loopAnd (more : String) : Job :=
  ⟨{}, false, [⟨"A.vm", "label L\npush static 7\ngoto L" ++ more⟩]⟩

theorem render_faithful_loop :
    ReadsBack (loopAnd "").output ∧ (loopAnd " // again").output = (loopAnd "").output := by
  obtain ⟨hread, hsame⟩ := render_faithful (j := loopAnd "") (translate_output (by decide +kernel))
  exact ⟨hread, hsame (translate_output (by decide +kernel)) (by decide +kernel)⟩

end Job

end HackVm
