import HackVm.CommandLine

/-!
# Spellings of command lines

The words of a command line spell a list of arguments (`CommandLine.Spells`),
and options mean what the arguments say (`CommandLine.Options.Means`). A
reader conforms to this if the words of every command line that it accepts
spell arguments that its options mean (`CommandLine.Conforms`). Which lines it
accepts is left to the reader.

The rules leave no choice: words spell no arguments but those that
`CommandLine.readWords` makes of them (`CommandLine.spells_iff`). It reads
words one by one and the letters behind a dash one by one, and each of these
readings has its rule. So a reader that conforms is at hand
(`CommandLine.conforms_readArguments`).
-/

namespace HackVm.CommandLine

/-! ## Words and what they say -/

/-- What letters behind one dash say, and the setting that still needs its
value after them. A setting with a value attached takes all that is left. -/
inductive LettersSay : List Char → List Argument → Option Setting → Prop
  | nil : LettersSay [] [] none
  | switch {s : Switch} {c : Char} {rest : List Char} {args : List Argument}
      {awaited : Option Setting} (hc : s.letter? = some c) (hrest : LettersSay rest args awaited) :
    LettersSay (c :: rest) (.switch s :: args) awaited
  | setting {s : Setting} {c : Char} (hc : s.letter? = some c) : LettersSay [c] [] (some s)
  | value {s : Setting} {c : Char} {value : List Char} (hc : s.letter? = some c)
      (hne : value ≠ []) (hsign : value.head? ≠ some '=') :
    LettersSay (c :: value) [.setting s (String.ofList value)] none
  | signedValue {s : Setting} {c : Char} (value : List Char) (hc : s.letter? = some c) :
    LettersSay (c :: '=' :: value) [.setting s (String.ofList value)] none

/-- What a word says, and the setting that still needs its value after it. -/
inductive WordSays : String → List Argument → Option Setting → Prop
  | input {word : String} (h : looksLikeOption word = false) : WordSays word [.input word] none
  | switch (s : Switch) : WordSays ("--" ++ s.name) [.switch s] none
  | setting (s : Setting) : WordSays ("--" ++ s.name) [] (some s)
  | value (s : Setting) (value : String) :
    WordSays ("--" ++ s.name ++ "=" ++ value) [.setting s value] none
  | letters {letters : List Char} {args : List Argument} {awaited : Option Setting}
      (hne : letters ≠ []) (h : LettersSay letters args awaited) :
    WordSays ("-" ++ String.ofList letters) args awaited

/-- The words of a command line spell arguments. -/
inductive Spells : List String → List Argument → Prop
  | nil : Spells [] []
  | word {word : String} {rest : List String} {args more : List Argument}
      (hword : WordSays word args none) (hrest : Spells rest more) :
    Spells (word :: rest) (args ++ more)
  | value {word value : String} {rest : List String} {args more : List Argument} {s : Setting}
      (hword : WordSays word args (some s)) (hvalue : looksLikeOption value = false)
      (hrest : Spells rest more) :
    Spells (word :: value :: rest) (args ++ .setting s value :: more)
  | inputs (words : List String) : Spells ("--" :: words) (words.map .input)

/-- Options mean what arguments say. There is one input, a setting has the
value that it is given, if it is given one, and a switch is on if it is
among the arguments. -/
structure Options.Means (o : Options) (args : List Argument) : Prop where
  input : inputsOf args = [o.input.text]
  output : valuesOf .output args = (o.output.map Path.text).toList
  entry : valuesOf .entry args = [o.entry] ∨ valuesOf .entry args = [] ∧ o.entry = "Sys.init"
  bootstrap : valuesOf .bootstrap args = [o.bootstrap.keyword]
    ∨ valuesOf .bootstrap args = [] ∧ o.bootstrap = .auto
  noComments : o.noComments = true ↔ .switch .noComments ∈ args
  verbose : o.verbose = true ↔ .switch .verbose ∈ args
  watch : o.watch = true ↔ .switch .watch ∈ args

/-- What is known of a reader: the options of a command line that it accepts
mean what the words spell. -/
def Conforms (read : ArgumentReader) : Prop :=
  ∀ words o, read words = .ok o → ∃ args, Spells words args ∧ o.Means args

/-! ## The reader follows the rules -/

/-- What a word leaves open, unless it ends the reading. -/
def Next.awaited? : Next → Option (Option Setting)
  | anything => some none
  | value s => some (some s)
  | nothing _ => none

variable {word name : String} {words : List String} {args : List Argument} {next : Next}
  {awaited : Option Setting} {letters : List Char}

theorem lettersSay_attached {s : Setting} {c : Char} {value : List Char} (hc : s.letter? = some c)
    (hne : value ≠ []) : LettersSay (c :: value) [.setting s (attached value)] none := by
  cases value with
  | nil => exact absurd rfl hne
  | cons d rest =>
    by_cases hd : d = '='
    · subst hd
      exact .signedValue rest hc
    · have hattached : attached (d :: rest) = String.ofList (d :: rest) := by
        rw [attached]
        rintro value heq
        exact hd (List.cons.inj heq).1
      rw [hattached]
      exact .value hc hne (by simpa using hd)

theorem lettersSay_of_readLetters (h : readLetters letters = (args, next))
    (hnext : next.awaited? = some awaited) : LettersSay letters args awaited := by
  induction letters generalizing args with
  | nil =>
    cases h
    cases hnext
    exact .nil
  | cons c rest ih =>
    rw [readLetters] at h
    split at h
    · rename_i s hs
      have hc : s.letter? = some c := by simpa using List.find?_some hs
      obtain ⟨rfl, rfl⟩ := Prod.mk.inj h
      exact .switch hc (ih rfl)
    · rename_i s _ hs
      have hc : s.letter? = some c := by simpa using List.find?_some hs
      split at h
      · rename_i hrest
        cases h
        cases hnext
        rw [List.isEmpty_iff.mp hrest]
        exact .setting hc
      · rename_i hrest
        cases h
        cases hnext
        exact lettersSay_attached hc (by simpa using hrest)
    · split at h
      · cases h
        cases hnext
      · split at h <;>
        · cases h
          cases hnext

theorem wordSays_of_readName {value : Option String} (h : readName name value = (args, next))
    (hnext : next.awaited? = some awaited) :
    WordSays (value.elim ("--" ++ name) ("--" ++ name ++ "=" ++ ·)) args awaited := by
  unfold readName at h
  split at h
  · rename_i s hs
    obtain rfl : s.name = name := by simpa using List.find?_some hs
    cases h
    cases hnext
    exact .switch s
  · rename_i s _ hs
    obtain rfl : s.name = name := by simpa using List.find?_some hs
    cases h
    cases hnext
    exact .setting s
  · rename_i s v _ hs
    obtain rfl : s.name = name := by simpa using List.find?_some hs
    cases h
    cases hnext
    exact .value s v
  · split at h
    · cases h
      cases hnext
    · split at h <;>
      · cases h
        cases hnext

theorem wordSays_of_readWord (h : readWord word = (args, next))
    (hnext : next.awaited? = some awaited) : WordSays word args awaited := by
  rw [readWord] at h
  split at h
  · rename_i rest hword
    obtain rfl : word = "--" ++ String.ofList rest := by
      rw [← String.toList_inj, hword]
      simp
    have hsplit := List.takeWhile_append_dropWhile (p := (· != '=')) (l := rest)
    simp only at h
    split at h
    · rename_i hdrop
      rw [hdrop, List.append_nil] at hsplit
      have hsays := wordSays_of_readName h hnext
      rwa [hsplit] at hsays
    · rename_i sign value hdrop
      have hsign := List.head?_dropWhile_not (· != '=') rest
      rw [hdrop] at hsign hsplit
      obtain rfl : sign = '=' := by simpa using hsign
      have hrest : String.ofList rest =
          String.ofList (rest.takeWhile (· != '=')) ++ "=" ++ String.ofList value := by
        rw [← String.toList_inj]
        simpa using hsplit.symm
      have hsays := wordSays_of_readName h hnext
      rwa [hrest, ← String.append_assoc, ← String.append_assoc]
  · rename_i c rest hc hword
    obtain rfl : word = "-" ++ String.ofList (c :: rest) := by
      rw [← String.toList_inj, hword]
      simp
    exact .letters (List.cons_ne_nil _ _) (lettersSay_of_readLetters h hnext)
  · rename_i hname hletters
    cases h
    cases hnext
    refine .input ?_
    rw [looksLikeOption]
    split
    · rename_i c rest hword
      exact absurd hword (hletters c rest)
    · rfl

theorem spells_of_readWords (h : readWords words = (args, none)) : Spells words args := by
  induction words using readWords.induct generalizing args with
  | case1 =>
    cases h
    exact .nil
  | case2 word rest hword =>
    rw [readWords, if_pos hword] at h
    cases h
    rw [beq_iff_eq.mp hword]
    exact .inputs rest
  | case3 word rest hword front hread more stop hrest ih =>
    rw [readWords, if_neg hword, hread] at h
    simp only [hrest, Prod.mk.injEq] at h
    obtain ⟨rfl, rfl⟩ := h
    exact .word (wordSays_of_readWord hread rfl) (ih hrest)
  | case4 word rest hword front stop hread =>
    rw [readWords, if_neg hword, hread] at h
    cases h
  | case5 word hword front s hread =>
    rw [readWords, if_neg hword, hread] at h
    cases h
  | case6 word hword front s hread value rest hvalue =>
    rw [readWords, if_neg hword, hread] at h
    simp only [hvalue, if_true] at h
    cases h
  | case7 word hword front s hread value rest hvalue more stop hrest ih =>
    rw [readWords, if_neg hword, hread] at h
    simp only [if_neg hvalue, hrest, Prod.mk.injEq] at h
    obtain ⟨rfl, rfl⟩ := h
    exact .value (wordSays_of_readWord hread rfl) (Bool.eq_false_iff.mpr hvalue) (ih hrest)

/-! ## The rules leave no choice -/

/-- What is left open behind a word that awaits a value, or none. -/
def Next.ofAwaited : Option Setting → Next
  | none => anything
  | some s => value s

theorem find?_of_switch_letter {s : Switch} {c : Char} (h : s.letter? = some c) :
    Switch.all.find? (·.letter? == some c) = some s := by
  cases s <;> cases h <;> rfl

theorem find?_of_setting_letter {s : Setting} {c : Char} (h : s.letter? = some c) :
    Switch.all.find? (·.letter? == some c) = none
      ∧ Setting.all.find? (·.letter? == some c) = some s := by
  cases s <;> cases h
  exact ⟨rfl, rfl⟩

theorem attached_of_head_ne {value : List Char} (h : value.head? ≠ some '=') :
    attached value = String.ofList value := by
  rw [attached]
  rintro rest rfl
  exact h rfl

theorem readLetters_of_lettersSay (h : LettersSay letters args awaited) :
    readLetters letters = (args, .ofAwaited awaited) := by
  induction h with
  | nil => rfl
  | switch hc _ ih =>
    rw [readLetters, find?_of_switch_letter hc]
    simp only [ih]
  | setting hc =>
    obtain ⟨hswitch, hsetting⟩ := find?_of_setting_letter hc
    rw [readLetters, hswitch, hsetting]
    rfl
  | value hc hne hsign =>
    obtain ⟨hswitch, hsetting⟩ := find?_of_setting_letter hc
    rw [readLetters, hswitch, hsetting, ← attached_of_head_ne hsign]
    exact if_neg (by simpa using hne)
  | signedValue value hc =>
    obtain ⟨hswitch, hsetting⟩ := find?_of_setting_letter hc
    rw [readLetters, hswitch, hsetting]
    rfl

/-- No switch and no setting has a dash for a letter. -/
theorem head_ne_dash_of_lettersSay (h : LettersSay letters args awaited) :
    letters.head? ≠ some '-' := by
  cases h with
  | nil => exact nofun
  | @switch s c rest _ _ hc _ =>
    rintro ⟨⟩
    cases s <;> cases hc
  | @setting s c hc | @value s c _ hc _ _ | @signedValue s c _ hc =>
    rintro ⟨⟩
    cases s <;> cases hc

theorem readWord_of_wordSays (h : WordSays word args awaited) :
    readWord word = (args, .ofAwaited awaited) := by
  cases h with
  | input hword =>
    rw [looksLikeOption] at hword
    rw [readWord]
    split
    · simp [*] at hword
    · simp [*] at hword
    · rfl
  | switch s => cases s <;> decide +kernel
  | setting s => cases s <;> decide +kernel
  | value s value =>
    have htext : ("--" ++ s.name ++ "=" ++ value).toList =
        '-' :: '-' :: (s.name.toList ++ '=' :: value.toList) := by
      simp
    have hname : s.name.toList.all (· != '=') = true := by
      cases s <;> decide +kernel
    rw [List.all_eq_true] at hname
    have htake : (s.name.toList ++ '=' :: value.toList).takeWhile (· != '=') = s.name.toList := by
      rw [List.takeWhile_append_of_pos hname]
      simp
    have hdrop : (s.name.toList ++ '=' :: value.toList).dropWhile (· != '=') =
        '=' :: value.toList := by
      rw [List.dropWhile_append_of_pos hname]
      simp
    rw [readWord, htext]
    simp only [htake, hdrop, String.ofList_toList]
    cases s <;> rfl
  | @letters letters _ _ hne h =>
    obtain ⟨c, rest, rfl⟩ := List.exists_cons_of_ne_nil hne
    have htext : ("-" ++ String.ofList (c :: rest)).toList = '-' :: c :: rest := by simp
    rw [readWord, htext]
    split
    · rename_i heq
      obtain ⟨rfl, -⟩ := List.cons.inj (List.cons.inj heq).2
      exact absurd rfl (head_ne_dash_of_lettersSay h)
    · rename_i heq
      obtain ⟨rfl, rfl⟩ := List.cons.inj (List.cons.inj heq).2
      exact readLetters_of_lettersSay h
    · rename_i hother
      exact absurd rfl (hother c rest)

theorem ne_dashes_of_wordSays (h : WordSays word args awaited) : word ≠ "--" := by
  rintro rfl
  have hread := readWord_of_wordSays h
  rw [show readWord "--" = ([], .nothing .usage) by decide +kernel] at hread
  cases awaited <;> cases hread

/-- The words of a command line spell arguments exactly if these are what is
read; so they spell no others. -/
theorem spells_iff : Spells words args ↔ readWords words = (args, none) := by
  refine ⟨fun h => ?_, spells_of_readWords⟩
  induction h with
  | nil => rfl
  | word hword _ ih =>
    rw [readWords, if_neg (by simpa using ne_dashes_of_wordSays hword), readWord_of_wordSays hword]
    simp only [Next.ofAwaited, ih]
  | value hword hvalue _ ih =>
    rw [readWords, if_neg (by simpa using ne_dashes_of_wordSays hword), readWord_of_wordSays hword]
    simp only [Next.ofAwaited, hvalue, ih, Bool.false_eq_true, if_false]
  | inputs words =>
    rw [readWords, if_pos (beq_self_eq_true _)]

/-! ## Options of arguments -/

theorem ofKeyword?_eq_some {word : String} {mode : BootstrapMode}
    (h : BootstrapMode.ofKeyword? word = some mode) : mode.keyword = word := by
  simpa using List.find?_some h

/-- What is not said twice is said once or not at all. -/
theorem toList_head?_of_length_le_one {α : Type} {xs : List α} (h : xs.length ≤ 1) :
    xs.head?.toList = xs := by
  match xs, h with
  | [], _ => rfl
  | [x], _ => rfl

theorem means_of_optionsOf? {o : Options} (hconsistent : consistent args = true)
    (h : optionsOf? args = some o) : o.Means args := by
  simp only [consistent, Bool.and_eq_true, decide_eq_true_eq, List.all_eq_true] at hconsistent
  obtain ⟨⟨⟨⟨hinputs, hvalues⟩, -⟩, -⟩, hmodes⟩ := hconsistent
  have hvalue (s : Setting) : (valueOf? s args).toList = valuesOf s args :=
    toList_head?_of_length_le_one (hvalues s (by cases s <;> simp [Setting.all]))
  have hinput := toList_head?_of_length_le_one hinputs
  obtain ⟨input, hhead, rfl⟩ := Option.map_eq_some_iff.mp h
  constructor
  · rw [← hinput, hhead]
    rfl
  · rw [← hvalue .output]
    cases valueOf? .output args <;> rfl
  · rw [← hvalue .entry]
    cases valueOf? .entry args with
    | none => exact .inr ⟨rfl, rfl⟩
    | some entry => exact .inl rfl
  · rw [← hvalue .bootstrap] at hmodes ⊢
    cases hword : valueOf? .bootstrap args with
    | none => exact .inr ⟨rfl, rfl⟩
    | some word =>
      rw [hword] at hmodes
      obtain ⟨mode, hmode⟩ := Option.isSome_iff_exists.mp (hmodes word (List.mem_singleton_self _))
      refine .inl ?_
      simp [hmode, ofKeyword?_eq_some hmode]
  · simp
  · simp
  · simp

/-- The options of a command line that is accepted mean what its words
spell. -/
theorem conforms_readArguments : Conforms readArguments := by
  intro words o h
  rw [readArguments, parse] at h
  rcases hread : readWords words with ⟨args, stop⟩
  simp only [hread] at h
  split at h
  · cases h
  · rename_i hconsistent
    split at h
    · cases h
    · rename_i o' hoptions
      cases h
      exact ⟨args, spells_iff.mpr hread,
        means_of_optionsOf? (by simpa using hconsistent) hoptions⟩
    · cases h

end HackVm.CommandLine
