import Mathlib.Logic.Relation
import HackVm.Proofs.Alignment
import HackVm.Proofs.Tokens

/-!
# Blanks and comments

A source means the same however it is laid out. Carriage returns in front
of its line ends, blanks around its lines and beside other blanks, and
comments behind its lines may come and go: what is read from it, what is
wrong with it and what it is translated into stay the same.

Such an edit puts a piece into the text that the scanner drops
(`Filler`). It never stands inside a token, as there is white space on one
of its sides or the text ends there (`Loose`), and so the tokens stay the
same (`Tokenized.insert`). A piece that comes to stand in a comment or in
front of its end becomes a part of it. The rest is known of rows of the
same tokens (`Reader.mapM_numberedCommand_alike`).
-/

namespace HackVm

/-! ## Edits of the layout -/

def AtLineStart (before : List Char) : Prop := ∀ c ∈ before.getLast?, c = '\n'

/-- Here the line ends, but for carriage returns. -/
def AtLineEnd (after : List Char) : Prop :=
  ∃ returns rest, after = returns ++ rest ∧ (∀ c ∈ returns, c = '\r') ∧ ∀ c ∈ rest.head?, c = '\n'

/-- One change of the layout of a text. -/
inductive LayoutEdit : List Char → List Char → Prop
  | carriageReturn (before after : List Char) :
    LayoutEdit (before ++ '\n' :: after) (before ++ '\r' :: '\n' :: after)
  | blank {c : Char} {before after : List Char} (hc : isBlank c = true)
      (hplace : AtLineStart before ∨ AtLineEnd after
        ∨ (∃ b ∈ before.getLast?, isBlank b = true) ∨ ∃ b ∈ after.head?, isBlank b = true) :
    LayoutEdit (before ++ after) (before ++ c :: after)
  | comment {text before after : List Char} (htext : '\n' ∉ text) (hplace : AtLineEnd after) :
    LayoutEdit (before ++ after) (before ++ '/' :: '/' :: text ++ after)

/-- A piece that is put in front of some text and says nothing. -/
inductive Filler : List Char → List Char → Prop
  | blank {c : Char} (hc : isBlank c = true) (after : List Char) : Filler [c] after
  | comment {text after : List Char} (htext : '\n' ∉ text) (hafter : AtLineEnd after) :
    Filler ('/' :: '/' :: text) after

def IsSpace (c : Char) : Prop := c = '\n' ∨ isBlank c = true

/-- No token reaches from the one text into the other, as there is white
space or nothing on one side. -/
def Loose (before after : List Char) : Prop :=
  (∀ c ∈ before.getLast?, IsSpace c) ∨ ∀ c ∈ after.head?, IsSpace c

theorem Loose.of_append (front : List Char) {before after : List Char}
    (h : Loose (front ++ before) after) : Loose before after := by
  refine h.imp_left fun hfront c hc => hfront c ?_
  rw [Option.mem_def] at hc ⊢
  rw [List.getLast?_append, hc]
  rfl

theorem AtLineEnd.isSpace {after : List Char} (h : AtLineEnd after) :
    ∀ c ∈ after.head?, IsSpace c := by
  obtain ⟨returns, rest, rfl, hreturns, hrest⟩ := h
  cases returns with
  | nil => exact fun c hc => .inl (hrest c hc)
  | cons r rs =>
    rintro c ⟨⟩
    rw [hreturns r (List.mem_cons_self ..)]
    exact .inr rfl

/-- An edit puts a filler in a loose place. -/
theorem LayoutEdit.exists_filler {text text' : List Char} (h : LayoutEdit text text') :
    ∃ before gap after, text = before ++ after ∧ text' = before ++ gap ++ after
      ∧ Filler gap after ∧ Loose before after := by
  cases h with
  | carriageReturn before after =>
    refine ⟨before, ['\r'], '\n' :: after, rfl, by simp, .blank rfl _, .inr ?_⟩
    rintro c ⟨⟩
    exact .inl rfl
  | @blank c before after hc hplace =>
    refine ⟨before, [c], after, rfl, by simp, .blank hc _, ?_⟩
    rcases hplace with hstart | hend | ⟨b, hb, hblank⟩ | ⟨b, hb, hblank⟩
    · exact .inl fun d hd => .inl (hstart d hd)
    · exact .inr hend.isSpace
    · refine .inl fun d hd => .inr ?_
      rwa [← Option.mem_unique hb hd]
    · refine .inr fun d hd => .inr ?_
      rwa [← Option.mem_unique hb hd]
  | comment htext hplace =>
    exact ⟨_, _, _, rfl, rfl, .comment htext hplace, .inr hplace.isSpace⟩

/-! ## The tokens of a text -/

/-- The text is made of these tokens and of what is dropped. -/
inductive Tokenized : List Char → List Token → Prop
  | nil : Tokenized [] []
  | skip {gap text : List Char} {tokens : List Token} (hgap : Skipped gap text)
      (h : Tokenized text tokens) : Tokenized (gap ++ text) tokens
  | token {t : Token} {piece text : List Char} {tokens : List Token} (ht : t.Spells piece text)
      (h : Tokenized text tokens) : Tokenized (piece ++ text) (t :: tokens)

theorem Scanned.tokenized {offset : Nat} {text : List Char} {lexemes : List Lexeme}
    (h : Scanned [] offset text lexemes) : Tokenized text (lexemes.map Lexeme.token) := by
  induction h with
  | nil => exact .nil
  | skip hgap _ ih =>
    rw [List.append_nil] at hgap
    exact .skip hgap ih
  | token ht _ ih =>
    rw [List.append_nil] at ht
    exact .token ht ih

theorem not_isSpace_of_isWordChar {c : Char} (h : isWordChar c = true) : ¬IsSpace c := by
  rintro (rfl | hblank)
  · cases h
  · have hnot := (not_blank_of_class (p := isWordChar) rfl h).2
    rw [hblank] at hnot
    cases hnot

theorem not_isSpace_slash : ¬IsSpace '/' := by
  rintro (h | h) <;> cases h

namespace Token.Spells

variable {t : Token} {piece after : List Char}

/-- Of the text behind a token, only the first character counts. -/
theorem of_head {c : Char} {rest : List Char} (h : t.Spells piece (c :: rest)) (rest' : List Char) :
    t.Spells piece (c :: rest') := by
  cases h with
  | newline => exact .newline _
  | integer hne hdigits hvalue hafter => exact .integer hne hdigits hvalue hafter
  | word hc hletters hafter => exact .word hc hletters hafter

theorem before_filler {gap : List Char} (h : t.Spells piece after) (hgap : Filler gap after) :
    t.Spells piece (gap ++ after) := by
  have hstops : StopsAt HackVm.isWordChar (gap ++ after) := by
    cases hgap with
    | @blank c hc =>
      rintro _ ⟨⟩
      exact Bool.eq_false_iff.mpr fun hword => not_isSpace_of_isWordChar hword (.inr hc)
    | comment =>
      rintro _ ⟨⟩
      rfl
  cases h with
  | newline => exact .newline _
  | integer hne hdigits hvalue =>
    exact .integer hne hdigits hvalue (hstops.mono fun _ => isWordChar_of_isDigit)
  | word hc hletters => exact .word hc hletters hstops

/-- No place inside a token is loose. -/
theorem not_loose {front back rest : List Char} (h : t.Spells (front ++ back) after)
    (hfront : front ≠ []) (hback : back ≠ []) : ¬Loose front (back ++ rest) := by
  have ht : t ≠ .newline := by
    rintro rfl
    generalize hpiece : front ++ back = piece at h
    cases h with
    | newline =>
      rcases List.append_eq_singleton_iff.mp hpiece with ⟨hnil, -⟩ | ⟨-, hnil⟩
      · exact hfront hnil
      · exact hback hnil
  have hword := h.isWordChar ht
  rintro (hspace | hspace)
  · refine not_isSpace_of_isWordChar (hword (front.getLast hfront) ?_)
      (hspace _ (List.getLast?_eq_some_getLast hfront))
    exact List.mem_append_left back (List.getLast_mem hfront)
  · obtain ⟨d, ds, rfl⟩ := List.exists_cons_of_ne_nil hback
    exact not_isSpace_of_isWordChar (hword d (by simp)) (hspace d rfl)

end Token.Spells

namespace Tokenized

variable {text before after gap : List Char} {tokens : List Token}

theorem exists_scanned (h : Tokenized text tokens) (offset : Nat) :
    ∃ lexemes, Scanned [] offset text lexemes ∧ lexemes.map Lexeme.token = tokens := by
  induction h generalizing offset with
  | nil => exact ⟨[], .nil offset, rfl⟩
  | @skip gap text tokens hgap _ ih =>
    obtain ⟨lexemes, hscan, htokens⟩ := ih (offset + byteLength gap)
    rw [← List.append_nil text] at hgap
    exact ⟨lexemes, .skip hgap hscan, htokens⟩
  | @token t piece text tokens ht _ ih =>
    obtain ⟨lexemes, hscan, htokens⟩ := ih (offset + byteLength piece)
    rw [← List.append_nil text] at ht
    refine ⟨_, .token ht hscan, ?_⟩
    rw [List.map_cons, htokens]

/-! ## Edits keep the tokens -/

/-- Where a blank stands in front of a text, the text begins behind it. -/
theorem of_blank {c : Char} (h : Tokenized (c :: text) tokens) (hc : isBlank c = true) :
    Tokenized text tokens := by
  generalize hwhole : c :: text = whole at h
  cases h with
  | nil => cases hwhole
  | skip hgap h =>
    cases hgap with
    | blank =>
      cases hwhole
      exact h
    | comment =>
      cases hwhole
      cases hc
  | @token t piece rest tokens ht h =>
    obtain ⟨d, ds, rfl⟩ := List.exists_cons_of_ne_nil ht.ne_nil
    obtain ⟨rfl, -⟩ := List.cons_eq_cons.mp hwhole
    by_cases hline : t = .newline
    · subst hline
      cases ht
      cases hc
    · exact absurd (.inr hc) (not_isSpace_of_isWordChar (ht.isWordChar hline c (by simp)))

/-- A filler may stand in front of a text. A comment that comes to stand in
front of carriage returns takes them in. -/
theorem filler (h : Tokenized after tokens) (hgap : Filler gap after) :
    Tokenized (gap ++ after) tokens := by
  cases hgap with
  | blank hc => exact .skip (.blank hc _) h
  | @comment text _ htext hafter =>
    obtain ⟨returns, rest, rfl, hreturns, hrest⟩ := hafter
    have hbehind : Tokenized rest tokens := by
      clear htext
      induction returns with
      | nil => exact h
      | cons r rs ih =>
        obtain ⟨rfl, hrs⟩ := List.forall_mem_cons.mp hreturns
        exact ih (h.of_blank rfl) hrs
    have hremark : '\n' ∉ text ++ returns := by
      rw [List.mem_append, not_or]
      refine ⟨htext, fun hmem => ?_⟩
      cases hreturns _ hmem
    have hstops : StopsAt (· != '\n') rest := fun c hc => by simp [hrest c hc]
    have hwhole := Tokenized.skip (.comment hremark hstops) hbehind
    rwa [List.cons_append, List.cons_append, List.append_assoc] at hwhole

/-- A filler that comes to stand in a comment, or behind its last
character, is a part of it. -/
theorem inside_comment {front back : List Char} (h : Tokenized text tokens)
    (hremark : '\n' ∉ front ++ back) (hstops : StopsAt (· != '\n') text) (hgap : Filler gap after) :
    Tokenized ('/' :: '/' :: (front ++ gap ++ back) ++ text) tokens := by
  have hnone : '\n' ∉ gap := by
    cases hgap with
    | blank hc => simpa using (ne_newline_of_class (p := isBlank) rfl hc).symm
    | comment htext => simpa using htext
  rw [List.mem_append, not_or] at hremark
  exact .skip (.comment (by simp [hremark, hnone]) hstops) h

/-- A filler in a loose place changes no token. -/
theorem insert (h : Tokenized text tokens) (htext : text = before ++ after)
    (hgap : Filler gap after) (hloose : Loose before after) :
    Tokenized (before ++ gap ++ after) tokens := by
  induction h generalizing before with
  | nil =>
    obtain ⟨rfl, rfl⟩ := List.append_eq_nil_iff.mp htext.symm
    exact Tokenized.nil.filler hgap
  | @skip gap₀ text tokens hgap₀ h ih =>
    have hwhole := Tokenized.skip hgap₀ h
    rw [htext] at hwhole
    cases hgap₀ with
    | @blank c hc =>
      cases before with
      | nil => exact hwhole.filler hgap
      | cons b before =>
        obtain ⟨rfl, hrest⟩ := List.cons_eq_cons.mp htext
        have hblank : Skipped [c] (before ++ gap ++ after) := .blank hc _
        have hwhole := Tokenized.skip hblank (ih hrest (.of_append [c] hloose))
        exact hwhole
    | @comment remark _ hremark hstops =>
      match before with
      | [] => exact hwhole.filler hgap
      | [b] =>
        -- Nothing can come between the two slashes.
        obtain ⟨rfl, rfl⟩ := List.cons_eq_cons.mp htext
        rcases hloose with hspace | hspace
        · exact absurd (hspace '/' rfl) (not_isSpace_slash)
        · exact absurd (hspace '/' rfl) (not_isSpace_slash)
      | b :: b' :: front =>
        simp only [List.cons_append, List.cons.injEq] at htext
        obtain ⟨rfl, rfl, hrest⟩ := htext
        rcases List.append_eq_append_iff.mp hrest with ⟨e, rfl, rfl⟩ | ⟨back, rfl, rfl⟩
        · cases e with
          | nil =>
            have hwhole : '\n' ∉ remark ++ [] := by rwa [List.append_nil]
            have hinside := h.inside_comment hwhole hstops hgap
            simpa using hinside
          | cons d ds =>
            have hbehind := ih rfl (.of_append ('/' :: '/' :: remark) hloose)
            have hremark : Skipped ('/' :: '/' :: remark) (d :: ds ++ gap ++ after) :=
              .comment hremark hstops
            simpa using Tokenized.skip hremark hbehind
        · have hinside := h.inside_comment hremark hstops hgap
          simpa using hinside
  | @token t piece text tokens ht h ih =>
    have hwhole := Tokenized.token ht h
    rw [htext] at hwhole
    have hbehind (hbefore : before = piece) (hafter : text = after) :
        Tokenized (before ++ gap ++ after) (t :: tokens) := by
      clear htext
      subst hbefore hafter
      rw [List.append_assoc]
      exact .token (ht.before_filler hgap) (h.filler hgap)
    rcases List.append_eq_append_iff.mp htext with ⟨e, rfl, rfl⟩ | ⟨back, rfl, rfl⟩
    · cases e with
      | nil => exact hbehind (List.append_nil _) rfl
      | cons d ds =>
        have hwhole := Tokenized.token (ht.of_head _) (ih rfl (.of_append piece hloose))
        simpa using hwhole
    · by_cases hfront : before = []
      · subst hfront
        exact hwhole.filler hgap
      · by_cases hback : back = []
        · subst hback
          exact hbehind (List.append_nil _).symm rfl
        · exact absurd hloose (ht.not_loose hfront hback)

end Tokenized

/-- An edit of the layout keeps the tokens. -/
theorem LayoutEdit.tokenized {text text' : List Char} {tokens : List Token}
    (h : LayoutEdit text text') (htext : Tokenized text tokens) : Tokenized text' tokens := by
  obtain ⟨before, gap, after, rfl, rfl, hgap, hloose⟩ := h.exists_filler
  exact htext.insert rfl hgap hloose

/-- After any edits of its layout, a text is scanned into the same tokens. -/
theorem scan_edited {source source' : String} {lexemes : List Lexeme}
    (hscan : scan source = .ok lexemes)
    (h : Relation.ReflTransGen LayoutEdit source.toList source'.toList) :
    ∃ lexemes', scan source' = .ok lexemes'
      ∧ lexemes'.map Lexeme.token = lexemes.map Lexeme.token := by
  have htokens : Tokenized source'.toList (lexemes.map Lexeme.token) := by
    generalize source'.toList = text at h
    induction h with
    | refl => exact (scanFrom_eq_ok_iff.mp hscan).tokenized
    | tail _ hedit ih => exact hedit.tokenized ih
  obtain ⟨lexemes', hscan', htokens⟩ := htokens.exists_scanned 0
  exact ⟨lexemes', scanFrom_eq_ok_iff.mpr hscan', htokens⟩

/-! ## Edits change nothing -/

/-- There are related results, or on both sides the same is reported. -/
def SameAnswer {α : Type} (R : α → α → Prop) : Except Fault α → Except Fault α → Prop
  | .ok a, .ok b => R a b
  | .error e, .error f => f.diagnostic.code = e.diagnostic.code
      ∧ f.diagnostic.message = e.diagnostic.message ∧ f.diagnostic.hint = e.diagnostic.hint
  | _, _ => False

theorem Agree.sameAnswer {S : Span → Span → Prop} {α : Type} {R R' : α → α → Prop}
    {x y : Except Fault α} (h : Agree S R x y) (hR : ∀ a b, R a b → R' a b) :
    SameAnswer R' x y := by
  cases h with
  | ok h => exact hR _ _ h
  | error => exact ⟨rfl, rfl, rfl⟩

/-- Sources of the same tokens are read alike. -/
theorem agree_of_same_tokens {source source' : String} {lexemes lexemes' : List Lexeme}
    (hscan : scan source = .ok lexemes) (hscan' : scan source' = .ok lexemes')
    (h : lexemes'.map Lexeme.token = lexemes.map Lexeme.token) :
    Agree (fun _ _ => True) (List.Forall₂ (Located.Alike (fun _ _ => True) 0)) (parse source)
      (parse source') := by
  have hrows : List.Forall₂ (Lexeme.Alike fun _ _ => True) lexemes lexemes' := by
    have heq : List.Forall₂ Eq (lexemes'.map Lexeme.token) (lexemes.map Lexeme.token) := by
      rw [List.forall₂_eq_eq_eq, h]
    rw [List.forall₂_map_left_iff, List.forall₂_map_right_iff] at heq
    exact heq.flip.imp fun _ _ ht => ⟨ht, trivial⟩
  rw [parse, parse, hscan, hscan']
  show Agree _ _ (readCommands lexemes) (readCommands lexemes')
  rw [readCommands_eq, readCommands_eq]
  exact Reader.mapM_numberedCommand_alike ⟨fun _ _ => trivial, fun _ => trivial⟩ hrows 1 0

/-- A source means the same however it is laid out. If it can be cut into
tokens, any edits of its layout give a source with the same commands on the
same lines, or with the same mistake, and with the same code. -/
theorem layout_irrelevant {source source' : String} {lexemes : List Lexeme}
    (hscan : scan source = .ok lexemes)
    (h : Relation.ReflTransGen LayoutEdit source.toList source'.toList) :
    SameAnswer (List.Forall₂ fun x x' => x'.node = x.node ∧ x'.line = x.line)
        (parse source) (parse source')
      ∧ ∀ file, SameAnswer Eq (translate source file) (translate source' file) := by
  obtain ⟨lexemes', hscan', htokens⟩ := scan_edited hscan h
  have hparse := agree_of_same_tokens hscan hscan' htokens
  refine ⟨hparse.sameAnswer fun _ _ hcs => hcs.imp fun _ _ hx => ⟨hx.node, hx.line⟩, fun file => ?_⟩
  have hcode : Agree (fun _ _ => True) Eq (translate source file) (translate source' file) :=
    hparse.bind fun _ _ hcs => Generator.translateAll_alike hcs _
  exact hcode.sameAnswer fun _ _ => id

/-- Blanks beside a blank, a comment behind the first line and a carriage
return behind the comment. -/
theorem layout_irrelevant_two_lines :
    scan "pop temp 1\nnot" = .ok [⟨.word "pop", ⟨0, 3⟩⟩, ⟨.word "temp", ⟨4, 8⟩⟩,
        ⟨.integer 1, ⟨9, 10⟩⟩, ⟨.newline, ⟨10, 11⟩⟩, ⟨.word "not", ⟨11, 14⟩⟩]
      ∧ Relation.ReflTransGen LayoutEdit "pop temp 1\nnot".toList "pop \ttemp 1// é\r\nnot".toList
      ∧ SameAnswer Eq (translate "pop temp 1\nnot" "A.vm")
        (translate "pop \ttemp 1// é\r\nnot" "A.vm") := by
  have hscan : scan "pop temp 1\nnot" = .ok [⟨.word "pop", ⟨0, 3⟩⟩, ⟨.word "temp", ⟨4, 8⟩⟩,
      ⟨.integer 1, ⟨9, 10⟩⟩, ⟨.newline, ⟨10, 11⟩⟩, ⟨.word "not", ⟨11, 14⟩⟩] := by
    decide +kernel
  have hblank : LayoutEdit "pop temp 1\nnot".toList "pop \ttemp 1\nnot".toList :=
    @LayoutEdit.blank '\t' "pop ".toList "temp 1\nnot".toList rfl (.inr (.inr (.inl ⟨' ', rfl, rfl⟩)))
  have hcomment : LayoutEdit "pop \ttemp 1\nnot".toList "pop \ttemp 1// é\nnot".toList :=
    @LayoutEdit.comment " é".toList "pop \ttemp 1".toList "\nnot".toList (by decide)
      ⟨[], "\nnot".toList, rfl, List.forall_mem_nil _, by rintro c ⟨⟩; rfl⟩
  have hreturn : LayoutEdit "pop \ttemp 1// é\nnot".toList "pop \ttemp 1// é\r\nnot".toList :=
    .carriageReturn "pop \ttemp 1// é".toList "not".toList
  have hedits := ((Relation.ReflTransGen.single hblank).tail hcomment).tail hreturn
  exact ⟨hscan, hedits, (layout_irrelevant hscan hedits).2 "A.vm"⟩

end HackVm
