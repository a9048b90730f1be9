import Mathlib.Data.List.Forall2
import HackVm.Proofs.Modularity

/-!
# Sessions

A session is any row of requests to one generator: files, comments,
commands and bootstraps in any order, whether they succeed or fail. What
it keeps is counted here against the blocks that were made, which the
requests alone decide: a block stands for a command, or for a bootstrap,
and a failing row of commands has made those in front of the failure,
though it returns none of them.

The invariant is a relation between labels and blocks (`MadeFrom`): each
block is made with the labels in use behind the blocks before it. One
request keeps it (`Generator.serve_makes`), hence a session does. All that
the session says about labels is read off it by induction on the blocks,
and since a label is never taken back, it holds of the blocks that were
returned as well.
-/

namespace HackVm

open Assembly

/-! ## Requests -/

inductive Request where
  | setFile (name : String)
  | withComments (wanted : Bool)
  | translate (c : Located Command)
  | translateAll (cs : List (Located Command))
  | bootstrap (entry : String)

/-- There is none where no code is asked for. -/
abbrev Answer := Option (Except Fault (List Instruction))

def Answer.code : Answer → List Instruction
  | some (.ok code) => code
  | _ => []

namespace Generator

def serve (g : Generator) : Request → Answer × Generator
  | .setFile name => (none, g.setFile name)
  | .withComments wanted => (none, g.withComments wanted)
  | .translate c => (some (g.translate c).1, (g.translate c).2)
  | .translateAll cs => (some (g.translateAll cs).1, (g.translateAll cs).2)
  | .bootstrap entry => (some (g.bootstrap entry).1, (g.bootstrap entry).2)

def serveAll (g : Generator) : List Request → Generator
  | [] => g
  | r :: rest => (g.serve r).2.serveAll rest

def answers (g : Generator) : List Request → List Answer
  | [] => []
  | r :: rest => (g.serve r).1 :: (g.serve r).2.answers rest

end Generator

/-! ## Blocks made -/

/-- The block declares the label, and no other, behind an instruction that
loads it. -/
def Issues (block : List Instruction) (name : String) : Prop :=
  labels block = [name]
    ∧ ∃ before after, block = before ++ .label name :: after ∧ .loadSymbol name ∈ before

/-- A block, made for a command or for the bootstrap. -/
structure Piece where
  /-- The bootstrap has none. -/
  command? : Option Command
  block : List Instruction

/-- The labels that a generator numbers. -/
inductive Family where
  | comparison
  | call
deriving DecidableEq

namespace Family

def name : Family → Nat → String
  | comparison => Labels.comparison
  | call => Labels.back

def inUse : Family → Labels → Nat
  | comparison => Labels.comparisons
  | call => Labels.calls

theorem name_inj {f f' : Family} {n n' : Nat} : f.name n = f'.name n' ↔ f = f' ∧ n = n' := by
  cases f with
  | comparison =>
    cases f' with
    | comparison => simp [name, Labels.comparison_inj]
    | call => simp [name, Labels.comparison_ne_back]
  | call =>
    cases f' with
    | comparison => simp [name, (Labels.comparison_ne_back n' n).symm]
    | call => simp [name, Labels.back_inj]

end Family

namespace Piece

def isComparison (p : Piece) : Bool := p.command?.any Command.isComparison

def isCall (p : Piece) : Bool := p.command?.any Command.isCall

def isCommand (p : Piece) : Bool := p.command?.isSome

def isBootstrap (p : Piece) : Bool := p.command?.isNone

/-- The family of the label that is taken for the block. -/
def family? (p : Piece) : Option Family :=
  if p.isComparison then some .comparison
  else if p.isCall || p.isBootstrap then some .call
  else none

/-- The block can be made with these labels in use. -/
def MadeAt (l : Labels) (p : Piece) : Prop :=
  match p.command? with
  | some c => ∃ file comments, Code.block file comments l c = .ok p.block
  | none => ∃ comments entry, Code.bootstrap comments l entry = p.block

end Piece

def Labels.behindPiece (l : Labels) (p : Piece) : Labels :=
  match p.command? with
  | some c => l.after c
  | none => l.takeCall.2

def piecesOf (command? : Option Command) : Except Fault (List Instruction) → List Piece
  | .ok block => [⟨command?, block⟩]
  | .error _ => []

namespace Generator

/-- The blocks of a row of commands, up to the first that fails. -/
def madeRow (g : Generator) : List (Located Command) → List Piece
  | [] => []
  | c :: rest =>
    match g.translate c with
    | (.ok block, g₁) => ⟨some c.node, block⟩ :: g₁.madeRow rest
    | (.error _, _) => []

def made (g : Generator) : Request → List Piece
  | .setFile _ | .withComments _ => []
  | .translate c => piecesOf (some c.node) (g.translate c).1
  | .translateAll cs => g.madeRow cs
  | .bootstrap entry => piecesOf none (g.bootstrap entry).1

def returned (g : Generator) (r : Request) : List Piece :=
  match (g.serve r).1 with
  | some (.ok _) => g.made r
  | _ => []

def madeAll (g : Generator) : List Request → List Piece
  | [] => []
  | r :: rest => g.made r ++ (g.serve r).2.madeAll rest

/-- The blocks returned, one row for each request. -/
def returnedAll (g : Generator) : List Request → List (List Piece)
  | [] => []
  | r :: rest => g.returned r :: (g.serve r).2.returnedAll rest

end Generator

/-! ## The label of a block -/

theorem Code.Encloses.issues {code : String → List Instruction} {s t u : List Instruction}
    (h : Encloses code s t u) {front : List Instruction} (hfront : labels front = [])
    (name : String) : Issues (front ++ code name) name := by
  rw [h.eq]
  constructor
  · have hload : labels (.loadSymbol name :: (t ++ .label name :: u)) =
        labels (t ++ .label name :: u) := rfl
    have hlabel : labels (.label name :: u) = name :: labels u := rfl
    rw [labels_append, hfront, labels_append, h.before, hload, labels_append, h.between, hlabel,
      h.behind]
    rfl
  · exact ⟨front ++ s ++ .loadSymbol name :: t, u, by simp, by simp⟩

namespace Piece

variable {l : Labels} {p : Piece} {f : Family}

theorem family?_operate (op : Operation) (block : List Instruction) :
    (Piece.mk (some (.operate op)) block).family? =
      if op.isComparison then some .comparison else none := by
  cases op <;> rfl

/-- The label of a block is the next of its family. -/
theorem issues_of_madeAt (h : p.MadeAt l) (hf : p.family? = some f) :
    Issues p.block (f.name (f.inUse l)) := by
  obtain ⟨_ | c, block⟩ := p
  · obtain ⟨comments, entry, rfl⟩ := h
    cases hf
    obtain ⟨s, t, u, hshape⟩ := Code.exists_encloses_call entry 0
    refine hshape.issues ?_ _
    cases comments <;> rfl
  · obtain ⟨file, comments, hblock⟩ := h
    obtain ⟨body, hbody, rfl⟩ := except_map_ok hblock
    have hremark := Code.labels_remark comments c.text
    cases c with
    | operate op =>
      rw [family?_operate] at hf
      split at hf
      · rename_i hop
        cases hf
        cases hbody
        obtain ⟨s, t, u, hshape⟩ := Code.exists_encloses_operate hop
        exact hshape.issues hremark _
      · cases hf
    | call name args =>
      cases hf
      obtain rfl := Code.ofCommand_call hbody
      obtain ⟨s, t, u, hshape⟩ := Code.exists_encloses_call name args
      exact hshape.issues hremark _
    | _ => cases hf

/-- A block takes one label if it has one, and that is of its family. -/
theorem inUse_behindPiece (f : Family) (l : Labels) (p : Piece) :
    f.inUse (l.behindPiece p) = f.inUse l + if p.family? = some f then 1 else 0 := by
  obtain ⟨_ | c, block⟩ := p
  · cases f <;> rfl
  · rw [Labels.behindPiece]
    simp only [Labels.after_eq]
    cases c with
    | operate op => cases op <;> cases f <;> rfl
    | _ => cases f <;> rfl

end Piece

/-! ## Rows of blocks -/

/-- Blocks made one after the other, each with the labels in use behind
those before it. -/
inductive MadeFrom : Labels → List Piece → Labels → Prop
  | nil (l : Labels) : MadeFrom l [] l
  | cons {l l' : Labels} {p : Piece} {ps : List Piece} : p.MadeAt l →
      MadeFrom (l.behindPiece p) ps l' → MadeFrom l (p :: ps) l'

namespace MadeFrom

variable {l l₁ l' : Labels} {ps qs : List Piece}

theorem append (h : MadeFrom l ps l₁) (h' : MadeFrom l₁ qs l') : MadeFrom l (ps ++ qs) l' := by
  induction h with
  | nil => exact h'
  | cons hp _ ih => exact .cons hp (ih h')

theorem inUse_eq (h : MadeFrom l ps l') (f : Family) :
    f.inUse l' = f.inUse l + ps.countP (·.family? = some f) := by
  induction h with
  | nil => rfl
  | cons hp _ ih =>
    rw [ih, Piece.inUse_behindPiece, List.countP_cons]
    simp only [decide_eq_true_eq]
    omega

/-- Whichever of the blocks are kept, the labels of a family stay in their
order. -/
theorem exists_numbers (h : MadeFrom l ps l') (hsub : qs.Sublist ps) (f : Family) :
    ∃ numbers : List Nat, numbers.Pairwise (· < ·) ∧ (∀ n ∈ numbers, f.inUse l ≤ n)
      ∧ List.Forall₂ (fun n p => Issues p.block (f.name n)) numbers
        (qs.filter (·.family? = some f)) := by
  induction h generalizing qs with
  | nil =>
    obtain rfl := List.sublist_nil.mp hsub
    exact ⟨[], .nil, nofun, .nil⟩
  | @cons l l' p ps hp _ ih =>
    cases hsub with
    | cons _ hsub =>
      -- A block that is left out raises the bound, and that is all.
      obtain ⟨numbers, hincreasing, hleast, hissues⟩ := ih hsub
      refine ⟨numbers, hincreasing, fun n hn => ?_, hissues⟩
      have hn := hleast n hn
      rw [Piece.inUse_behindPiece] at hn
      omega
    | @cons_cons qs _ _ hsub =>
      obtain ⟨numbers, hincreasing, hleast, hissues⟩ := ih hsub
      simp only [Piece.inUse_behindPiece] at hleast
      by_cases hf : p.family? = some f
      · rw [if_pos hf] at hleast
        refine ⟨f.inUse l :: numbers, List.pairwise_cons.mpr ⟨hleast, hincreasing⟩, ?_, ?_⟩
        · exact List.forall_mem_cons.mpr ⟨Nat.le_refl _, fun n hn => Nat.le_of_succ_le (hleast n hn)⟩
        · rw [List.filter_cons_of_pos (by simpa using hf)]
          exact .cons (Piece.issues_of_madeAt hp hf) hissues
      · rw [if_neg hf] at hleast
        rw [List.filter_cons_of_neg (by simpa using hf)]
        exact ⟨numbers, hincreasing, hleast, hissues⟩

/-- The labels that were taken differ from each other. -/
theorem nodup_labels (h : MadeFrom l ps l') (hsub : qs.Sublist ps) :
    ((qs.filter (·.family?.isSome)).flatMap (labels ·.block)).Nodup := by
  induction h generalizing qs with
  | nil =>
    obtain rfl := List.sublist_nil.mp hsub
    exact List.nodup_nil
  | @cons l l' p ps hp hps ih =>
    cases hsub with
    | cons _ hsub => exact ih hsub
    | @cons_cons qs _ _ hsub =>
      cases hf : p.family? with
      | none =>
        rw [List.filter_cons_of_neg (by simp [hf])]
        exact ih hsub
      | some f =>
        rw [List.filter_cons_of_pos (by simp [hf]), List.flatMap_cons,
          (Piece.issues_of_madeAt hp hf).1, List.singleton_append, List.nodup_cons]
        refine ⟨fun hmem => ?_, ih hsub⟩
        obtain ⟨q, hq, hname⟩ := List.mem_flatMap.mp hmem
        obtain ⟨hq, hsome⟩ := List.mem_filter.mp hq
        obtain ⟨f', hf'⟩ := Option.isSome_iff_exists.mp hsome
        obtain ⟨numbers, -, hleast, hissues⟩ := hps.exists_numbers hsub f'
        obtain ⟨n, hn, hissue⟩ :=
          exists_mem_of_forall₂ hissues (List.mem_filter.mpr ⟨hq, decide_eq_true hf'⟩)
        rw [hissue.1, List.mem_singleton, Family.name_inj] at hname
        obtain ⟨rfl, rfl⟩ := hname
        -- A label of the same family comes behind that of the block.
        have hbehind := hleast _ hn
        rw [Piece.inUse_behindPiece, if_pos hf] at hbehind
        omega

end MadeFrom

/-! ## What a request keeps -/

namespace Generator

variable {g g₁ g' : Generator} {ps qs : List Piece}

/-- The generator makes the blocks one after the other, and counts their
commands. -/
structure Makes (g : Generator) (ps : List Piece) (g' : Generator) : Prop where
  labels : MadeFrom g.labels ps g'.labels
  translated : g'.translated = g.translated + ps.countP Piece.isCommand

theorem makes_nil (hlabels : g'.labels = g.labels) (htranslated : g'.translated = g.translated) :
    Makes g [] g' :=
  ⟨hlabels ▸ .nil _, htranslated⟩

theorem Makes.append (h : Makes g ps g₁) (h' : Makes g₁ qs g') : Makes g (ps ++ qs) g' := by
  refine ⟨h.labels.append h'.labels, ?_⟩
  rw [h'.translated, h.translated, List.countP_append, Nat.add_assoc]

theorem translate_makes (g : Generator) (c : Located Command) :
    Makes g (piecesOf (some c.node) (g.translate c).1) (g.translate c).2 := by
  rw [translate]
  cases hblock : Code.block g.file g.comments g.labels c.node with
  | error cause => exact makes_nil rfl rfl
  | ok block => exact ⟨.cons ⟨_, _, hblock⟩ (.nil _), rfl⟩

theorem bootstrap_makes (g : Generator) (entry : String) :
    Makes g (piecesOf none (g.bootstrap entry).1) (g.bootstrap entry).2 := by
  rcases hboot : g.bootstrap entry with ⟨fault | code, g'⟩
  · rw [bootstrap] at hboot
    split at hboot
    · cases hboot
      exact makes_nil rfl rfl
    · split at hboot
      · cases hboot
      · cases hboot
        exact makes_nil rfl rfl
  · obtain ⟨-, rfl, rfl⟩ := bootstrap_ok hboot
    exact ⟨.cons ⟨_, _, rfl⟩ (.nil _), rfl⟩

theorem translateAll_snd_of_ok {c : Located Command} {block : List Instruction}
    (h : g.translate c = (.ok block, g₁)) (rest : List (Located Command)) :
    (g.translateAll (c :: rest)).2 = (g₁.translateAll rest).2 := by
  rw [translateAll, h]
  simp only
  rcases g₁.translateAll rest with ⟨fault | more, g₂⟩ <;> rfl

theorem translateAll_makes (g : Generator) (cs : List (Located Command)) :
    Makes g (g.madeRow cs) (g.translateAll cs).2 := by
  induction cs generalizing g with
  | nil => exact makes_nil rfl rfl
  | cons c rest ih =>
    have hfirst := translate_makes g c
    rw [madeRow]
    rcases hc : g.translate c with ⟨fault | block, g₁⟩
    · -- Nothing is made behind the failure.
      rw [hc] at hfirst
      rw [translateAll, hc]
      exact hfirst
    · rw [hc] at hfirst
      rw [translateAll_snd_of_ok hc]
      exact hfirst.append (ih g₁)

theorem serve_makes (g : Generator) (r : Request) : Makes g (g.made r) (g.serve r).2 := by
  cases r with
  | setFile name => exact makes_nil rfl rfl
  | withComments wanted => exact makes_nil rfl rfl
  | translate c => exact translate_makes g c
  | translateAll cs => exact translateAll_makes g cs
  | bootstrap entry => exact bootstrap_makes g entry

theorem serveAll_makes (g : Generator) (rs : List Request) :
    Makes g (g.madeAll rs) (g.serveAll rs) := by
  induction rs generalizing g with
  | nil => exact makes_nil rfl rfl
  | cons r rest ih => exact (serve_makes g r).append (ih _)

/-! ## What is returned -/

theorem returned_sublist (g : Generator) (r : Request) : (g.returned r).Sublist (g.made r) := by
  rw [returned]
  split
  · exact List.Sublist.refl _
  · exact List.nil_sublist _

theorem returnedAll_sublist (g : Generator) (rs : List Request) :
    (g.returnedAll rs).flatten.Sublist (g.madeAll rs) := by
  induction rs generalizing g with
  | nil => exact List.Sublist.refl _
  | cons r rest ih => exact (returned_sublist g r).append (ih _)

theorem translateAll_code {cs : List (Located Command)} {code : List Instruction}
    (h : (g.translateAll cs).1 = .ok code) : (g.madeRow cs).flatMap Piece.block = code := by
  induction cs generalizing g code with
  | nil =>
    cases h
    rfl
  | cons c rest ih =>
    obtain ⟨block, more, hblock, hmore, rfl⟩ := translateAll_cons_ok.mp h
    have hc : g.translate c = (.ok block, g.after c.node) := by rw [translate, hblock]
    rw [madeRow, hc]
    simp only [List.flatMap_cons, ih hmore]

/-- The code of an answer is that of the blocks it returns. -/
theorem serve_code (g : Generator) (r : Request) :
    (g.serve r).1.code = (g.returned r).flatMap Piece.block := by
  cases r with
  | setFile name => rfl
  | withComments wanted => rfl
  | translate c =>
    simp only [serve, returned, made]
    cases (g.translate c).1 with
    | error fault => rfl
    | ok block => simp [piecesOf, Answer.code]
  | translateAll cs =>
    simp only [serve, returned, made]
    cases hcs : (g.translateAll cs).1 with
    | error fault => rfl
    | ok code => exact (translateAll_code hcs).symm
  | bootstrap entry =>
    simp only [serve, returned, made]
    cases (g.bootstrap entry).1 with
    | error fault => rfl
    | ok block => simp [piecesOf, Answer.code]

theorem answers_code (g : Generator) (rs : List Request) :
    (g.answers rs).map Answer.code = (g.returnedAll rs).map (·.flatMap Piece.block) := by
  induction rs generalizing g with
  | nil => rfl
  | cons r rest ih => rw [answers, returnedAll, List.map_cons, List.map_cons, ih, serve_code]

end Generator

/-! ## Sessions -/

theorem countP_family?_comparison (ps : List Piece) :
    ps.countP (·.family? = some .comparison) = ps.countP Piece.isComparison := by
  refine List.countP_congr fun p _ => ?_
  cases h : p.isComparison <;> simp [Piece.family?, h]

theorem countP_family?_call (ps : List Piece) :
    ps.countP (·.family? = some .call) =
      ps.countP Piece.isCall + ps.countP Piece.isBootstrap := by
  induction ps with
  | nil => rfl
  | cons p ps ih =>
    have hone : (if p.family? = some .call then 1 else 0) =
        (if p.isCall then 1 else 0) + if p.isBootstrap then 1 else 0 := by
      obtain ⟨_ | c, block⟩ := p
      · rfl
      · cases c with
        | operate op => cases op <;> rfl
        | _ => rfl
    simp only [List.countP_cons, ih, decide_eq_true_eq]
    omega

/-- The numbers of a session of a fresh generator. -/
structure Numbered (rs : List Request) : Prop where
  comparisons : (Generator.serveAll {} rs).labels.comparisons =
    (Generator.madeAll {} rs).countP Piece.isComparison
  /-- A bootstrap counts as a call. -/
  calls : (Generator.serveAll {} rs).labels.calls =
    (Generator.madeAll {} rs).countP Piece.isCall
      + (Generator.madeAll {} rs).countP Piece.isBootstrap
  translated : (Generator.serveAll {} rs).translated =
    (Generator.madeAll {} rs).countP Piece.isCommand
  /-- The code of each answer is made of blocks that were made for it. -/
  code : (Generator.answers {} rs).map Answer.code =
    (Generator.returnedAll {} rs).map (·.flatMap Piece.block)
  returned : (Generator.returnedAll {} rs).flatten.Sublist (Generator.madeAll {} rs)
  /-- The labels of each family that are answered come with increasing
  numbers, each of them from the block that it was taken for. -/
  increasing : ∀ f : Family, ∃ numbers : List Nat, numbers.Pairwise (· < ·)
    ∧ List.Forall₂ (fun n p => Issues p.block (f.name n)) numbers
      ((Generator.returnedAll {} rs).flatten.filter (·.family? = some f))
  distinct : (((Generator.returnedAll {} rs).flatten.filter (·.family?.isSome)).flatMap
    (labels ·.block)).Nodup

theorem Generator.session_numbered (rs : List Request) : Numbered rs where
  comparisons := by
    have hcount := (serveAll_makes {} rs).labels.inUse_eq .comparison
    rw [countP_family?_comparison] at hcount
    exact hcount.trans (Nat.zero_add _)
  calls := by
    have hcount := (serveAll_makes {} rs).labels.inUse_eq .call
    rw [countP_family?_call] at hcount
    exact hcount.trans (Nat.zero_add _)
  translated := (serveAll_makes {} rs).translated.trans (Nat.zero_add _)
  code := answers_code {} rs
  returned := returnedAll_sublist {} rs
  increasing f := by
    obtain ⟨numbers, hincreasing, -, hissues⟩ :=
      (serveAll_makes {} rs).labels.exists_numbers (returnedAll_sublist {} rs) f
    exact ⟨numbers, hincreasing, hissues⟩
  distinct := (serveAll_makes {} rs).labels.nodup_labels (returnedAll_sublist {} rs)

end HackVm
