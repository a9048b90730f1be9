import Mathlib.Data.List.Basic
import HackVm.Proofs.Grammar
import HackVm.Proofs.Modularity

/-!
# Well-formed assembly

An instruction is well formed if an assembler can take it: numbers fit an
address instruction, names are symbols, a compute instruction either
stores or jumps, and a comment stays on its line.

The code of a command is well formed if the command is one that can be
read (`Code.wellFormed_block`). Every operand passes through a check of
its own on the way: names through the reader, indices through
`Cell.resolve`, argument counts through `Code.ofCommand`, the names of
files through the static segment, and the entry through the bootstrap. So
the code of every program that translates is well formed
(`Job.wellFormed_code`).
-/

namespace HackVm

/-! ## Characters -/

/-- What the text of a command is made of. -/
def isRemarkChar (c : Char) : Bool := isWordChar c || c == ' '

def isRemark (s : String) : Bool := s.toList.all isRemarkChar

theorem isSymbolChar_of_isDigit {c : Char} (h : c.isDigit = true) : isSymbolChar c = true := by
  simp [isSymbolChar, Char.isAlphanum, h]

theorem isDigit_of_mem_toString {n : Nat} {c : Char} (h : c ∈ (toString n).toList) :
    c.isDigit = true := by
  rw [Nat.toString_eq_repr, Nat.toList_repr] at h
  exact Nat.isDigit_of_mem_toDigits (by omega) (by omega) h

theorem isSymbolChar_of_isSymbol {name : String} (h : isSymbol name = true) :
    ∀ c ∈ name.toList, isSymbolChar c = true := by
  intro c hc
  rw [isSymbol] at h
  cases hname : name.toList with
  | nil =>
    rw [hname] at hc
    cases hc
  | cons d rest =>
    simp only [hname, Bool.and_eq_true, List.all_eq_true] at h
    rw [hname, List.mem_cons] at hc
    rcases hc with rfl | hc
    · exact h.1.2
    · exact h.2 c hc

/-- A symbol stays one when symbol characters are added behind it. -/
theorem isSymbol_append {s t : String} (hs : isSymbol s = true)
    (ht : t.toList.all isSymbolChar = true) : isSymbol (s ++ t) = true := by
  rw [isSymbol] at hs ⊢
  rw [String.toList_append]
  cases hname : s.toList with
  | nil => simp [hname] at hs
  | cons c rest =>
    simp only [hname, Bool.and_eq_true] at hs
    simp only [List.cons_append, Bool.and_eq_true, List.all_append]
    exact ⟨hs.1, hs.2, ht⟩

theorem isSymbol_append_toString {s : String} (hs : isSymbol s = true) (n : Nat) :
    isSymbol (s ++ toString n) = true := by
  refine isSymbol_append hs (List.all_eq_true.mpr fun c hc => ?_)
  exact isSymbolChar_of_isDigit (isDigit_of_mem_toString hc)

theorem isSymbol_comparison (n : Nat) : isSymbol (Labels.comparison n) = true :=
  isSymbol_append_toString (by rfl) n

theorem isSymbol_back (n : Nat) : isSymbol (Labels.back n) = true :=
  isSymbol_append_toString (by rfl) n

theorem isSymbol_staticSymbol {file : String} (h : isSymbol file = true) (index : UInt16) :
    isSymbol (Cell.staticSymbol file index) = true :=
  isSymbol_append_toString (isSymbol_append h (by rfl)) index.toNat

/-! ## Comments -/

theorem isRemark_append {s t : String} (hs : isRemark s = true) (ht : isRemark t = true) :
    isRemark (s ++ t) = true := by
  rw [isRemark, String.toList_append, List.all_append, Bool.and_eq_true]
  exact ⟨hs, ht⟩

theorem isRemark_of_isSymbol {name : String} (h : isSymbol name = true) : isRemark name = true := by
  refine List.all_eq_true.mpr fun c hc => ?_
  simp [isRemarkChar, isWordChar, isSymbolChar_of_isSymbol h c hc]

theorem isRemark_toString (n : Nat) : isRemark (toString n) = true := by
  refine List.all_eq_true.mpr fun c hc => ?_
  simp [isRemarkChar, isWordChar, isSymbolChar_of_isDigit (isDigit_of_mem_toString hc)]

/-- Words and a number, as the commands with an index are written. -/
theorem isRemark_words {verb word : String} (hverb : isRemark verb = true)
    (hword : isRemark word = true) (n : Nat) :
    isRemark (verb ++ word ++ " " ++ toString n) = true :=
  isRemark_append (isRemark_append (isRemark_append hverb hword) rfl) (isRemark_toString n)

theorem Command.isRemark_text {c : Command} (h : c.Readable) : isRemark c.text = true := by
  cases c with
  | push s index => exact isRemark_words (by rfl) (by cases s <;> rfl) _
  | pop s index => exact isRemark_words (by rfl) (by cases s <;> rfl) _
  | operate op => cases op <;> rfl
  | label name => exact isRemark_append (by rfl) (isRemark_of_isSymbol (h.name name rfl))
  | goto name => exact isRemark_append (by rfl) (isRemark_of_isSymbol (h.name name rfl))
  | ifGoto name => exact isRemark_append (by rfl) (isRemark_of_isSymbol (h.name name rfl))
  | function name locals =>
    exact isRemark_words (by rfl) (isRemark_of_isSymbol (h.name name rfl)) _
  | call name args => exact isRemark_words (by rfl) (isRemark_of_isSymbol (h.name name rfl)) _
  | ret => rfl

/-! ## Instructions -/

def Address.isLoadable : Address → Bool
  | constant value => value.toNat ≤ Cell.largestLiteral
  | symbol name => isSymbol name

def Instruction.isWellFormed : Instruction → Bool
  | comment text => isRemark text
  | address target => target.isLoadable
  | compute dest _ jump => dest.isSome != jump.isSome
  | label name => isSymbol name

def Cell.isLoadable : Cell → Bool
  | value n => n.toNat ≤ largestLiteral
  | behind _ offset => offset.toNat ≤ largestLiteral
  | fixed address => address.isLoadable

abbrev WellFormed (code : List Instruction) : Prop := ∀ i ∈ code, i.isWellFormed = true

theorem wellFormed_nil : WellFormed [] := List.forall_mem_nil _

theorem WellFormed.append {s t : List Instruction} (hs : WellFormed s) (ht : WellFormed t) :
    WellFormed (s ++ t) :=
  List.forall_mem_append.mpr ⟨hs, ht⟩

theorem WellFormed.cons {i : Instruction} {s : List Instruction} (hi : i.isWellFormed = true)
    (hs : WellFormed s) : WellFormed (i :: s) :=
  List.forall_mem_cons.mpr ⟨hi, hs⟩

theorem Cell.isLoadable_of_resolve {file : String} {s : Segment} {index : UInt16} {c : Command}
    {cell : Cell} (h : resolve file s index c = .ok cell) : cell.isLoadable = true := by
  -- An index that becomes part of an address is checked as a literal.
  have hliteral {f : UInt16 → Cell} (hf : ∀ n, (f n).isLoadable = decide (n.toNat ≤ largestLiteral))
      (h : (literal index c).map f = .ok cell) : cell.isLoadable = true := by
    obtain ⟨n, hn, rfl⟩ := except_map_ok h
    rw [literal] at hn
    split at hn
    · rename_i hle
      cases hn
      rw [hf]
      exact decide_eq_true hle
    · cases hn
  cases s with
  | constant => exact hliteral (fun _ => rfl) h
  | locals => exact hliteral (fun _ => rfl) h
  | arguments => exact hliteral (fun _ => rfl) h
  | this => exact hliteral (fun _ => rfl) h
  | that => exact hliteral (fun _ => rfl) h
  | sp => exact hliteral (fun _ => rfl) h
  | temp =>
    rw [resolve] at h
    split at h
    · rename_i hle
      cases h
      rw [tempLast] at hle
      have hsmall : (UInt16.ofNat (tempBase + index.toNat)).toNat ≤ largestLiteral := by
        rw [toNat_ofNat_of_lt (by omega), largestLiteral]
        omega
      exact decide_eq_true hsmall
    · cases h
  | pointer =>
    rw [resolve] at h
    split at h
    · cases h
      decide
    · split at h
      · cases h
        decide
      · cases h
  | static =>
    rw [resolve] at h
    split at h
    · cases h
    · split at h
      · rename_i hfile
        cases h
        exact isSymbol_staticSymbol hfile index
      · cases h

/-! ## The code of commands -/

namespace Code

theorem isWellFormed_loadRegister (r : Register) : (loadRegister r).isWellFormed = true := by
  cases r <;> rfl

theorem wellFormed_lowerSp : WellFormed lowerSp :=
  .cons (isWellFormed_loadRegister .sp) (by decide)

theorem wellFormed_raiseSp : WellFormed raiseSp :=
  .cons (isWellFormed_loadRegister .sp) (by decide)

theorem wellFormed_atSp : WellFormed atSp :=
  .cons (isWellFormed_loadRegister .sp) (by decide)

theorem wellFormed_popD : WellFormed popD :=
  (wellFormed_lowerSp.append wellFormed_atSp).append (by decide)

theorem wellFormed_pushD : WellFormed pushD :=
  (wellFormed_atSp.append (by decide)).append wellFormed_raiseSp

theorem wellFormed_popDAtNext : WellFormed popDAtNext :=
  (wellFormed_popD.append wellFormed_lowerSp).append wellFormed_atSp

theorem wellFormed_storeD (r : Register) : WellFormed (storeD r) :=
  .cons (isWellFormed_loadRegister r) (by decide)

theorem wellFormed_fetchD (r : Register) : WellFormed (fetchD r) :=
  .cons (isWellFormed_loadRegister r) (by decide)

theorem wellFormed_loadD {value : UInt16} (h : value.toNat ≤ Cell.largestLiteral) :
    WellFormed (loadD value) :=
  .cons (decide_eq_true h) (by decide)

theorem wellFormed_push {cell : Cell} (h : cell.isLoadable = true) : WellFormed (push cell) := by
  cases cell with
  | value n => exact (wellFormed_loadD (of_decide_eq_true h)).append wellFormed_pushD
  | behind base offset =>
    have haddress : WellFormed [.load offset, .assign .a .dPlusA, .assign .d .m] :=
      .cons h (by decide)
    exact ((wellFormed_fetchD base).append haddress).append wellFormed_pushD
  | fixed address => exact WellFormed.append (.cons h (by decide)) wellFormed_pushD

theorem wellFormed_pop {c : Command} {cell : Cell} {body : List Instruction}
    (h : cell.isLoadable = true) (hbody : pop c cell = .ok body) : WellFormed body := by
  cases cell with
  | value n => cases hbody
  | behind base offset =>
    cases hbody
    have hsum : WellFormed (fetchD base ++ [.load offset, .assign .d .dPlusA]) :=
      (wellFormed_fetchD base).append (.cons h (by decide))
    exact ((hsum.append wellFormed_lowerSp).append wellFormed_atSp).append (by decide)
  | fixed address =>
    cases hbody
    exact wellFormed_popD.append (.cons h (by decide))

theorem wellFormed_binary (comp : Comp) : WellFormed (binary comp) := by
  have hresult : WellFormed [.assign .m comp] := .cons rfl wellFormed_nil
  exact (wellFormed_popDAtNext.append hresult).append wellFormed_raiseSp

theorem wellFormed_unary (comp : Comp) : WellFormed (unary comp) := by
  have hresult : WellFormed [.assign .m comp] := .cons rfl wellFormed_nil
  exact ((wellFormed_lowerSp.append wellFormed_atSp).append hresult).append wellFormed_raiseSp

theorem wellFormed_compare (jump : Jump) {done : String} (h : isSymbol done = true) :
    WellFormed (compare jump done) := by
  have hstart : WellFormed (popDAtNext ++ [.assign .d .mMinusD] ++ atSp) :=
    (wellFormed_popDAtNext.append (by decide)).append wellFormed_atSp
  have htrue : WellFormed [.assign .m .minusOne, .loadSymbol done, .jumpIf .d jump] :=
    .cons rfl (.cons h (.cons rfl wellFormed_nil))
  have hfalse : WellFormed [.assign .m .zero, .label done] := .cons rfl (.cons h wellFormed_nil)
  exact (((hstart.append htrue).append wellFormed_atSp).append hfalse).append wellFormed_raiseSp

theorem wellFormed_operate {done : String} (h : isSymbol done = true) (op : Operation) :
    WellFormed (operate done op) := by
  cases op with
  | add | sub | and | or => exact wellFormed_binary _
  | neg | not => exact wellFormed_unary _
  | eq | gt | lt => exact wellFormed_compare _ h

theorem wellFormed_goto {name : String} (h : isSymbol name = true) : WellFormed (goto name) :=
  .cons h (by decide)

theorem wellFormed_ifGoto {name : String} (h : isSymbol name = true) : WellFormed (ifGoto name) :=
  wellFormed_popD.append (.cons h (by decide))

theorem wellFormed_function {name : String} (h : isSymbol name = true) (locals : UInt16) :
    WellFormed (function name locals) := by
  refine .cons h fun i hi => ?_
  obtain ⟨zero, hzero, hi⟩ := List.mem_flatten.mp hi
  obtain rfl := List.eq_of_mem_replicate hzero
  exact (wellFormed_loadD (by decide)).append wellFormed_pushD i hi

theorem wellFormed_pushFrame {back : String} (h : isSymbol back = true) :
    WellFormed (pushFrame back) := by
  refine WellFormed.append (.append (.cons h (by decide)) wellFormed_pushD) fun i hi => ?_
  obtain ⟨r, -, hi⟩ := List.mem_flatMap.mp hi
  exact (wellFormed_fetchD r).append wellFormed_pushD i hi

theorem wellFormed_restore (r : Register) : WellFormed (restore r) :=
  WellFormed.append (.cons (isWellFormed_loadRegister .frame) (by decide)) (wellFormed_storeD r)

theorem wellFormed_ret : WellFormed ret := by
  have hlink : WellFormed (fetchD .lcl ++ storeD .frame ++
      [.load frameSize, .assign .a .dMinusA, .assign .d .m] ++ storeD .link) :=
    (((wellFormed_fetchD .lcl).append (wellFormed_storeD .frame)).append (by decide)).append
      (wellFormed_storeD .link)
  have hresult : WellFormed [loadRegister .arg, .assign .a .m, .assign .m .d] :=
    .cons (isWellFormed_loadRegister .arg) (by decide)
  have hsp : WellFormed [loadRegister .arg, .assign .d .mPlusOne] :=
    .cons (isWellFormed_loadRegister .arg) (by decide)
  have hrestore : WellFormed (savedRegisters.reverse.flatMap restore) := by
    intro i hi
    obtain ⟨r, -, hi⟩ := List.mem_flatMap.mp hi
    exact wellFormed_restore r i hi
  have hjump : WellFormed [loadRegister .link, .assign .a .m, .jumpIf .zero .jmp] :=
    .cons (isWellFormed_loadRegister .link) (by decide)
  exact (((((hlink.append wellFormed_popD).append hresult).append hsp).append
    (wellFormed_storeD .sp)).append hrestore).append hjump

/-- The way from the end of the frame to the first argument can be loaded. -/
theorem toNat_add_frameSize_le {args : UInt16} (h : args.toNat ≤ mostArguments) :
    (args + frameSize).toNat ≤ Cell.largestLiteral := by
  have hmost : mostArguments = 32762 := rfl
  have hsum : (args + frameSize).toNat = args.toNat + 5 :=
    toNat_add_ofNat (n := 5) (by omega)
  rw [hsum, Cell.largestLiteral]
  omega

theorem wellFormed_call {name back : String} {args : UInt16} (hname : isSymbol name = true)
    (hback : isSymbol back = true) (hargs : args.toNat ≤ mostArguments) :
    WellFormed (call name args back) := by
  have hoffset : WellFormed [.load (args + frameSize), .assign .d .dMinusA] :=
    .cons (decide_eq_true (toNat_add_frameSize_le hargs)) (by decide)
  have harg : WellFormed (pushFrame back ++ fetchD .sp ++
      [.load (args + frameSize), .assign .d .dMinusA] ++ storeD .arg) :=
    (((wellFormed_pushFrame hback).append (wellFormed_fetchD .sp)).append hoffset).append
      (wellFormed_storeD .arg)
  have hlcl : WellFormed (pushFrame back ++ fetchD .sp ++
      [.load (args + frameSize), .assign .d .dMinusA] ++ storeD .arg ++
      fetchD .sp ++ storeD .lcl) :=
    (harg.append (wellFormed_fetchD .sp)).append (wellFormed_storeD .lcl)
  exact (hlcl.append (wellFormed_goto hname)).append (.cons hback wellFormed_nil)

theorem wellFormed_remark {text : String} (h : isRemark text = true) (comments : Bool) :
    WellFormed (remark comments text) := by
  cases comments with
  | true => exact .cons h wellFormed_nil
  | false => exact wellFormed_nil

/-- The code of a command that can be read is well formed. -/
theorem wellFormed_ofCommand {file : String} {l : Labels} {c : Command} {body : List Instruction}
    (hc : c.Readable) (h : ofCommand file l c = .ok body) : WellFormed body := by
  cases c with
  | push s index =>
    obtain ⟨cell, hcell, rfl⟩ := except_map_ok h
    exact wellFormed_push (Cell.isLoadable_of_resolve hcell)
  | pop s index =>
    obtain ⟨cell, hcell, hpop⟩ := except_bind_ok h
    exact wellFormed_pop (Cell.isLoadable_of_resolve hcell) hpop
  | operate op =>
    cases h
    exact wellFormed_operate (isSymbol_comparison _) op
  | label name =>
    cases h
    exact .cons (hc.name name rfl) wellFormed_nil
  | goto name =>
    cases h
    exact wellFormed_goto (hc.name name rfl)
  | ifGoto name =>
    cases h
    exact wellFormed_ifGoto (hc.name name rfl)
  | function name locals =>
    cases h
    exact wellFormed_function (hc.name name rfl) locals
  | call name args =>
    rw [ofCommand] at h
    split at h
    · rename_i hargs
      cases h
      exact wellFormed_call (hc.name name rfl) (isSymbol_back _) hargs
    · cases h
  | ret =>
    cases h
    exact wellFormed_ret

theorem wellFormed_block {file : String} {comments : Bool} {l : Labels} {c : Command}
    {block : List Instruction} (hc : c.Readable) (h : Code.block file comments l c = .ok block) :
    WellFormed block := by
  obtain ⟨body, hbody, rfl⟩ := except_map_ok h
  exact (wellFormed_remark (Command.isRemark_text hc) comments).append (wellFormed_ofCommand hc hbody)

theorem wellFormed_bootstrap {entry : String} (h : isSymbol entry = true) (comments : Bool)
    (l : Labels) : WellFormed (bootstrap comments l entry) := by
  have hentry : (entryCall entry).Readable :=
    ⟨fun name hname => by cases hname; exact h, nofun⟩
  have htext := wellFormed_remark (Command.isRemark_text hentry) comments
  have hcall : WellFormed (call entry 0 (Labels.back l.calls)) :=
    wellFormed_call h (isSymbol_back l.calls) (by decide)
  have hstart : WellFormed (remark comments "bootstrap") := wellFormed_remark (by rfl) comments
  have hstack : WellFormed (loadD stackBase) := wellFormed_loadD (by decide)
  exact (((hstart.append hstack).append (wellFormed_storeD .sp)).append htext).append hcall

end Code

/-! ## The code of programs -/

theorem Source.readable_of_mem_sites {f : Source} {s : Site} (h : s ∈ f.sites) :
    s.command.Readable := by
  rw [sites] at h
  split at h
  · rename_i cs hcs
    obtain ⟨c, hc, rfl⟩ := List.mem_map.mp h
    exact readable_of_parse hcs c hc
  · cases h

theorem wellFormed_listBlocks {comments : Bool} {l : Labels} {sites : List Site}
    {blocks : List (List Instruction)} (hsites : ∀ s ∈ sites, s.command.Readable)
    (h : listBlocks comments l sites = .ok blocks) : WellFormed blocks.flatten := by
  induction sites generalizing l blocks with
  | nil =>
    cases h
    exact wellFormed_nil
  | cons s rest ih =>
    obtain ⟨block, more, hblock, hrest, rfl⟩ := listBlocks_cons_ok.mp h
    obtain ⟨hs, hsites⟩ := List.forall_mem_cons.mp hsites
    exact (Code.wellFormed_block hs hblock).append (ih hsites hrest)

namespace Job

variable {j : Job} {code : List Instruction}

theorem wellFormed_code (h : j.translate = .ok code) : WellFormed code := by
  obtain ⟨hlist, rfl⟩ := translate_ok h
  have hhead : WellFormed j.head := by
    rw [head]
    split
    · rename_i hboot
      exact Code.wellFormed_bootstrap ((j.isOk_iff.mp ⟨_, h⟩).1 hboot) _ _
    · exact wellFormed_nil
  refine hhead.append (wellFormed_listBlocks (fun s hs => ?_) hlist)
  obtain ⟨f, -, hs⟩ := List.mem_flatMap.mp hs
  exact Source.readable_of_mem_sites hs

end Job

end HackVm
