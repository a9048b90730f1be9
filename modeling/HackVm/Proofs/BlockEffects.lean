import HackVm.Proofs.StraightLine

/-!
# Single blocks, cell by cell

What the block of one command leaves in the memory, said in cells and
words and not in the terms of the stack machine, wherever the block stands
in a program (`Code.Leaves`).

A pop through a base register needs no condition at all. The sum of
address and value may wrap and the address may be that of any register:
the address is found before the stack pointer moves, and it is the only
cell that is written after that.

A comparison subtracts before it looks at the sign, so its answer is that
of the wrapped difference. The difference of two signed words wraps at
most once (`signed_sub`), and then it has the wrong sign: the answer is
the mathematical one exactly if the difference fits a word
(`truth_gt_iff`, `truth_lt_iff`).
-/

namespace HackVm

open Assembly

/-! ## Signed differences -/

section Signed

variable {x y : Word}

theorem neg_le_signed (w : Word) : -32768 ≤ signed w := w.toInt16.le_toInt

theorem signed_le (w : Word) : signed w ≤ 32767 := Int.le_of_lt_add_one w.toInt16.toInt_lt

theorem signed_sub_eq_zero : signed (x - y) = 0 ↔ x = y := by
  rw [signed_eq_zero]
  grind

/-- The difference of two words, as numbers with a sign, fits a word. -/
def DifferenceFits (x y : Word) : Prop :=
  -32768 ≤ signed x - signed y ∧ signed x - signed y ≤ 32767

/-- A difference that does not fit a word is off by all the numbers that a
word has, and so it is on the wrong side of zero. -/
theorem signed_sub (x y : Word) :
    (DifferenceFits x y ∧ signed (x - y) = signed x - signed y)
      ∨ (32767 < signed x - signed y ∧ signed (x - y) < 0)
      ∨ (signed x - signed y < -32768 ∧ 0 < signed (x - y)) := by
  have hwrap : signed (x - y) = (signed x - signed y).bmod 65536 := by
    rw [signed, UInt16.toInt16_sub, Int16.toInt_sub]
    rfl
  have hx := neg_le_signed x
  have hx' := signed_le x
  have hy := neg_le_signed y
  have hy' := signed_le y
  rw [hwrap, DifferenceFits, Int.bmod_def]
  split <;> omega

theorem truth_inj {yes yes' : Bool} : truth yes = truth yes' ↔ yes = yes' := by
  cases yes <;> cases yes' <;> decide

theorem truth_gt_iff :
    truth (0 < signed (x - y)) = truth (signed y < signed x) ↔ DifferenceFits x y := by
  have hsub := signed_sub x y
  rw [truth_inj, decide_eq_decide]
  unfold DifferenceFits at hsub ⊢
  omega

theorem truth_lt_iff :
    truth (signed (x - y) < 0) = truth (signed x < signed y) ↔ DifferenceFits x y := by
  have hsub := signed_sub x y
  rw [truth_inj, decide_eq_decide]
  unfold DifferenceFits at hsub ⊢
  omega

end Signed

/-! ## Binary operations -/

namespace Memory

variable {m : Memory}

theorem sp_lower_lower (m : Memory) : m.lower.lower.reg .sp = m.reg .sp - 2 := by
  rw [sp_lower, sp_lower]
  grind

/-- Where the operands are no registers, a binary operation lowers the
stack pointer by one and writes its result over the lower operand. -/
theorem binary_eq (hx : Free (m.reg .sp - 2)) (hy : Free (m.reg .sp - 1))
    (f : Word → Word → Word) :
    m.binary f = m.lower.put (m.reg .sp - 2) (f (m (m.reg .sp - 2)) (m (m.reg .sp - 1))) := by
  have htop : m.lower.top = m (m.reg .sp - 1) := by rw [top, sp_lower, lower_of_ne (hy .sp)]
  have htop' : m.lower.lower.top = m (m.reg .sp - 2) := by
    rw [top, sp_lower_lower, lower_of_ne (hx .sp), lower_of_ne (hx .sp)]
  have hraise : m.reg .sp - 2 + 1 = m.reg .sp - 1 := by grind
  have hpush : m.binary f = m.lower.lower.push (f m.lower.lower.top m.lower.top) :=
    m.apply_eq (.binary f)
  rw [hpush, push_eq (by rwa [sp_lower_lower]), htop, htop', sp_lower_lower, hraise]
  -- Of three writes to the stack pointer the last one stays.
  have hne : Register.sp.word ≠ m.reg .sp - 2 := (hx .sp).symm
  unfold lower setReg put
  rw [Function.update_comm hne.symm, Function.update_idem, Function.update_idem]

end Memory

/-! ## Labels of one block -/

namespace Labels

variable {l : Labels} {cmd : Command}

theorem nodup_taken : (l.taken cmd).Nodup :=
  ((issued_after l cmd).nodup_iff.mp (nodup_issued _)).of_append_left

theorem predefined?_of_mem_taken {name : String} (h : name ∈ l.taken cmd) :
    predefined? name = none :=
  predefined?_of_mem_issued ((issued_after l cmd).mem_iff.mpr (List.mem_append_left _ h))

end Labels

namespace Code

variable {cmd : Command} {c : Core} {ram : Memory}

/-- A block without a name of its own can be loaded if it is short. -/
theorem loadable_block {file : String} {comments : Bool} {l : Labels} {block : List Instruction}
    (hblock : Code.block file comments l cmd = .ok block) (hdeclared : cmd.declared? = none)
    (hshort : slots block < 32768) : Loadable block := by
  have hlabels : labels block = l.taken cmd := by
    rw [labels_block hblock, hdeclared, Option.toList_none, List.nil_append]
  refine ⟨hshort, ?_, fun name hname => ?_⟩
  · rw [hlabels]
    exact Labels.nodup_taken
  · rw [hlabels] at hname
    exact Labels.predefined?_of_mem_taken hname

/-! ## Blocks that are run through -/

/-- Every block of the command can be loaded, and wherever it stands in
loadable code the machine runs through it and leaves the memory. -/
def Leaves (cmd : Command) (c : Core) (ram : Memory) : Prop :=
  ∀ file comments l, ∃ block, Code.block file comments l cmd = .ok block ∧ Loadable block
    ∧ ∀ code p, Loadable code → Placed code p block →
      ∃ a d, Machine.Reaches (assemble code) ⟨c, p⟩ ⟨⟨a, d, ram⟩, p + slots block⟩

theorem leaves_of_effect (hdeclared : cmd.declared? = none)
    (hbody : ∀ file l, ∃ body, ofCommand file l cmd = .ok body ∧ slots body < 32768)
    (heffect : ∀ ctx, cmd.effect ctx c.ram = (ram, .next)) : Leaves cmd c ram := by
  intro file comments l
  obtain ⟨body, hbody, hshort⟩ := hbody file l
  have hblock : Code.block file comments l cmd = .ok (remark comments cmd.text ++ body) := by
    rw [Code.block, hbody]
    rfl
  have hslots : slots (remark comments cmd.text ++ body) = slots body := by
    rw [slots_append, slots_remark, Nat.zero_add]
  refine ⟨_, hblock, loadable_block hblock hdeclared (by rwa [hslots]), ?_⟩
  intro code p hcode hplaced
  have hright := hplaced.right
  rw [slots_remark] at hright
  have hleads := leads_ofCommand hcode hbody hright c
  rw [heffect] at hleads
  rw [hslots]
  exact hleads.reaches

/-- A pop through a base register leaves the stack pointer lowered, and the
value that it then names in the cell that the base led to before. -/
theorem leaves_pop_based {s : Segment} {base : Register} (hs : base? s = some base)
    {offset : Word} (hoffset : offset.toNat ≤ 32767) (c : Core) :
    let lowered := c.ram.setReg .sp (c.ram.reg .sp - 1)
    Leaves (.pop s offset) c
      (lowered.put (c.ram.reg base + offset) (lowered (lowered.reg .sp))) := by
  refine leaves_of_effect rfl (fun file l => ?_) fun ctx => ?_
  · have hliteral : Cell.literal offset (.pop s offset) = .ok offset := if_pos hoffset
    have hcell : Cell.resolve file s offset (.pop s offset) = .ok (.behind base offset) := by
      cases s <;> cases hs <;> rw [Cell.resolve, hliteral] <;> rfl
    refine ⟨_, by rw [ofCommand, hcell]; rfl, Nat.le_of_ble_eq_true rfl⟩
  · cases s <;> cases hs <;> rfl

/-- With all ones in the stack pointer an offset of 1 leads to cell 0,
which is the stack pointer itself. -/
theorem leaves_pop_based_sp :
    Leaves (.pop .sp 1) ⟨0, 0, fun x => ~~~x⟩ (Memory.setReg (fun x => ~~~x) .sp 1) := by
  have hoffset : (1 : Word).toNat ≤ 32767 := by decide
  have hpop := leaves_pop_based (s := .sp) rfl hoffset ⟨0, 0, fun x => ~~~x⟩
  have hcell : Memory.reg (fun x => ~~~x) .sp + 1 = Register.sp.word := by decide
  simp only [hcell, Memory.setReg, Memory.put, Function.update_idem] at hpop
  exact hpop

/-! ## Comparisons -/

/-- An operation on two cells that are no registers leaves the stack
pointer lowered, and its result in the lower cell. -/
theorem leaves_binary {op : Operation} {f : Word → Word → Word} (hop : op.rule = .binary f)
    (hx : 16 ≤ (c.ram.reg .sp - 2).toNat) (hy : 16 ≤ (c.ram.reg .sp - 1).toNat) :
    Leaves (.operate op) c (c.ram.lower.put (c.ram.reg .sp - 2)
      (f (c.ram (c.ram.reg .sp - 2)) (c.ram (c.ram.reg .sp - 1)))) := by
  have hfree := Memory.free_of_le hx
  have hfree' := Memory.free_of_le hy
  refine leaves_of_effect rfl (fun file l => ⟨_, rfl, ?_⟩) fun ctx => ?_
  · cases op <;> exact Nat.le_of_ble_eq_true rfl
  · have hsp : c.ram.lower.lower.reg .sp ≠ 0 := by
      rw [Memory.sp_lower_lower]
      exact hfree .sp
    rw [← Memory.binary_eq hfree hfree', Command.effect, Memory.operate_eq hsp, hop]
    rfl

/-- The answer of a comparison of the two upper cells of the stack. Equality
is answered right; the two others look at the sign of the wrapped
difference, and are right exactly if the difference fits a word. -/
theorem leaves_comparison (hx : 16 ≤ (c.ram.reg .sp - 2).toNat)
    (hy : 16 ≤ (c.ram.reg .sp - 1).toNat) :
    let x := c.ram (c.ram.reg .sp - 2)
    let y := c.ram (c.ram.reg .sp - 1)
    let answered (yes : Bool) :=
      (c.ram.setReg .sp (c.ram.reg .sp - 1)).put (c.ram.reg .sp - 2) (truth yes)
    Leaves (.operate .eq) c (answered (x = y))
      ∧ Leaves (.operate .gt) c (answered (0 < signed (x - y)))
      ∧ Leaves (.operate .lt) c (answered (signed (x - y) < 0))
      ∧ (truth (0 < signed (x - y)) = truth (signed y < signed x) ↔ DifferenceFits x y)
      ∧ (truth (signed (x - y) < 0) = truth (signed x < signed y) ↔ DifferenceFits x y) := by
  intro x y answered
  have heq := leaves_binary (rfl : Operation.eq.rule = .binary _) hx hy
  have hgt := leaves_binary (rfl : Operation.gt.rule = .binary _) hx hy
  have hlt := leaves_binary (rfl : Operation.lt.rule = .binary _) hx hy
  refine ⟨?_, hgt, hlt, truth_gt_iff, truth_lt_iff⟩
  simp only [signed_sub_eq_zero] at heq
  exact heq

/-- The greatest word, and -1 on top of it. -/
def farApart : Memory := fun a => if a = 0 then 258 else if a = 256 then 32767 else -1

theorem leaves_comparison_farApart :
    Leaves (.operate .gt) ⟨0, 0, farApart⟩ ((farApart.setReg .sp 257).put 256 0)
      ∧ signed (-1) < signed 32767 := by
  have hanswers := leaves_comparison (c := ⟨0, 0, farApart⟩) (by decide) (by decide)
  exact ⟨hanswers.2.1, by decide⟩

end Code

end HackVm
