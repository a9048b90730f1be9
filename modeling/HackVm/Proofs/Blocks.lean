import HackVm.Proofs.Moves
import HackVm.Proofs.Results

/-!
# One command, one block

The block of a command, wherever it stands in loadable code, carries out
the command: from its first slot the machine goes to where the command
leads, and leaves the memory as the command does (`leads_ofCommand`).
Nothing is assumed of the registers or of the memory before.

Most blocks are straight and follow from their symbolic execution. The
others are cut at their jump: a comparison jumps over the code that
answers false, and jumps, calls and returns end their block.
-/

namespace HackVm

open Assembly

/-- The slot that an exit leads to, for a command with the given slot
behind its code. -/
def Exit.slot (code : List Instruction) (behind : Nat) : Exit → Nat
  | next => behind
  | label name => (valueOf code name).toNat
  | back slot => slot.toNat

namespace Code

/-- What the code around a command of a file makes of its static cells and
of the slot behind it. -/
def context (code : List Instruction) (file : String) (behind : Nat) : Context :=
  ⟨fun index => valueOf code (Cell.staticSymbol file index), UInt16.ofNat behind⟩

/-- From slot `p` the machine reaches slot `q` with the given memory, in at
least `n` steps. -/
def Leads (code : List Instruction) (n : Nat) (c : Core) (p : Nat) (ram : Memory) (q : Nat) :
    Prop :=
  ∃ k a d, n ≤ k ∧ Machine.run (assemble code) k ⟨c, p⟩ = some ⟨⟨a, d, ram⟩, q⟩

section Leads

variable {code s t : List Instruction} {n k p q : Nat} {c : Core} {ram : Memory}

theorem leads_refl (a d : Word) : Leads code 0 ⟨a, d, ram⟩ p ram p :=
  ⟨0, a, d, Nat.le_refl 0, rfl⟩

theorem Leads.mono (h : Leads code k c p ram q) (hle : n ≤ k) : Leads code n c p ram q := by
  obtain ⟨k', a, d, hk, hrun⟩ := h
  exact ⟨k', a, d, Nat.le_trans hle hk, hrun⟩

theorem Leads.reaches (h : Leads code n c p ram q) :
    ∃ a d, Machine.Reaches (assemble code) ⟨c, p⟩ ⟨⟨a, d, ram⟩, q⟩ := by
  obtain ⟨k, a, d, -, hrun⟩ := h
  exact ⟨a, d, Machine.run_reaches hrun⟩

theorem Leads.trans {ram' : Memory} {r : Nat} (h : Leads code n c p ram q)
    (hrest : ∀ a d, Leads code k ⟨a, d, ram⟩ q ram' r) : Leads code (n + k) c p ram' r := by
  obtain ⟨n', a, d, hn, hrun⟩ := h
  obtain ⟨k', a', d', hk, hrun'⟩ := hrest a d
  exact ⟨n' + k', a', d', Nat.add_le_add hn hk, Machine.run_trans hrun hrun'⟩

theorem leads_straight (h : Placed code p s) (hs : isStraight s = true)
    (hram : (exec (valueOf code) s c).ram = ram) : Leads code (slots s) c p ram (p + slots s) := by
  subst hram
  exact ⟨_, _, _, Nat.le_refl _, h.run_straight hs c⟩

/-- Straight code, and on from where it ends. -/
theorem leads_append (h : Placed code p (s ++ t)) (hs : isStraight s = true)
    (hrest : Leads code n (exec (valueOf code) s c) (p + slots s) ram q) :
    Leads code n c p ram q := by
  obtain ⟨k, a, d, hle, hrun⟩ := hrest
  exact ⟨slots s + k, a, d, Nat.le_add_left_of_le hle,
    Machine.run_trans (h.left.run_straight hs c) hrun⟩

theorem run_jump {comp : Comp} {jump : Jump} (h : Placed code p (s ++ .jumpIf comp jump :: t))
    (hs : isStraight s = true)
    (htaken : jump.isTaken (signed ((exec (valueOf code) s c).value comp)) = true) :
    Machine.run (assemble code) (slots s + 1) ⟨c, p⟩ =
      some ⟨exec (valueOf code) s c, (exec (valueOf code) s c).a.toNat⟩ := by
  have hstep := h.right.step_jump (exec (valueOf code) s c)
  rw [htaken, if_pos rfl] at hstep
  exact Machine.run_trans (h.left.run_straight hs c) (Machine.run_of_step hstep)

theorem leads_jump {comp : Comp} {jump : Jump} (h : Placed code p (.jumpIf comp jump :: s))
    (htaken : jump.isTaken (signed (c.value comp)) = true) :
    Leads code 1 c p c.ram c.a.toNat := by
  have hstep := h.step_jump c
  rw [htaken, if_pos rfl] at hstep
  exact ⟨1, c.a, c.d, Nat.le_refl 1, Machine.run_of_step hstep⟩

/-- A jump that is not taken, and on from the slot behind it. -/
theorem leads_past_jump {comp : Comp} {jump : Jump}
    (h : Placed code p (.jumpIf comp jump :: s))
    (htaken : jump.isTaken (signed (c.value comp)) = false)
    (hrest : Leads code 0 c (p + 1) ram q) : Leads code 1 c p ram q := by
  have hstep := h.step_jump c
  rw [htaken, if_neg Bool.false_ne_true] at hstep
  obtain ⟨k, a, d, -, hrun⟩ := hrest
  exact ⟨1 + k, a, d, Nat.le_add_right 1 k, Machine.run_trans (Machine.run_of_step hstep) hrun⟩

end Leads

/-! ## Cells -/

/-- The base register of a segment that has one. -/
def base? : Segment → Option Register
  | .locals => some .lcl
  | .arguments => some .arg
  | .this => some .this
  | .that => some .that
  | .sp => some .sp
  | _ => none

/-- The places that an index can be resolved to. -/
inductive Resolved (file : String) (index : Word) : Segment → Cell → Prop
  | constant : Resolved file index .constant (.value index)
  | based {s : Segment} {base : Register} (h : base? s = some base) :
      Resolved file index s (.behind base index)
  | temp (h : index.toNat ≤ 10) : Resolved file index .temp (.fixed (.constant (5 + index)))
  | this (h : index = 0) : Resolved file index .pointer (.fixed (.symbol "THIS"))
  | that (h : index = 1) : Resolved file index .pointer (.fixed (.symbol "THAT"))
  | static (h : isSymbol file = true) :
      Resolved file index .static (.fixed (.symbol (Cell.staticSymbol file index)))

section Resolve

variable {file : String} {s : Segment} {index : UInt16} {cmd : Command} {cell : Cell}

theorem literal_map {f : UInt16 → Cell} (h : (Cell.literal index cmd).map f = .ok cell) :
    cell = f index := by
  unfold Cell.literal at h
  split at h <;> cases h
  rfl

theorem resolved_of_resolve (h : Cell.resolve file s index cmd = .ok cell) :
    Resolved file index s cell := by
  cases s with
  | constant => exact literal_map h ▸ .constant
  | locals => exact literal_map h ▸ .based rfl
  | arguments => exact literal_map h ▸ .based rfl
  | this => exact literal_map h ▸ .based rfl
  | that => exact literal_map h ▸ .based rfl
  | sp => exact literal_map h ▸ .based rfl
  | temp =>
    rw [Cell.resolve] at h
    split at h
    · rename_i hle
      obtain rfl := Except.ok.inj h
      rw [UInt16.ofNat_add, UInt16.ofNat_toNat]
      exact .temp (Nat.add_le_add_iff_left.mp hle)
    · cases h
  | pointer =>
    rw [Cell.resolve] at h
    split at h
    · rename_i h0
      exact Except.ok.inj h ▸ .this h0
    · split at h
      · rename_i h1
        exact Except.ok.inj h ▸ .that h1
      · cases h
  | static =>
    rw [Cell.resolve] at h
    split at h
    · cases h
    · split at h
      · rename_i hfile
        exact Except.ok.inj h ▸ .static hfile
      · cases h

theorem resolve_static_ok (h : isSymbol file = true) (index : UInt16) (cmd : Command) :
    Cell.resolve file .static index cmd =
      .ok (.fixed (.symbol (Cell.staticSymbol file index))) := by
  have hne : file.isEmpty = false := by
    rw [String.isEmpty_eq_false_iff]
    rintro rfl
    cases h
  rw [Cell.resolve, hne, h]
  rfl

theorem Resolved.value (h : Resolved file index s cell) : ∀ n, cell = .value n → n = index := by
  rintro n rfl
  cases h
  rfl

/-- A cell lies where its segment says. -/
theorem Resolved.address? {value : String → Word} (hv : NamesRegisters value) (ctx : Context)
    (hstatics : ∀ i, ctx.statics i = value (Cell.staticSymbol file i))
    (h : Resolved file index s cell) (m : Memory) :
    cell.address? value m = s.address? ctx m index := by
  cases h with
  | constant => rfl
  | based hbase => cases s <;> cases hbase <;> rfl
  | temp _ => rfl
  | this h0 =>
    subst h0
    exact congrArg some (hv .this)
  | that h1 =>
    subst h1
    exact congrArg some (hv .that)
  | static _ => exact congrArg some (hstatics index).symm

theorem isStraight_push (cell : Cell) : isStraight (push cell) = true := by
  cases cell <;> rfl

theorem isStraight_pop {block : List Instruction} (h : pop cmd cell = .ok block) :
    isStraight block = true := by
  cases cell with
  | value n => cases h
  | behind base offset =>
    obtain rfl := Except.ok.inj h
    rfl
  | fixed address =>
    obtain rfl := Except.ok.inj h
    rfl

end Resolve

theorem isStraight_function (name : String) (locals : UInt16) :
    isStraight (function name locals) = true := by
  rw [function, isStraight, List.all_cons, Bool.and_eq_true]
  refine ⟨rfl, List.all_eq_true.mpr fun i hi => ?_⟩
  obtain ⟨piece, hpiece, hi⟩ := List.mem_flatten.mp hi
  obtain rfl := List.eq_of_mem_replicate hpiece
  exact List.all_eq_true.mp (show isStraight (loadD 0 ++ pushD) = true from rfl) i hi

/-! ## Operations -/

section Operations

variable {code : List Instruction} (hv : NamesRegisters (valueOf code)) {p : Nat} {c : Core}

/-- A comparison up to its jump: the difference in `D`, true in its place
and the label to jump to in `A`. -/
def ask (done : String) : List Instruction :=
  popDAtNext ++ [.assign .d .mMinusD] ++ atSp ++ [.assign .m .minusOne, .loadSymbol done]

def answerNo : List Instruction := atSp ++ [.assign .m .zero]

theorem compare_eq (jump : Jump) (done : String) :
    compare jump done = ask done ++ (.jumpIf .d jump :: (answerNo ++ (.label done :: raiseSp))) :=
  rfl

include hv

theorem exec_ask (done : String) (c : Core) :
    exec (valueOf code) (ask done) c =
      ⟨valueOf code done, c.ram.lower.lower.top - c.ram.lower.top,
        c.ram.lower.lower.setTop (-1)⟩ := by
  rw [ask, exec_append, exec_append, exec_append, exec_popDAtNext hv, exec_atSp hv]
  rfl

theorem exec_answerNo (c : Core) :
    exec (valueOf code) answerNo c = ⟨c.ram.reg .sp, c.d, c.ram.setTop 0⟩ := by
  rw [answerNo, exec_append, exec_atSp hv]
  rfl

/-- A comparison that is true goes to its label, wherever that is, with the
answer in place and the stack pointer still to be raised. -/
theorem leads_compare_jump {jump : Jump} {done : String} (h : Placed code p (compare jump done))
    (htaken : jump.isTaken (signed (c.ram.lower.lower.top - c.ram.lower.top)) = true) :
    Leads code 1 c p (c.ram.lower.lower.setTop (-1)) (valueOf code done).toNat := by
  rw [compare_eq] at h
  refine leads_append h rfl ?_
  rw [exec_ask hv]
  exact leads_jump h.right htaken

/-- Both ways of a comparison meet at the label, if it means the slot that
it stands in front of. -/
theorem leads_compare (jump : Jump) {test : Int → Bool} (hjump : ∀ v, jump.isTaken v = test v)
    {done : String} (h : Placed code p (compare jump done))
    (hdone : ∀ q t, Placed code q (.label done :: t) → (valueOf code done).toNat = q) :
    Leads code 1 c p (c.ram.compare test) (p + slots (compare jump done)) := by
  let q := p + slots (ask done) + 1 + slots answerNo
  have hplaced := h
  rw [compare_eq] at hplaced
  have hlabel : Placed code q (.label done :: raiseSp) := hplaced.right.tail.right
  have hraise (m : Memory) (a d : Word) :
      Leads code 0 ⟨a, d, m⟩ q m.raise (p + slots (compare jump done)) :=
    (leads_straight hlabel rfl (by rw [exec_cons, exec_label, exec_raiseSp hv])).mono
      (Nat.zero_le _)
  cases htest : test (signed (c.ram.lower.lower.top - c.ram.lower.top)) with
  | true =>
    have hmem : c.ram.compare test = (c.ram.lower.lower.setTop (-1)).raise := by
      rw [Memory.compare, htest]
      rfl
    have hto := leads_compare_jump hv h (c := c) ((hjump _).trans htest)
    rw [hdone q raiseSp hlabel] at hto
    exact hto.trans fun a d => hmem ▸ hraise _ a d
  | false =>
    have hmem : c.ram.compare test = ((c.ram.lower.lower.setTop (-1)).setTop 0).raise := by
      rw [Memory.compare, htest]
      rfl
    refine leads_append hplaced rfl ?_
    rw [exec_ask hv]
    refine leads_past_jump hplaced.right ((hjump _).trans htest)
      (leads_append hplaced.right.tail rfl ?_)
    rw [exec_answerNo hv, hmem]
    exact hraise _ _ _

omit hv in
theorem slots_operate_pos (done : String) (op : Operation) : 0 < slots (operate done op) := by
  cases op <;> exact Nat.succ_pos _

/-- An operation; the label of a comparison has to mean the slot that it
stands in front of. -/
theorem leads_operate {op : Operation} {done : String} (h : Placed code p (operate done op))
    (hdone : op.isComparison = true →
      ∀ q t, Placed code q (.label done :: t) → (valueOf code done).toNat = q) :
    Leads code 1 c p (c.ram.operate op) (p + slots (operate done op)) := by
  have straight (hs : isStraight (operate done op) = true)
      (hram : (exec (valueOf code) (operate done op) c).ram = c.ram.operate op) :
      Leads code 1 c p (c.ram.operate op) (p + slots (operate done op)) :=
    (leads_straight h hs hram).mono (slots_operate_pos done op)
  cases op with
  | add => exact straight rfl (exec_binary hv c fun _ _ _ => UInt16.add_comm ..)
  | sub => exact straight rfl (exec_binary hv c fun _ _ _ => rfl)
  | and => exact straight rfl (exec_binary hv c fun _ _ _ => UInt16.and_comm ..)
  | or => exact straight rfl (exec_binary hv c fun _ _ _ => UInt16.or_comm ..)
  | neg => exact straight rfl (exec_unary hv c fun _ _ _ => rfl)
  | not => exact straight rfl (exec_unary hv c fun _ _ _ => rfl)
  | eq => exact leads_compare hv .jeq (fun _ => rfl) h (hdone rfl)
  | gt => exact leads_compare hv .jgt (fun _ => rfl) h (hdone rfl)
  | lt => exact leads_compare hv .jlt (fun _ => rfl) h (hdone rfl)

end Operations

/-! ## Blocks with jumps -/

section Jumps

variable {code : List Instruction} (hcode : Loadable code) {p : Nat} {c : Core}

include hcode

omit hcode in
theorem leads_goto {name : String} (h : Placed code p (goto name)) :
    Leads code 1 c p c.ram (valueOf code name).toNat :=
  ⟨_, _, _, Nat.le_add_left 1 _, run_jump (s := [.loadSymbol name]) h rfl rfl⟩

theorem leads_ifGoto {name : String} (h : Placed code p (ifGoto name)) :
    Leads code 1 c p c.ram.lower
      (if c.ram.lower.top = 0 then p + slots (ifGoto name) else (valueOf code name).toNat) := by
  have hv := hcode.namesRegisters
  have hload : exec (valueOf code) (popD ++ [.loadSymbol name]) c =
      ⟨valueOf code name, c.ram.lower.top, c.ram.lower⟩ := by
    rw [exec_append, exec_popD hv]
    rfl
  refine leads_append (s := popD ++ [.loadSymbol name]) h rfl ?_
  rw [hload]
  by_cases hzero : c.ram.lower.top = 0
  · rw [if_pos hzero, hzero]
    exact leads_past_jump (Placed.right (s := popD ++ [.loadSymbol name]) h) rfl
      (leads_refl _ _)
  · rw [if_neg hzero]
    refine leads_jump (Placed.right (s := popD ++ [.loadSymbol name]) h) ?_
    exact decide_eq_true (mt signed_eq_zero.mp hzero)

omit hcode in
/-- The label to come back to stands behind the code of its call. -/
theorem placed_back {name back : String} {args : UInt16} (h : Placed code p (call name args back)) :
    Placed code (p + slots (call name args back)) [.label back] := by
  let front := pushFrame back ++ fetchD .sp ++ [.load (args + frameSize), .assign .d .dMinusA] ++
    storeD .arg ++ fetchD .sp ++ storeD .lcl ++ goto name
  have hsplit : call name args back = front ++ [.label back] := rfl
  have hslots : slots (front ++ [.label back]) = slots front := slots_append ..
  rw [hsplit] at h ⊢
  rw [hslots]
  exact h.right

/-- A call: the frame, the two registers, and the jump. The word that it
pushes is the slot behind its own code. -/
theorem run_call {name back : String} {args : UInt16} (h : Placed code p (call name args back)) :
    ∃ a d, Machine.run (assemble code) (slots (call name args back)) ⟨c, p⟩ =
      some ⟨⟨a, d, c.ram.call args (UInt16.ofNat (p + slots (call name args back)))⟩,
        (valueOf code name).toNat⟩ := by
  have hv := hcode.namesRegisters
  let enter := pushFrame back ++ fetchD .sp ++ [.load (args + frameSize), .assign .d .dMinusA] ++
    storeD .arg ++ fetchD .sp ++ storeD .lcl ++ [.loadSymbol name]
  have hsplit : call name args back = enter ++ (.jumpIf .zero .jmp :: [.label back]) := by
    simp only [call, goto, enter, List.append_assoc, List.cons_append, List.nil_append]
  have hback : valueOf code back = UInt16.ofNat (p + slots (call name args back)) :=
    (placed_back h).valueOf_label hcode.once
  rw [hsplit] at h
  have hframe : (exec (valueOf code) (pushFrame back) c).ram =
      c.ram.pushFrame (valueOf code back) := exec_pushFrame hv c back
  have henter : exec (valueOf code) enter c =
      ⟨valueOf code name, (c.ram.call args (valueOf code back)).reg .sp,
        c.ram.call args (valueOf code back)⟩ := by
    simp only [enter, exec_append, exec_storeD hv, exec_fetchD hv, hframe]
    rfl
  have hrun := run_jump h rfl (c := c) rfl
  rw [henter, hback] at hrun
  exact ⟨_, _, hrun⟩

theorem leads_call {name back : String} {args : UInt16} (h : Placed code p (call name args back)) :
    Leads code 1 c p (c.ram.call args (UInt16.ofNat (p + slots (call name args back))))
      (valueOf code name).toNat := by
  obtain ⟨a, d, hrun⟩ := run_call hcode h (c := c)
  exact ⟨_, a, d, Nat.le_add_left 1 _, hrun⟩

/-- A return: the result, the registers of the caller, and the jump back. -/
theorem run_ret (h : Placed code p ret) :
    ∃ a d, Machine.run (assemble code) (slots ret) ⟨c, p⟩ =
      some ⟨⟨a, d, c.ram.ret⟩, (c.ram.ret.reg .link).toNat⟩ := by
  have hv := hcode.namesRegisters
  let leave := fetchD .lcl ++ storeD .frame ++
    [.load frameSize, .assign .a .dMinusA, .assign .d .m] ++ storeD .link ++ popD ++
    [loadRegister .arg, .assign .a .m, .assign .m .d] ++
    [loadRegister .arg, .assign .d .mPlusOne] ++ storeD .sp
  let back := savedRegisters.reverse.flatMap restore ++ [loadRegister .link, .assign .a .m]
  have hsplit : ret = (leave ++ back) ++ [.jumpIf .zero .jmp] := by
    simp only [ret, leave, back, List.append_assoc, List.cons_append, List.nil_append]
  rw [hsplit] at h
  have hleave : (exec (valueOf code) leave c).ram = c.ram.handOver := by
    simp only [leave, exec_append, exec_storeD hv, exec_fetchD hv, exec_popD hv, exec_cons,
      exec_loadRegister hv, Memory.handOver, Memory.reg_setReg_self]
    rfl
  have hback : (exec (valueOf code) (savedRegisters.reverse.flatMap restore)
      (exec (valueOf code) leave c)).ram = c.ram.ret := by
    rw [exec_restores hv, hleave]
    rfl
  have hrun := run_jump h rfl (c := c) rfl
  rw [exec_append, exec_append, exec_cons, exec_loadRegister hv, hback] at hrun
  exact ⟨_, _, hrun⟩

theorem leads_ret (h : Placed code p ret) :
    Leads code 1 c p c.ram.ret (c.ram.ret.reg .link).toNat := by
  obtain ⟨a, d, hrun⟩ := run_ret hcode h (c := c)
  exact ⟨_, a, d, Nat.le_add_left 1 _, hrun⟩

end Jumps

/-! ## Every command -/

theorem ofCommand_call {file : String} {labels : Labels} {name : String} {args : UInt16}
    {body : List Instruction} (h : ofCommand file labels (.call name args) = .ok body) :
    body = call name args labels.takeCall.1 := by
  rw [ofCommand] at h
  split at h
  · exact (Except.ok.inj h).symm
  · cases h

theorem slots_remark (comments : Bool) (text : String) : slots (remark comments text) = 0 := by
  cases comments <;> rfl

theorem labels_remark (comments : Bool) (text : String) : labels (remark comments text) = [] := by
  cases comments <;> rfl

/-- The remark of a block takes no slot, so its code stands where the block
does. -/
theorem placed_of_block {code block : List Instruction} {file : String} {comments : Bool}
    {labels : Labels} {cmd : Command} {p : Nat}
    (hblock : Code.block file comments labels cmd = .ok block) (h : Placed code p block) :
    ∃ body, ofCommand file labels cmd = .ok body ∧ Placed code p body
      ∧ slots block = slots body := by
  obtain ⟨body, hbody, rfl⟩ := except_map_ok hblock
  have hright := h.right
  rw [slots_remark] at hright
  exact ⟨body, hbody, hright, by rw [slots_append, slots_remark, Nat.zero_add]⟩

/-- The code of a command carries out the command, and takes a step if it
has any slot. -/
theorem leads_ofCommand {code : List Instruction} (hcode : Loadable code) {file : String}
    {labels : Labels} {cmd : Command} {body : List Instruction}
    (hbody : ofCommand file labels cmd = .ok body) {p : Nat} (h : Placed code p body) (c : Core) :
    Leads code (min 1 (slots body)) c p
      (cmd.effect (context code file (p + slots body)) c.ram).1
      ((cmd.effect (context code file (p + slots body)) c.ram).2.slot code
        (p + slots body)) := by
  have hv := hcode.namesRegisters
  have straight (hs : isStraight body = true) {ram : Memory}
      (hram : (exec (valueOf code) body c).ram = ram) :
      Leads code (min 1 (slots body)) c p ram (p + slots body) :=
    (leads_straight h hs hram).mono (Nat.min_le_right ..)
  cases cmd with
  | push s index =>
    obtain ⟨cell, hcell, rfl⟩ := except_map_ok hbody
    have hres := resolved_of_resolve hcell
    refine straight (isStraight_push cell) ?_
    rw [exec_push hv c hres.value, hres.address? hv (context code file _) (fun _ => rfl) c.ram]
    rfl
  | pop s index =>
    obtain ⟨cell, hcell, hpop⟩ := except_bind_ok hbody
    have hres := resolved_of_resolve hcell
    refine straight (isStraight_pop hpop) ?_
    rw [exec_pop hv c hpop, hres.address? hv (context code file _) (fun _ => rfl) c.ram]
    rfl
  | operate op =>
    obtain rfl := Except.ok.inj hbody
    exact (leads_operate hv h fun _ _ _ hlabel => hlabel.toNat_valueOf_label hcode).mono
      (Nat.min_le_left ..)
  | label name =>
    obtain rfl := Except.ok.inj hbody
    exact straight rfl rfl
  | goto name =>
    obtain rfl := Except.ok.inj hbody
    exact leads_goto h
  | ifGoto name =>
    obtain rfl := Except.ok.inj hbody
    have hgo := (leads_ifGoto hcode h (c := c)).mono (Nat.min_le_left 1 (slots (ifGoto name)))
    by_cases hzero : c.ram.lower.top = 0
    · simpa only [Command.effect, if_pos hzero, Exit.slot] using hgo
    · simpa only [Command.effect, if_neg hzero, Exit.slot] using hgo
  | function name locals =>
    obtain rfl := Except.ok.inj hbody
    exact straight (isStraight_function name locals) (exec_function hv c name locals)
  | call name args =>
    obtain rfl := ofCommand_call hbody
    exact leads_call hcode h
  | ret =>
    obtain rfl := Except.ok.inj hbody
    exact leads_ret hcode h

/-- Code without slots goes on to what stands behind it. -/
theorem effect_of_no_slot {file : String} {labels : Labels} {cmd : Command}
    {body : List Instruction} (hbody : ofCommand file labels cmd = .ok body)
    (hslots : slots body = 0) (ctx : Context) (m : Memory) : (cmd.effect ctx m).2 = .next := by
  cases cmd with
  | push | pop | operate | label | function => rfl
  | goto name =>
    cases hbody
    cases hslots
  | ifGoto name =>
    cases hbody
    cases hslots
  | call name args =>
    obtain rfl := ofCommand_call hbody
    cases hslots
  | ret =>
    cases hbody
    cases hslots

end Code

end HackVm
