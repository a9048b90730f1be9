import Mathlib.Data.List.Basic
import HackVm.Proofs.Blocks

/-!
# The calling convention

A call and a return are two separate rows of instructions that agree on
the layout of a frame. Whatever runs between them, if the return finds the
frame where the call left it, the caller is as it was: its registers are
restored, its arguments are replaced by the result, and the machine goes
on behind the call (`Memory.ret_of_keepsFrame`).

The cells of the stack are kept apart from the registers by their
addresses (`Memory.Free`). Both rows walk over a list of registers, so
each is one induction on the list (`Memory.foldl_save`,
`Memory.foldl_restore`). The result may lie on the cell that holds where
to go back to, when there are no arguments, and on no other cell of the
frame.
-/

namespace HackVm

open Assembly

theorem Register.word_inj {r r' : Register} : r.word = r'.word ↔ r = r' := by
  cases r <;> cases r' <;> decide

namespace Memory

/-! ## Registers and other cells -/

/-- An address that no register has. -/
def Free (x : Word) : Prop := ∀ r : Register, x ≠ r.word

theorem free_of_le {x : Word} (h : 16 ≤ x.toNat) : Free x := by
  rintro r rfl
  revert h
  cases r <;> decide

section Cells

variable {m : Memory} {r r' : Register} {v x a : Word}

theorem reg_setReg_of_ne (h : r' ≠ r) : (m.setReg r v).reg r' = m.reg r' :=
  Function.update_of_ne (mt Register.word_inj.mp h) ..

theorem setReg_free (h : Free x) : m.setReg r v x = m x :=
  Function.update_of_ne (h r) ..

theorem reg_put (h : Free a) : (m.put a v).reg r = m.reg r :=
  Function.update_of_ne (h r).symm ..

theorem put_self : m.put a v a = v :=
  Function.update_self ..

theorem put_of_ne (h : x ≠ a) : m.put a v x = m x :=
  Function.update_of_ne h ..

theorem push_eq (h : Free (m.reg .sp)) :
    m.push v = (m.put (m.reg .sp) v).setReg .sp (m.reg .sp + 1) := by
  rw [push, raise, setTop, reg_put h]

/-! ## Saving and restoring registers -/

theorem save_spec (h : Free (m.reg .sp)) :
    (m.save r).reg .sp = m.reg .sp + 1 ∧ (∀ r' ≠ .sp, (m.save r).reg r' = m.reg r')
      ∧ m.save r (m.reg .sp) = m.reg r ∧ ∀ x, Free x → x ≠ m.reg .sp → m.save r x = m x := by
  rw [save, push_eq h]
  refine ⟨reg_setReg_self .., fun r' hr' => ?_, ?_, fun x hx hne => ?_⟩
  · rw [reg_setReg_of_ne hr', reg_put h]
  · rw [setReg_free h, put_self]
  · rw [setReg_free hx, put_of_ne hne]

theorem restore_spec (hr : r ≠ .frame) (h : Free (m.reg .frame - 1)) :
    (m.restore r).reg .frame = m.reg .frame - 1 ∧ (m.restore r).reg r = m (m.reg .frame - 1)
      ∧ (∀ r', r' ≠ r → r' ≠ .frame → (m.restore r).reg r' = m.reg r')
      ∧ ∀ x, Free x → m.restore r x = m x := by
  rw [restore, reg_setReg_self, setReg_free h]
  refine ⟨?_, reg_setReg_self .., fun r' hr' hframe => ?_, fun x hx => ?_⟩
  · rw [reg_setReg_of_ne hr.symm, reg_setReg_self]
  · rw [reg_setReg_of_ne hr', reg_setReg_of_ne hframe]
  · rw [setReg_free hx, setReg_free hx]

end Cells

/-- Saved registers lie one behind the other from where the stack pointer
was. The induction is on the registers that are still to be saved. -/
theorem foldl_save (rs : List Register) (hrs : Register.sp ∉ rs) {m : Memory}
    (hlow : 16 ≤ (m.reg .sp).toNat) (hroom : (m.reg .sp).toNat + rs.length < 65536) :
    ((rs.foldl save m).reg .sp).toNat = (m.reg .sp).toNat + rs.length
      ∧ (∀ r ≠ .sp, (rs.foldl save m).reg r = m.reg r)
      ∧ (∀ x, Free x → x.toNat < (m.reg .sp).toNat → rs.foldl save m x = m x)
      ∧ ∀ i r x, rs[i]? = some r → x.toNat = (m.reg .sp).toNat + i →
        rs.foldl save m x = m.reg r := by
  induction rs generalizing m with
  | nil => exact ⟨rfl, fun _ _ => rfl, fun _ _ _ => rfl, fun _ _ _ h => nomatch h⟩
  | cons r₀ rs ih =>
    rw [List.mem_cons, not_or] at hrs
    rw [List.length_cons] at hroom
    obtain ⟨hsp, hreg, hcell, hother⟩ := save_spec (r := r₀) (free_of_le hlow)
    have hnext : ((m.save r₀).reg .sp).toNat = (m.reg .sp).toNat + 1 := by
      rw [hsp]
      exact toNat_add_ofNat (n := 1) (by omega)
    obtain ⟨hsp', hreg', hbelow, hsaved⟩ := ih hrs.2 (m := m.save r₀) (by omega) (by omega)
    refine ⟨?_, fun r hr => ?_, fun x hx hlt => ?_, fun i r x hi hx => ?_⟩
    · rw [List.foldl_cons, hsp', hnext, List.length_cons]
      omega
    · rw [List.foldl_cons, hreg' r hr, hreg r hr]
    · have hne : x ≠ m.reg .sp := by
        rintro rfl
        omega
      rw [List.foldl_cons, hbelow x hx (by omega), hother x hx hne]
    · cases i with
      | zero =>
        obtain rfl := Option.some.inj hi
        obtain rfl : x = m.reg .sp := UInt16.toNat_inj.mp hx
        rw [List.foldl_cons, hbelow _ (free_of_le hlow) (by omega), hcell]
      | succ i =>
        have hr : r ≠ .sp := by
          rintro rfl
          exact hrs.2 (List.mem_of_getElem? hi)
        rw [List.foldl_cons, hsaved i r x hi (by omega), hreg r hr]

/-- Restored registers are read downward from the frame, which is kept in
a register of its own. The induction is on the registers that are still
to be restored. -/
theorem foldl_restore (rs : List Register) (hrs : Register.frame ∉ rs) (hnodup : rs.Nodup)
    {m : Memory} (hlow : 16 + rs.length ≤ (m.reg .frame).toNat) :
    (∀ r, r ∉ rs → r ≠ .frame → (rs.foldl restore m).reg r = m.reg r)
      ∧ (∀ x, Free x → rs.foldl restore m x = m x)
      ∧ ∀ i r x, rs[i]? = some r → x.toNat + i + 1 = (m.reg .frame).toNat →
        (rs.foldl restore m).reg r = m x := by
  induction rs generalizing m with
  | nil => exact ⟨fun _ _ _ => rfl, fun _ _ => rfl, fun _ _ _ h => nomatch h⟩
  | cons r₀ rs ih =>
    rw [List.mem_cons, not_or] at hrs
    rw [List.nodup_cons] at hnodup
    rw [List.length_cons] at hlow
    have hless : (m.reg .frame - 1).toNat = (m.reg .frame).toNat - 1 :=
      toNat_sub_ofNat (n := 1) (by omega)
    have hfree : Free (m.reg .frame - 1) := free_of_le (by omega)
    obtain ⟨hframe, hself, hreg, hcell⟩ := restore_spec (Ne.symm hrs.1) hfree
    obtain ⟨hreg', hcell', hrestored⟩ := ih hrs.2 hnodup.2 (m := m.restore r₀)
      (by rw [hframe]; omega)
    refine ⟨fun r hr hne => ?_, fun x hx => ?_, fun i r x hi hx => ?_⟩
    · rw [List.mem_cons, not_or] at hr
      rw [List.foldl_cons, hreg' r hr.2 hne, hreg r hr.1 hne]
    · rw [List.foldl_cons, hcell' x hx, hcell x hx]
    · cases i with
      | zero =>
        obtain rfl := Option.some.inj hi
        obtain rfl : x = m.reg .frame - 1 := UInt16.toNat_inj.mp (by omega)
        rw [List.foldl_cons, hreg' _ hnodup.1 (Ne.symm hrs.1), hself]
      | succ i =>
        have hx' : x.toNat + i + 1 = ((m.restore r₀).reg .frame).toNat := by
          rw [hframe]
          omega
        have hlt : i + 1 < (r₀ :: rs).length := (List.getElem?_eq_some_iff.mp hi).1
        have hx16 : 16 ≤ x.toNat := by
          rw [List.length_cons] at hlt
          omega
        rw [List.foldl_cons, hrestored i r x hi hx', hcell x (free_of_le hx16)]

/-! ## Frames -/

/-- The frame of a call: where to go back to, and the registers of the
caller. -/
theorem call_frame {m : Memory} (hlow : 16 ≤ (m.reg .sp).toNat)
    (hroom : (m.reg .sp).toNat + 5 < 65536) (args back : Word) :
    m.call args back (m.reg .sp) = back
      ∧ ∀ i r x, [Register.lcl, .arg, .this, .that][i]? = some r →
        x.toNat = (m.reg .sp).toNat + 1 + i → m.call args back x = m.reg r := by
  have hfree : Free (m.reg .sp) := free_of_le hlow
  have hcall {x : Word} (hx : Free x) : m.call args back x = m.pushFrame back x := by
    rw [call, setReg_free hx, setReg_free hx]
  have hpush := push_eq (v := back) hfree
  have hsp : ((m.push back).reg .sp).toNat = (m.reg .sp).toNat + 1 := by
    rw [hpush, reg_setReg_self]
    exact toNat_add_ofNat (n := 1) (by omega)
  have hreg {r : Register} (hr : r ≠ .sp) : (m.push back).reg r = m.reg r := by
    rw [hpush, reg_setReg_of_ne hr, reg_put hfree]
  obtain ⟨-, -, hbelow, hsaved⟩ := foldl_save [.lcl, .arg, .this, .that] (by decide)
    (m := m.push back) (by omega) (by simp only [List.length_cons, List.length_nil]; omega)
  refine ⟨?_, fun i r x hi hx => ?_⟩
  · rw [hcall hfree, pushFrame, hbelow _ hfree (by omega), hpush, setReg_free hfree, put_self]
  · have hr : r ≠ .sp := by
      rintro rfl
      exact absurd (List.mem_of_getElem? hi) (by decide)
    rw [hcall (free_of_le (by omega)), pushFrame, hsaved i r x hi (by omega), hreg hr]

theorem handOver_spec {m : Memory} (hframe : Free (m.reg .lcl - 5)) (harg : Free (m.reg .arg))
    (htop : Free (m.reg .sp - 1)) :
    m.handOver.reg .frame = m.reg .lcl ∧ m.handOver.reg .link = m (m.reg .lcl - 5)
      ∧ m.handOver.reg .sp = m.reg .arg + 1 ∧ m.handOver (m.reg .arg) = m (m.reg .sp - 1)
      ∧ ∀ x, Free x → x ≠ m.reg .arg → m.handOver x = m x := by
  have hm : m.handOver =
      ((((m.setReg .frame (m.reg .lcl)).setReg .link (m (m.reg .lcl - 5))).setReg .sp
        (m.reg .sp - 1)).put (m.reg .arg) (m (m.reg .sp - 1))).setReg .sp (m.reg .arg + 1) := by
    have hne {r r' : Register} (h : r' ≠ r) (m : Memory) (v : Word) :
        (m.setReg r v).reg r' = m.reg r' := reg_setReg_of_ne h
    simp only [handOver, popTo, lower, top, reg_setReg_self, setReg_free hframe,
      hne (show Register.sp ≠ .link by decide), hne (show Register.sp ≠ .frame by decide),
      hne (show Register.arg ≠ .sp by decide), hne (show Register.arg ≠ .link by decide),
      hne (show Register.arg ≠ .frame by decide), setReg_free htop, reg_put harg]
  rw [hm]
  refine ⟨?_, ?_, reg_setReg_self .., ?_, fun x hx hne => ?_⟩
  · rw [reg_setReg_of_ne (by decide), reg_put harg, reg_setReg_of_ne (by decide),
      reg_setReg_of_ne (by decide), reg_setReg_self]
  · rw [reg_setReg_of_ne (by decide), reg_put harg, reg_setReg_of_ne (by decide), reg_setReg_self]
  · rw [setReg_free harg, put_self]
  · rw [setReg_free hx, put_of_ne hne, setReg_free hx, setReg_free hx, setReg_free hx]

/-- What a return leaves, if the result does not lie on the registers that
it is about to restore. -/
theorem ret_spec {m : Memory} (harg : 16 ≤ (m.reg .arg).toNat)
    (hframe : (m.reg .arg).toNat + 5 ≤ (m.reg .lcl).toNat) (htop : 17 ≤ (m.reg .sp).toNat) :
    m.ret.reg .link = m (m.reg .lcl - 5) ∧ m.ret.reg .sp = m.reg .arg + 1
      ∧ m.ret (m.reg .arg) = m (m.reg .sp - 1)
      ∧ (∀ x, Free x → x ≠ m.reg .arg → m.ret x = m x)
      ∧ ∀ i r x, [Register.that, .this, .arg, .lcl][i]? = some r →
        x.toNat + i + 1 = (m.reg .lcl).toNat → m.ret.reg r = m x := by
  have hframe5 : (m.reg .lcl - 5).toNat = (m.reg .lcl).toNat - 5 :=
    toNat_sub_ofNat (n := 5) (by omega)
  have htop1 : (m.reg .sp - 1).toNat = (m.reg .sp).toNat - 1 :=
    toNat_sub_ofNat (n := 1) (by omega)
  have hfree : Free (m.reg .arg) := free_of_le harg
  obtain ⟨hkept, hlink, hsp, hresult, hother⟩ := handOver_spec
    (free_of_le (by omega)) hfree (free_of_le (by omega))
  obtain ⟨hreg, hcell, hrestored⟩ := foldl_restore [.that, .this, .arg, .lcl] (by decide)
    (by decide) (m := m.handOver) (by
      rw [hkept]
      simp only [List.length_cons, List.length_nil]
      omega)
  refine ⟨?_, ?_, ?_, fun x hx hne => ?_, fun i r x hi hx => ?_⟩
  · rw [ret, hreg .link (by decide) (by decide), hlink]
  · rw [ret, hreg .sp (by decide) (by decide), hsp]
  · rw [ret, hcell _ hfree, hresult]
  · rw [ret, hcell x hx, hother x hx hne]
  · have hlt : i < 4 := (List.getElem?_eq_some_iff.mp hi).1
    have hne : x ≠ m.reg .arg := by
      rintro rfl
      omega
    rw [ret, hrestored i r x hi (by rw [hkept]; exact hx), hother x (free_of_le (by omega)) hne]

/-- The memory as a return must find it: the registers of the function
name the frame of its call, and the frame is as the call left it. -/
structure KeepsFrame (s args : Word) (called now : Memory) : Prop where
  lcl : now.reg .lcl = s + 5
  arg : now.reg .arg = s - args
  cells : ∀ x : Word, s.toNat ≤ x.toNat → x.toNat < s.toNat + 5 → now x = called x
  top : 17 ≤ (now.reg .sp).toNat

/-- The memory behind a call: the registers of the caller are as before
it, the result takes the place of the arguments, and nothing else has
changed since the function was about to return. -/
structure Returned (args : Word) (before now after : Memory) : Prop where
  lcl : after.reg .lcl = before.reg .lcl
  arg : after.reg .arg = before.reg .arg
  this : after.reg .this = before.reg .this
  that : after.reg .that = before.reg .that
  sp : after.reg .sp = before.reg .sp - args + 1
  result : after (before.reg .sp - args) = now (now.reg .sp - 1)
  others : ∀ x, Free x → x ≠ before.reg .sp - args → after x = now x

section Symmetry

variable {m now : Memory} {args back : Word}

/-- A return undoes the call whose frame it finds. -/
theorem ret_of_keepsFrame (hlow : args.toNat + 16 ≤ (m.reg .sp).toNat)
    (hroom : (m.reg .sp).toNat + 5 < 65536)
    (hkeeps : KeepsFrame (m.reg .sp) args (m.call args back) now) :
    now.ret.reg .link = back ∧ Returned args m now now.ret := by
  have hargs : (m.reg .sp - args).toNat = (m.reg .sp).toNat - args.toNat :=
    toNat_sub_of_le (by omega)
  have hlcl : (m.reg .sp + 5).toNat = (m.reg .sp).toNat + 5 :=
    toNat_add_ofNat (n := 5) hroom
  obtain ⟨hback, hsaved⟩ := call_frame (by omega) hroom args back
  obtain ⟨hlink, hsp, hresult, hothers, hrestored⟩ := ret_spec (m := now)
    (by rw [hkeeps.arg]; omega) (by rw [hkeeps.arg, hkeeps.lcl]; omega) hkeeps.top
  -- a saved register is restored from the cell that it was saved in
  have hregister {i k : Nat} {r : Register} (hi : [Register.lcl, .arg, .this, .that][i]? = some r)
      (hk : [Register.that, .this, .arg, .lcl][k]? = some r) (hik : i + k = 3) :
      now.ret.reg r = m.reg r := by
    have hx : (m.reg .sp + UInt16.ofNat (1 + i)).toNat = (m.reg .sp).toNat + (1 + i) :=
      toNat_add_ofNat (by omega)
    have hread : now.ret.reg r = now (m.reg .sp + UInt16.ofNat (1 + i)) :=
      hrestored k r _ hk (by rw [hkeeps.lcl, hlcl, hx]; omega)
    rw [hread, hkeeps.cells _ (by omega) (by omega), hsaved i r _ hi (by omega)]
  refine ⟨?_, ?_, ?_, ?_, ?_, ?_, ?_, ?_⟩
  · rw [hlink, hkeeps.lcl, UInt16.add_sub_cancel, hkeeps.cells _ (Nat.le_refl _) (by omega), hback]
  · exact hregister (i := 0) (k := 3) rfl rfl rfl
  · exact hregister (i := 1) (k := 2) rfl rfl rfl
  · exact hregister (i := 2) (k := 1) rfl rfl rfl
  · exact hregister (i := 3) (k := 0) rfl rfl rfl
  · rw [hsp, hkeeps.arg]
  · rw [← hkeeps.arg, hresult]
  · intro x hx hne
    exact hothers x hx (hkeeps.arg ▸ hne)

end Symmetry

end Memory

namespace Code

/-- A call and a return, with any run between them that keeps the frame:
the machine comes back behind the call, and the caller finds its registers
as they were and the result on its stack. -/
theorem returns_to_call {code : List Instruction} (hcode : Loadable code) {file : String}
    {comments : Bool} {l : Labels} {name : String} {args : UInt16} {callCode : List Instruction}
    (hcall : block file comments l (.call name args) = .ok callCode) {p : Nat}
    (hp : Placed code p callCode) (hname : name ∈ labels code) {c : Core}
    (hlow : args.toNat + 16 ≤ (c.ram.reg .sp).toNat) (hroom : (c.ram.reg .sp).toNat + 5 ≤ 32767) :
    ∃ c₁, Machine.run (assemble code) (slots callCode) ⟨c, p⟩ =
        some ⟨c₁, (valueOf code name).toNat⟩
      ∧ (∃ rest, Placed code (valueOf code name).toNat (.label name :: rest))
      ∧ c₁.ram = c.ram.call args (UInt16.ofNat (p + slots callCode))
      ∧ ∀ file' comments' l' retCode q k c₂,
        block file' comments' l' .ret = .ok retCode → Placed code q retCode →
        Machine.run (assemble code) k ⟨c₁, (valueOf code name).toNat⟩ = some ⟨c₂, q⟩ →
        c₁.ram.KeepsFrame (c.ram.reg .sp) args c₂.ram →
        ∃ c₃, Machine.run (assemble code) (slots retCode) ⟨c₂, q⟩ =
            some ⟨c₃, p + slots callCode⟩
          ∧ Machine.run (assemble code) (slots callCode + k + slots retCode) ⟨c, p⟩ =
            some ⟨c₃, p + slots callCode⟩
          ∧ (valueOf code l.takeCall.1).toNat = p + slots callCode
          ∧ c.ram.Returned args c₂.ram c₃.ram := by
  obtain ⟨callBody, hcallBody, hpCall, hcallSlots⟩ := placed_of_block hcall hp
  obtain rfl := ofCommand_call hcallBody
  rw [hcallSlots]
  obtain ⟨a₁, d₁, hrunCall⟩ := run_call hcode hpCall (c := c)
  obtain ⟨pre, post, hsplit⟩ := List.append_of_mem (mem_labels.mp hname)
  have hentry : Placed code (slots pre) (.label name :: post) :=
    ⟨pre, [], by rw [hsplit, List.append_nil], rfl⟩
  rw [← hentry.toNat_valueOf_label hcode] at hentry
  refine ⟨_, hrunCall, ⟨post, hentry⟩, rfl, ?_⟩
  intro file' comments' l' retCode q k c₂ hret hq hrun hkeeps
  obtain ⟨retBody, hretBody, hqRet, hretSlots⟩ := placed_of_block hret hq
  obtain rfl := Except.ok.inj hretBody
  rw [hretSlots]
  obtain ⟨a₃, d₃, hrunRet⟩ := run_ret hcode hqRet (c := c₂)
  obtain ⟨hlink, hreturned⟩ := Memory.ret_of_keepsFrame hlow (by omega) hkeeps
  have hback := (placed_back hpCall).toNat_valueOf_label hcode
  have hbehind : (c₂.ram.ret.reg .link).toNat =
      p + slots (call name args l.takeCall.1) := by
    rw [hlink, ← (placed_back hpCall).valueOf_label hcode.once, hback]
  rw [hbehind] at hrunRet
  exact ⟨_, hrunRet, Machine.run_trans (Machine.run_trans hrunCall hrun) hrunRet, hback, hreturned⟩

/-- A call of a function that returns seven, and the function behind it. -/
def callSeven : List Instruction :=
  call "F.seven" 0 (Labels.back 0) ++ (function "F.seven" 0 ++ push (.value 7) ++ ret)

/-- A stack that begins at 300, and nothing else. -/
def emptyStack : Core := ⟨0, 0, fun x => if x = 0 then 300 else 0⟩

theorem returns_to_call_seven :
    ∃ n c, Machine.run (assemble callSeven) n ⟨emptyStack, 0⟩ =
        some ⟨c, slots (call "F.seven" 0 (Labels.back 0))⟩
      ∧ c.ram.reg .sp = 301 ∧ c.ram 300 = 7 := by
  have hcode : Loadable callSeven := ⟨by decide +kernel, by decide +kernel, by decide +kernel⟩
  have hcall : Placed callSeven 0 (call "F.seven" 0 (Labels.back 0)) := ⟨[], _, rfl, rfl⟩
  let body := function "F.seven" 0 ++ push (.value 7)
  have hbody : Placed callSeven (valueOf callSeven "F.seven").toNat (body ++ ret) :=
    ⟨call "F.seven" 0 (Labels.back 0), [], by rw [List.append_nil]; rfl, by decide +kernel⟩
  have hblock : block "F" false {} (.call "F.seven" 0) =
      .ok (call "F.seven" 0 (Labels.back 0)) := rfl
  obtain ⟨c₁, -, -, hram, hreturns⟩ := returns_to_call hcode hblock hcall (by decide +kernel)
    (c := emptyStack) (by decide) (by decide)
  have hrun := hbody.left.run_straight (s := body) rfl c₁
  have hvalue : ∀ n, Cell.value 7 = .value n → n = 7 := fun n hn => (Cell.value.inj hn).symm
  have hpush : (exec (valueOf callSeven) body c₁).ram = c₁.ram.push 7 := by
    rw [exec_append, exec_push hcode.namesRegisters _ hvalue]
    rfl
  have hkeeps : c₁.ram.KeepsFrame 300 0 (exec (valueOf callSeven) body c₁).ram := by
    rw [hpush, hram]
    refine ⟨by decide +kernel, by decide +kernel, fun x hle hlt => ?_, by decide +kernel⟩
    have hne : x ≠ 305 := by
      rintro rfl
      exact absurd hlt (by decide)
    rw [Memory.push_eq (Memory.free_of_le (by decide +kernel)),
      Memory.setReg_free (Memory.free_of_le (by have : (300 : Word).toNat = 300 := rfl; omega))]
    exact Memory.put_of_ne hne
  obtain ⟨c₃, -, hwhole, -, hreturned⟩ :=
    hreturns "F" false {} ret _ _ _ rfl hbody.right hrun hkeeps
  refine ⟨_, c₃, hwhole, hreturned.sp, ?_⟩
  have hresult := hreturned.result
  rw [hpush, hram] at hresult
  exact hresult.trans (by decide +kernel)

end Code

end HackVm
