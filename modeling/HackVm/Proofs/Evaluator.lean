import HackVm.Proofs.Frame

/-!
# Evaluating on lists

Pushes of numbers and operations have a meaning that knows of no memory:
they work on a list of words, with the top of the stack first
(`Command.evaluateAll`). It is undefined where a value is taken from the
empty list, and for all other commands.

The stack machine does the same on the cells of its stack. `Memory.Holds`
says that the cells between a base and the stack pointer hold a list. It
says nothing of the cells above, where popped values stay behind, so a pop
is a step down and nothing else, and every operation is one or two pops and
a push (`Memory.apply_eq`). What each command keeps (`Memory.Kept`) are all
cells that the stack does not reach meanwhile.
-/

namespace HackVm

/-! ## The evaluator -/

/-- The word that answers a question. -/
def truth (yes : Bool) : Word := if yes then -1 else 0

/-- What an operation computes, of the top value `y` alone, or of `y` and
the value `x` below it. -/
inductive Operation.Rule where
  | unary (f : Word → Word)
  | binary (f : Word → Word → Word)

def Operation.Rule.apply : Rule → List Word → Option (List Word)
  | unary f, y :: rest => some (f y :: rest)
  | binary f, y :: x :: rest => some (f x y :: rest)
  | _, _ => none

def Operation.rule : Operation → Rule
  | add => .binary fun x y => x + y
  | sub => .binary fun x y => x - y
  | and => .binary fun x y => x &&& y
  | or => .binary fun x y => x ||| y
  | neg => .unary fun y => -y
  | not => .unary fun y => ~~~y
  | eq => .binary fun x y => truth (signed (x - y) = 0)
  | gt => .binary fun x y => truth (0 < signed (x - y))
  | lt => .binary fun x y => truth (signed (x - y) < 0)

namespace Command

/-- The stack behind a command, as a list with its top first. Numbers are
pushed as far as they can be loaded. -/
def evaluate : Command → List Word → Option (List Word)
  | push .constant value, xs => if value.toNat ≤ 32767 then some (value :: xs) else none
  | operate op, xs => op.rule.apply xs
  | _, _ => none

def evaluateAll : List Command → List Word → Option (List Word)
  | [], xs => some xs
  | c :: rest, xs => (c.evaluate xs).bind (evaluateAll rest)

/-- The greatest depth of the stack, from the beginning on and as far as
the commands can be evaluated. -/
def greatestDepth : List Command → List Word → Nat
  | [], xs => xs.length
  | c :: rest, xs => max xs.length (((c.evaluate xs).map (greatestDepth rest)).getD 0)

variable {c : Command} {rest : List Command} {xs ys : List Word}

theorem evaluate_some (h : c.evaluate xs = some ys) :
    (∃ value, c = .push .constant value ∧ value.toNat ≤ 32767 ∧ ys = value :: xs)
      ∨ ∃ op, c = .operate op ∧ op.rule.apply xs = some ys := by
  cases c with
  | push s value =>
    cases s with
    | constant =>
      rw [evaluate] at h
      split at h
      · rename_i hvalue
        exact .inl ⟨value, rfl, hvalue, (Option.some.inj h).symm⟩
      · cases h
    | _ => cases h
  | operate op => exact .inr ⟨op, rfl, h⟩
  | _ => cases h

theorem evaluateAll_cons (h : evaluateAll (c :: rest) xs = some ys) :
    ∃ zs, c.evaluate xs = some zs ∧ evaluateAll rest zs = some ys
      ∧ greatestDepth (c :: rest) xs = max xs.length (greatestDepth rest zs) := by
  obtain ⟨zs, hzs, hys⟩ := Option.bind_eq_some_iff.mp h
  refine ⟨zs, hzs, hys, ?_⟩
  rw [greatestDepth, hzs]
  rfl

theorem length_le_greatestDepth (cs : List Command) (xs : List Word) :
    xs.length ≤ greatestDepth cs xs := by
  cases cs with
  | nil => exact Nat.le_refl _
  | cons c rest => exact Nat.le_max_left ..

end Command

/-! ## Lists in the memory -/

section Reverse

variable {α : Type} {x : α} {xs : List α} {i : Nat}

theorem getElem?_reverse_cons_length (x : α) (xs : List α) :
    (x :: xs).reverse[xs.length]? = some x := by
  rw [List.reverse_cons, ← List.length_reverse, List.getElem?_concat_length]

theorem getElem?_reverse_cons_of_lt (h : i < xs.length) :
    (x :: xs).reverse[i]? = xs.reverse[i]? := by
  rw [List.reverse_cons, List.getElem?_append_left (by rwa [List.length_reverse])]

end Reverse

namespace Memory

variable {m m₁ m₂ : Memory} {b n k : Nat} {x v : Word} {xs ys : List Word}

/-- The cells from address `b` up to the stack pointer hold the values of
the list, whose first is the top of the stack. -/
structure Holds (m : Memory) (b : Nat) (xs : List Word) : Prop where
  sp : (m.reg .sp).toNat = b + xs.length
  cells : ∀ i x, xs.reverse[i]? = some x → m (UInt16.ofNat (b + i)) = x

/-- All cells are kept but the stack pointer and `n` cells from address
`b` on. -/
def Kept (m m' : Memory) (b n : Nat) : Prop :=
  ∀ x : Word, x ≠ Register.sp.word → ¬(b ≤ x.toNat ∧ x.toNat < b + n) → m' x = m x

theorem Kept.refl (m : Memory) (b n : Nat) : m.Kept m b n := fun _ _ _ => rfl

theorem Kept.mono (h : m.Kept m₁ b k) (hle : k ≤ n) : m.Kept m₁ b n :=
  fun x hsp hx => h x hsp (by omega)

theorem Kept.trans (h : m.Kept m₁ b n) (h' : m₁.Kept m₂ b n) : m.Kept m₂ b n :=
  fun x hsp hx => (h' x hsp hx).trans (h x hsp hx)

/-- A cell of the stack is no register. -/
theorem Holds.free (h : m.Holds b xs) (hb : 16 ≤ b) : Free (m.reg .sp) :=
  free_of_le (by rw [h.sp]; omega)

/-! ## Pops and pushes -/

theorem sp_lower (m : Memory) : m.lower.reg .sp = m.reg .sp - 1 := reg_setReg_self ..

theorem lower_of_ne (h : x ≠ Register.sp.word) : m.lower x = m x :=
  Function.update_of_ne h ..

theorem kept_lower (m : Memory) (b n : Nat) : m.Kept m.lower b n := fun _ hsp _ => lower_of_ne hsp

theorem Holds.lower (h : m.Holds b (x :: xs)) (hb : 16 ≤ b) : m.lower.Holds b xs := by
  have hsp := h.sp
  rw [List.length_cons] at hsp
  constructor
  · rw [sp_lower]
    have hless : (m.reg .sp - 1).toNat = (m.reg .sp).toNat - 1 := toNat_sub_ofNat (n := 1) (by omega)
    omega
  · intro i v hv
    obtain ⟨hi, -⟩ := List.getElem?_eq_some_iff.mp hv
    rw [List.length_reverse] at hi
    have hlt := (m.reg .sp).toNat_lt
    have hfree : Free (UInt16.ofNat (b + i)) := by
      refine free_of_le ?_
      rw [toNat_ofNat_of_lt (by omega)]
      omega
    rw [lower_of_ne (hfree .sp)]
    exact h.cells i v ((getElem?_reverse_cons_of_lt hi).trans hv)

theorem Holds.top_lower (h : m.Holds b (x :: xs)) (hb : 16 ≤ b) : m.lower.top = x := by
  have hsp : m.lower.reg .sp = UInt16.ofNat (b + xs.length) := by
    rw [← (h.lower hb).sp, UInt16.ofNat_toNat]
  rw [top, lower_of_ne ((h.lower hb).free hb .sp), hsp]
  exact h.cells xs.length x (getElem?_reverse_cons_length x xs)

theorem push_of_ne (hsp : Free (m.reg .sp)) (h : x ≠ Register.sp.word) (hx : x ≠ m.reg .sp) :
    m.push v x = m x := by
  rw [push_eq hsp, setReg, put_of_ne h, put_of_ne hx]

theorem Holds.push (h : m.Holds b xs) (hb : 16 ≤ b) (hroom : b + xs.length + 1 < 65536)
    (v : Word) : (m.push v).Holds b (v :: xs) := by
  have hsp := h.sp
  constructor
  · rw [push_eq (h.free hb), reg_setReg_self, List.length_cons]
    have hmore : (m.reg .sp + 1).toNat = (m.reg .sp).toNat + 1 := toNat_add_ofNat (n := 1) (by omega)
    omega
  · intro i x hx
    obtain ⟨hi, -⟩ := List.getElem?_eq_some_iff.mp hx
    rw [List.length_reverse, List.length_cons] at hi
    have hcell : (UInt16.ofNat (b + i)).toNat = b + i := toNat_ofNat_of_lt (by omega)
    have hfree : Free (UInt16.ofNat (b + i)) := free_of_le (by omega)
    by_cases htop : i = xs.length
    · have hat : UInt16.ofNat (b + i) = m.reg .sp := UInt16.toNat_inj.mp (by omega)
      rw [htop, getElem?_reverse_cons_length] at hx
      rw [hat, push_eq (h.free hb), setReg_free (h.free hb), put_self]
      exact Option.some.inj hx
    · have hne : UInt16.ofNat (b + i) ≠ m.reg .sp := by
        intro heq
        have hnat := congrArg UInt16.toNat heq
        omega
      rw [getElem?_reverse_cons_of_lt (by omega)] at hx
      rw [push_of_ne (h.free hb) (hfree .sp) hne]
      exact h.cells i x hx

theorem Holds.kept_push (h : m.Holds b xs) (hb : 16 ≤ b) (hn : xs.length < n) (v : Word) :
    m.Kept (m.push v) b n := by
  have hsp := h.sp
  intro x hx hout
  refine push_of_ne (h.free hb) hx ?_
  rintro rfl
  omega

/-! ## Commands -/

def apply (m : Memory) : Operation.Rule → Memory
  | .unary f => m.unary f
  | .binary f => m.binary f

/-- An operation is one or two pops and a push. -/
theorem apply_eq (m : Memory) (r : Operation.Rule) :
    m.apply r = match r with
      | .unary f => m.lower.push (f m.lower.top)
      | .binary f => m.lower.lower.push (f m.lower.lower.top m.lower.top) := by
  cases r <;> rfl

theorem compare_eq (h : m.lower.lower.reg .sp ≠ 0) (test : Int → Bool) :
    m.compare test = m.binary fun x y => truth (test (signed (x - y))) := by
  rw [compare, answer_eq h]
  rfl

theorem operate_eq (h : m.lower.lower.reg .sp ≠ 0) (op : Operation) :
    m.operate op = m.apply op.rule := by
  cases op with
  | eq => exact compare_eq h fun v => v = 0
  | gt => exact compare_eq h fun v => 0 < v
  | lt => exact compare_eq h fun v => v < 0
  | _ => rfl

theorem Holds.apply (h : m.Holds b xs) (hb : 16 ≤ b) {r : Operation.Rule}
    (hys : r.apply xs = some ys) : (m.apply r).Holds b ys ∧ m.Kept (m.apply r) b xs.length := by
  have hsp := h.sp
  have hlt := (m.reg .sp).toNat_lt
  rw [apply_eq]
  match r, xs, hys with
  | .unary f, y :: rest, hys =>
    obtain rfl := Option.some.inj hys
    rw [List.length_cons] at hsp ⊢
    have hrest := h.lower hb
    simp only [h.top_lower hb]
    exact ⟨hrest.push hb (by omega) _,
      (kept_lower m b _).trans (hrest.kept_push hb (Nat.lt_succ_self _) _)⟩
  | .binary f, y :: x :: rest, hys =>
    obtain rfl := Option.some.inj hys
    rw [List.length_cons, List.length_cons] at hsp ⊢
    have hone := h.lower hb
    have hrest := hone.lower hb
    simp only [h.top_lower hb, hone.top_lower hb]
    refine ⟨hrest.push hb (by omega) _, ?_⟩
    exact ((kept_lower m b _).trans (kept_lower m.lower b _)).trans
      (hrest.kept_push hb (by omega) _)

theorem Holds.operate (h : m.Holds b xs) (hb : 16 ≤ b) {op : Operation}
    (hys : op.rule.apply xs = some ys) :
    (m.operate op).Holds b ys ∧ m.Kept (m.operate op) b xs.length := by
  have hsp := h.sp
  have hne : m.lower.lower.reg .sp ≠ 0 := by
    have hone : (m.reg .sp - 1).toNat = (m.reg .sp).toNat - 1 := toNat_sub_ofNat (n := 1) (by omega)
    have htwo : (m.reg .sp - 1 - 1).toNat = (m.reg .sp - 1).toNat - 1 :=
      toNat_sub_ofNat (n := 1) (by omega)
    rw [sp_lower, sp_lower]
    intro hzero
    have h0 : (0 : Word).toNat = 0 := rfl
    rw [hzero] at htwo
    omega
  rw [operate_eq hne]
  exact h.apply hb hys

/-- One command does to the stack what it does to the list. -/
theorem Holds.effect (h : m.Holds b xs) (hb : 16 ≤ b) {c : Command}
    (hys : c.evaluate xs = some ys) (hroom : b + ys.length < 65536) (ctx : Context) :
    (c.effect ctx m).1.Holds b ys ∧ m.Kept (c.effect ctx m).1 b (max xs.length ys.length) := by
  rcases Command.evaluate_some hys with ⟨value, rfl, -, rfl⟩ | ⟨op, rfl, hop⟩
  · rw [List.length_cons] at hroom ⊢
    exact ⟨h.push hb hroom value, h.kept_push hb (by omega) value⟩
  · obtain ⟨hholds, hkept⟩ := h.operate hb hop
    exact ⟨hholds, hkept.mono (Nat.le_max_left ..)⟩

end Memory

end HackVm
