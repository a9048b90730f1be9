import Mathlib.Logic.Function.Basic
import HackVm.Hack.Instruction

/-!
# The Hack computer

The machine that runs assembled code: two registers, a memory that is
total over 16-bit addresses, and a program counter. All words wrap
around. A program is a list of operations, addressed by their slots; what
the assembler makes of symbols is settled before the machine starts
(`HackVm.Proofs.Assembly`).

The step is a function, so a run is determined by where it starts
(`Machine.run`), and "reaches" only forgets the number of steps.
-/

namespace HackVm

abbrev Word := UInt16

/-- A word read as a number with a sign. -/
def signed (w : Word) : Int := w.toInt16.toInt

theorem signed_eq_zero {w : Word} : signed w = 0 ↔ w = 0 := by
  constructor
  · intro h
    have h0 : w.toInt16 = UInt16.toInt16 0 := Int16.toInt_inj.mp h
    exact congrArg Int16.toUInt16 h0
  · rintro rfl
    rfl

theorem toNat_ofNat_of_lt {n : Nat} (h : n < 65536) : (UInt16.ofNat n).toNat = n :=
  UInt16.toNat_ofNat_of_lt' h

theorem toNat_add_ofNat {w : Word} {n : Nat} (h : w.toNat + n < 65536) :
    (w + UInt16.ofNat n).toNat = w.toNat + n := by
  rw [UInt16.toNat_add, toNat_ofNat_of_lt (by omega)]
  exact Nat.mod_eq_of_lt h

theorem toNat_sub_of_le {v w : Word} (h : w.toNat ≤ v.toNat) :
    (v - w).toNat = v.toNat - w.toNat :=
  UInt16.toNat_sub_of_le v w (UInt16.le_iff_toNat_le.mpr h)

theorem toNat_sub_ofNat {w : Word} {n : Nat} (h : n ≤ w.toNat) :
    (w - UInt16.ofNat n).toNat = w.toNat - n := by
  have hn : (UInt16.ofNat n).toNat = n := toNat_ofNat_of_lt (Nat.lt_of_le_of_lt h w.toNat_lt)
  rw [toNat_sub_of_le (by omega), hn]

abbrev Memory := Word → Word

/-- All of the machine but its program counter. -/
structure Core where
  a : Word
  d : Word
  ram : Memory

structure Machine where
  core : Core
  pc : Nat

/-- An instruction that takes a slot, with its symbol replaced by a word. -/
inductive Op where
  | load (value : Word)
  | compute (dest : Option Dest) (comp : Comp) (jump : Option Jump)
deriving DecidableEq

/-! ## Single operations -/

/-- The value of an expression, where `m` is the cell that `A` names. -/
def Comp.eval (a d m : Word) : Comp → Word
  | zero => 0
  | one => 1
  | minusOne => -1
  | .d => d
  | .a => a
  | .m => m
  | notD => ~~~d
  | notA => ~~~a
  | notM => ~~~m
  | negD => -d
  | negA => -a
  | negM => -m
  | dPlusOne => d + 1
  | aPlusOne => a + 1
  | mPlusOne => m + 1
  | dMinusOne => d - 1
  | aMinusOne => a - 1
  | mMinusOne => m - 1
  | dPlusA => d + a
  | dPlusM => d + m
  | dMinusA => d - a
  | dMinusM => d - m
  | aMinusD => a - d
  | mMinusD => m - d
  | dAndA => d &&& a
  | dAndM => d &&& m
  | dOrA => d ||| a
  | dOrM => d ||| m

namespace Core

def value (c : Core) (comp : Comp) : Word := comp.eval c.a c.d (c.ram c.a)

/-- Store a value. The cell written is the one that `A` names before. -/
def store (c : Core) (dest : Option Dest) (v : Word) : Core :=
  match dest with
  | none => c
  | some x =>
    { a := if x.writesA then v else c.a
      d := if x.writesD then v else c.d
      ram := if x.writesM then Function.update c.ram c.a v else c.ram }

end Core

namespace Op

def exec (c : Core) : Op → Core
  | load value => { c with a := value }
  | compute dest comp _ => c.store dest (c.value comp)

def jumps (c : Core) : Op → Bool
  | load _ => false
  | compute _ comp jump => jump.any (·.isTaken (signed (c.value comp)))

/-- One operation: a jump goes to the slot that `A` names before it. -/
def step (m : Machine) (op : Op) : Machine :=
  ⟨op.exec m.core, if op.jumps m.core then m.core.a.toNat else m.pc + 1⟩

end Op

/-! ## Runs -/

namespace Machine

/-- One step; there is none outside the program. -/
def step (program : List Op) (m : Machine) : Option Machine :=
  program[m.pc]?.map (Op.step m)

def run (program : List Op) : Nat → Machine → Option Machine
  | 0, m => some m
  | n + 1, m => (m.step program).bind (run program n)

def Reaches (program : List Op) (m m' : Machine) : Prop :=
  ∃ n, run program n m = some m'

variable {program : List Op} {m m₁ m₂ : Machine}

theorem run_add (k n : Nat) (m : Machine) :
    run program (k + n) m = (run program k m).bind (run program n) := by
  induction k generalizing m with
  | zero => rw [Nat.zero_add, run, Option.bind_some]
  | succ k ih =>
    have hstep : run program (k + 1 + n) m = (m.step program).bind (run program (k + n)) := by
      rw [Nat.add_right_comm, run]
    rw [hstep, run, Option.bind_assoc]
    exact congrArg _ (funext ih)

theorem run_of_step (h : m.step program = some m₁) : run program 1 m = some m₁ := by
  simp [run, h]

theorem run_trans {k n : Nat} (h₁ : run program k m = some m₁)
    (h₂ : run program n m₁ = some m₂) : run program (k + n) m = some m₂ := by
  rw [run_add, h₁, Option.bind_some, h₂]

/-- A longer run passes through the end of a shorter one. -/
theorem run_rest {k n : Nat} (h₁ : run program k m = some m₁)
    (h₂ : run program (k + n) m = some m₂) : run program n m₁ = some m₂ := by
  rwa [run_add, h₁, Option.bind_some] at h₂

/-- A run that comes back, time and again, to where it began does not end. -/
theorem run_ne_of_back {p q : Nat} {P : Core → Prop} (hend : ∀ w, step program ⟨w, q⟩ = none)
    (hback : ∀ v, P v → ∃ k w, 0 < k ∧ run program k ⟨v, p⟩ = some ⟨w, p⟩ ∧ P w)
    (n : Nat) {v : Core} (hv : P v) (w : Core) : run program n ⟨v, p⟩ ≠ some ⟨w, q⟩ := by
  induction n using Nat.strongRecOn generalizing v with
  | ind n ih =>
    intro hrun
    obtain ⟨k, v', hk, hloop, hv'⟩ := hback v hv
    rcases Nat.lt_or_ge n k with hlt | hle
    · -- The way back would go on from the end.
      obtain ⟨i, rfl⟩ := Nat.exists_eq_add_of_lt hlt
      have hon := run_rest (n := i + 1) hrun hloop
      rw [run, hend] at hon
      cases hon
    · obtain ⟨i, rfl⟩ := Nat.exists_eq_add_of_le hle
      exact ih i (Nat.lt_add_of_pos_left hk) hv' (run_rest hloop hrun)

theorem run_reaches {n : Nat} (h : run program n m = some m₁) : Reaches program m m₁ :=
  ⟨n, h⟩

theorem Reaches.refl (m : Machine) : Reaches program m m := ⟨0, rfl⟩

theorem Reaches.trans (h₁ : Reaches program m m₁) (h₂ : Reaches program m₁ m₂) :
    Reaches program m m₂ := by
  obtain ⟨k, hk⟩ := h₁
  obtain ⟨n, hn⟩ := h₂
  exact ⟨k + n, run_trans hk hn⟩

end Machine

end HackVm
