import Mathlib.Logic.Function.Iterate
import HackVm.Command
import HackVm.Proofs.Assembly

/-!
# The stack machine

What each command means, said about the memory alone. The stack pointer,
the segment bases and the scratch cells of a return are ordinary cells,
and nothing keeps the stack or a segment from lying on top of them. So a
command is spelled out as the single reads and writes it consists of, in
order, and its meaning is exact for every memory; what becomes simpler
when cells are kept apart is a lemma (`Memory.answer_eq`).

Two things a command cannot know from itself are its `Context`: where the
static cells of its file lie, and which slot a call comes back to.
-/

namespace HackVm

namespace Memory

/-! ## Cells, registers and the stack -/

variable (m : Memory)

def put (address value : Word) : Memory := Function.update m address value

def reg (r : Register) : Word := m r.word

def setReg (r : Register) (value : Word) : Memory := m.put r.word value

@[simp] theorem reg_setReg_self (r : Register) (value : Word) :
    (m.setReg r value).reg r = value :=
  Function.update_self ..

def lower : Memory := m.setReg .sp (m.reg .sp - 1)

def raise : Memory := m.setReg .sp (m.reg .sp + 1)

/-- The cell that the stack pointer names. It is the top of the stack once
the pointer has been lowered. -/
def top : Word := m (m.reg .sp)

def setTop (value : Word) : Memory := m.put (m.reg .sp) value

def push (value : Word) : Memory := (m.setTop value).raise

def popTo (address : Word) : Memory := m.lower.put address m.lower.top

/-! ## Operations -/

def unary (f : Word → Word) : Memory :=
  let m₁ := m.lower
  (m₁.setTop (f m₁.top)).raise

def binary (f : Word → Word → Word) : Memory :=
  let m₁ := m.lower
  let m₂ := m₁.lower
  (m₂.setTop (f m₂.top m₁.top)).raise

/-- Answer a question where the stack pointer points: write true, and
false over it if that is the answer. -/
def answer (yes : Bool) : Memory :=
  let m₁ := m.setTop (-1)
  if yes then m₁ else m₁.setTop 0

/-- Replace the top value and the one below it by the truth of a condition
on their difference, a wrapped word with a sign. -/
def compare (test : Int → Bool) : Memory :=
  let m₁ := m.lower
  let m₂ := m₁.lower
  (m₂.answer (test (signed (m₂.top - m₁.top)))).raise

def operate : Operation → Memory
  | .add => m.binary (· + ·)
  | .sub => m.binary (· - ·)
  | .and => m.binary (· &&& ·)
  | .or => m.binary (· ||| ·)
  | .neg => m.unary (- ·)
  | .not => m.unary (~~~ ·)
  | .eq => m.compare (· = 0)
  | .gt => m.compare (0 < ·)
  | .lt => m.compare (· < 0)

/-- Unless the stack pointer names itself, an answer is a single write. -/
theorem answer_eq {m : Memory} (h : m.reg .sp ≠ 0) (yes : Bool) :
    m.answer yes = m.setTop (if yes then -1 else 0) := by
  cases yes with
  | true => rfl
  | false =>
    have hsp : (m.setTop (-1)).reg .sp = m.reg .sp := Function.update_of_ne h.symm ..
    show (m.setTop (-1)).put ((m.setTop (-1)).reg .sp) 0 = m.setTop 0
    rw [hsp]
    exact Function.update_idem ..

/-! ## Calls and returns -/

def save (r : Register) : Memory := m.push (m.reg r)

/-- Push where to go back to, and the registers of the caller. -/
def pushFrame (back : Word) : Memory :=
  [Register.lcl, .arg, .this, .that].foldl save (m.push back)

/-- Push a frame and point the registers of the called function at its
arguments, which lie below the frame, and at its variables above. -/
def call (args back : Word) : Memory :=
  let m₁ := m.pushFrame back
  let m₂ := m₁.setReg .arg (m₁.reg .sp - (args + 5))
  m₂.setReg .lcl (m₂.reg .sp)

/-- Step the frame down and copy what it names to a register. -/
def restore (r : Register) : Memory :=
  let m₁ := m.setReg .frame (m.reg .frame - 1)
  m₁.setReg r (m₁ (m₁.reg .frame))

/-- Keep the frame and the slot to go back to, hand over the result and
drop the stack of the function. -/
def handOver : Memory :=
  let m₁ := m.setReg .frame (m.reg .lcl)
  let m₂ := m₁.setReg .link (m₁ (m₁.reg .frame - 5))
  let m₃ := m₂.popTo (m₂.lower.reg .arg)
  m₃.setReg .sp (m₃.reg .arg + 1)

/-- Hand over the result and restore the registers of the caller. -/
def ret : Memory := [Register.that, .this, .arg, .lcl].foldl restore m.handOver

end Memory

/-! ## Commands -/

structure Context where
  /-- The addresses of the static cells of its file. -/
  statics : Word → Word
  /-- The slot behind its code, where a call comes back to. -/
  back : Word

inductive Exit where
  /-- To the command behind it. -/
  | next
  /-- To the command that declares a name. -/
  | label (name : String)
  /-- To the command whose code begins at a slot. -/
  | back (slot : Word)
deriving DecidableEq

/-- The address of an index of a segment; constants have none. -/
def Segment.address? (ctx : Context) (m : Memory) (index : Word) : Segment → Option Word
  | constant => none
  | locals => some (m.reg .lcl + index)
  | arguments => some (m.reg .arg + index)
  | this => some (m.reg .this + index)
  | that => some (m.reg .that + index)
  | temp => some (5 + index)
  | pointer => some (3 + index)
  | static => some (ctx.statics index)
  | sp => some (m.reg .sp + index)

/-- What a command leaves in the memory, and where it leads. The address
that a pop stores to is found before the stack pointer moves. -/
def Command.effect (ctx : Context) (m : Memory) : Command → Memory × Exit
  | push s index => (m.push (((s.address? ctx m index).map m).getD index), .next)
  | pop s index => (((s.address? ctx m index).map m.popTo).getD m, .next)
  | operate op => (m.operate op, .next)
  | label _ => (m, .next)
  | goto name => (m, .label name)
  | ifGoto name => (m.lower, if m.lower.top = 0 then .next else .label name)
  | function _ locals => ((Memory.push · 0)^[locals.toNat] m, .next)
  | call name args => (m.call args ctx.back, .label name)
  | ret => (m.ret, .back (m.ret.reg .link))

end HackVm
