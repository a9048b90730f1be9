import HackVm.Proofs.Blocks
import HackVm.Proofs.Layout
import HackVm.Proofs.Statics

/-!
# Whole programs

The stack machine runs a program command by command (`Job.step`), and the
machine follows it (`Job.Simulates`): each command takes it from the first
slot of its code to the first slot of the command that comes next, with
the memory that the command leaves. So runs correspond, in both
directions. Every run of the stack machine is matched, and every run of
the machine, cut off anywhere, lies between two commands of a run of the
stack machine.

For the second direction a matched command has to cost a step, or the
machine could stand still while the stack machine goes on. Commands
without code cost none; they go on to the command behind them, so that
only finitely many follow each other (`Job.run_follows`).
-/

namespace HackVm

open Assembly

namespace Job

/-! ## Runs of the stack machine -/

/-- The stack machine in front of a command. -/
structure State where
  command : Nat
  ram : Memory

variable (j : Job) (code : List Instruction)

def context (k : Nat) (s : Site) : Context := Code.context code s.file (j.start (k + 1))

/-- The command that an exit leads to, from the command at an index. -/
def next? (k : Nat) : Exit → Option Nat
  | .next => some (k + 1)
  | .label name => j.declaring? name
  | .back slot => j.starting? slot.toNat

/-- One command. There is no step behind the last command, to a name that
no command declares, or back to a slot where no command begins. -/
def step (v : State) : Option State :=
  j.sites[v.command]?.bind fun s =>
    let after := s.command.effect (j.context code v.command s) v.ram
    (j.next? v.command after.2).map (⟨·, after.1⟩)

def run : Nat → State → Option State
  | 0, v => some v
  | n + 1, v => (j.step code v).bind (run n)

/-- Where the stack machine begins: at the first command, or where the
call of the bootstrap leads. -/
def initial (ram : Memory) : Option State :=
  if j.withBootstrap then
    (j.declaring? j.config.entry).map
      (⟨·, (ram.setReg .sp Code.stackBase).call 0 (UInt16.ofNat (j.start 0))⟩)
  else some ⟨0, ram⟩

def machine (a d : Word) (v : State) : Machine := ⟨⟨a, d, v.ram⟩, j.start v.command⟩

/-- A clean table of symbols: labels are unique and are not the names of
registers or of static cells. -/
structure Clean : Prop extends Loadable code where
  statics : ∀ name ∈ j.staticSymbols, name ∉ labels code

variable {j code} {k : Nat} {s : Site}

/-! ## One command -/

section Step

variable (h : j.translate = .ok code) (hcode : Loadable code)

include h hcode

/-- Every command, from any registers and memory. -/
theorem leads_command (hk : j.sites[k]? = some s) (c : Core) :
    Code.Leads code (min 1 (j.start (k + 1) - j.start k)) c (j.start k)
      (s.command.effect (j.context code k s) c.ram).1
      ((s.command.effect (j.context code k s) c.ram).2.slot code (j.start (k + 1))) := by
  obtain ⟨body, hbody, hplaced, hstart⟩ := placed_body h hk
  have hleads := Code.leads_ofCommand hcode hbody hplaced c
  rw [← hstart] at hleads
  rwa [hstart, Nat.add_sub_cancel_left, ← hstart]

theorem slot_of_next {e : Exit} {k' : Nat} (hnext : j.next? k e = some k') :
    e.slot code (j.start (k + 1)) = j.start k' := by
  cases e with
  | next =>
    obtain rfl := Option.some.inj hnext
    rfl
  | label name => exact start_declaring h hcode hnext
  | back slot => exact (start_starting hnext).symm

theorem leads_step {c : Core} {v : State} (hstep : j.step code ⟨k, c.ram⟩ = some v) :
    Code.Leads code (min 1 (j.start (k + 1) - j.start k)) c (j.start k) v.ram
      (j.start v.command) := by
  obtain ⟨s, hs, hstep⟩ := Option.bind_eq_some_iff.mp hstep
  obtain ⟨k', hnext, rfl⟩ := Option.map_eq_some_iff.mp hstep
  have hleads := leads_command h hcode hs c
  rwa [slot_of_next h hcode hnext] at hleads

omit hcode in
/-- A command that takes no slot goes on to the command behind it. -/
theorem step_of_no_slot {ram : Memory} {v : State} (hstep : j.step code ⟨k, ram⟩ = some v)
    (hslots : j.start (k + 1) = j.start k) : v.command = k + 1 ∧ k < j.sites.length := by
  obtain ⟨s, (hs : j.sites[k]? = some s), hstep⟩ := Option.bind_eq_some_iff.mp hstep
  obtain ⟨k', hnext, rfl⟩ := Option.map_eq_some_iff.mp hstep
  obtain ⟨body, hbody, -, hstart⟩ := placed_body h hs
  have hexit := Code.effect_of_no_slot hbody (by omega) (j.context code k s) ram
  rw [hexit] at hnext
  exact ⟨(Option.some.inj hnext).symm, (List.getElem?_eq_some_iff.mp hs).1⟩

end Step

/-- There is a step unless a name is not declared, or a return finds no
command to go back to. -/
theorem isSome_step (hk : j.sites[k]? = some s) (ram : Memory)
    (htarget : ∀ name, s.command.target? = some name →
      ∃ s' ∈ j.sites, s'.command.declared? = some name)
    (hret : s.command = .ret →
      ∃ k' ≤ j.sites.length, j.start k' = (ram.ret.reg .link).toNat) :
    (j.step code ⟨k, ram⟩).isSome := by
  have hstep : j.step code ⟨k, ram⟩ =
      (j.next? k (s.command.effect (j.context code k s) ram).2).map
        (⟨·, (s.command.effect (j.context code k s) ram).1⟩) := by
    rw [step, hk, Option.bind_some]
  have hname {name : String} (hn : s.command.target? = some name) :
      (j.next? k (.label name)).isSome := isSome_declaring?.mpr (htarget name hn)
  rw [hstep, Option.isSome_map]
  cases hc : s.command with
  | goto name => exact hname (by rw [hc]; rfl)
  | call name args => exact hname (by rw [hc]; rfl)
  | ifGoto name =>
    rw [Command.effect]
    split
    · rfl
    · exact hname (by rw [hc]; rfl)
  | ret => exact isSome_starting?.mpr (hret hc)
  | _ => rfl

theorem starting?_back (h : j.translate = .ok code) (hcode : Loadable code)
    (hk : j.sites[k]? = some s) {name : String} {args : UInt16}
    (hcall : s.command = .call name args) :
    j.starting? (j.context code k s).back.toNat = some (k + 1) := by
  obtain ⟨body, hbody, -, hstart⟩ := placed_body h hk
  have hlt : k < j.sites.length := (List.getElem?_eq_some_iff.mp hk).1
  have hpos : 0 < slots body := by
    rw [Nat.pos_iff_ne_zero]
    intro hslots
    have hexit := Code.effect_of_no_slot hbody hslots (j.context code k s) fun _ => 0
    rw [hcall] at hexit
    cases hexit
  have hle : j.start (k + 1) ≤ slots code := start_le h hlt
  have hshort := hcode.short
  have hback : (j.context code k s).back.toNat = j.start (k + 1) :=
    toNat_ofNat_of_lt (by omega)
  rw [hback]
  exact starting?_behind hlt (by omega)

/-! ## Runs -/

section Run

variable (h : j.translate = .ok code) (hcode : Loadable code)

include h hcode

/-- A run of the stack machine is matched by a run of the machine. -/
theorem leads_run {n : Nat} {c : Core} {v : State} (hrun : j.run code n ⟨k, c.ram⟩ = some v) :
    Code.Leads code 0 c (j.start k) v.ram (j.start v.command) := by
  induction n generalizing k c with
  | zero =>
    obtain rfl := Option.some.inj hrun
    exact Code.leads_refl c.a c.d
  | succ n ih =>
    obtain ⟨v₁, hstep, hrest⟩ := Option.bind_eq_some_iff.mp hrun
    have hfirst := (leads_step h hcode hstep).mono (Nat.zero_le _)
    exact hfirst.trans fun a d => ih (c := ⟨a, d, v₁.ram⟩) hrest

/-- A run of the machine, cut off anywhere, has passed some command of the
stack machine's run and not yet the next one. The recursion is on the
length of the run, and among commands without code on the commands that
are left. -/
theorem run_follows (n k : Nat) (c : Core) {m : Machine}
    (hrun : Machine.run (assemble code) n ⟨c, j.start k⟩ = some m) :
    ∃ i v a d, j.run code i ⟨k, c.ram⟩ = some v
      ∧ Machine.Reaches (assemble code) ⟨c, j.start k⟩ (j.machine a d v)
      ∧ Machine.Reaches (assemble code) (j.machine a d v) m
      ∧ ∀ v', j.step code v = some v' →
        ∃ a' d', Machine.Reaches (assemble code) m (j.machine a' d' v') := by
  rcases hstep : j.step code ⟨k, c.ram⟩ with _ | v
  · refine ⟨0, ⟨k, c.ram⟩, c.a, c.d, rfl, .refl _, Machine.run_reaches hrun, fun v' hv' => ?_⟩
    rw [hstep] at hv'
    cases hv'
  · obtain ⟨l, a, d, hcost, hfirst⟩ := leads_step h hcode hstep
    by_cases hle : l ≤ n
    · have hrest : Machine.run (assemble code) (n - l) ⟨⟨a, d, v.ram⟩, j.start v.command⟩ = some m :=
        Machine.run_rest hfirst (by rwa [Nat.add_sub_cancel' hle])
      have hless : n - l < n ∨
          n - l = n ∧ j.sites.length - v.command < j.sites.length - k := by
        by_cases hslots : j.start (k + 1) = j.start k
        · have hnext := step_of_no_slot h hstep hslots
          omega
        · have hmono := j.start_mono (Nat.le_add_right k 1)
          omega
      obtain ⟨i, v₁, a₁, d₁, hi, hto, hpast, hmore⟩ :=
        run_follows (n - l) v.command ⟨a, d, v.ram⟩ hrest
      refine ⟨i + 1, v₁, a₁, d₁, ?_, (Machine.run_reaches hfirst).trans hto, hpast, hmore⟩
      rw [run, hstep]
      exact hi
    · have hrest : Machine.run (assemble code) (l - n) m =
          some ⟨⟨a, d, v.ram⟩, j.start v.command⟩ :=
        Machine.run_rest hrun (by rwa [Nat.add_sub_cancel' (Nat.le_of_not_le hle)])
      refine ⟨0, ⟨k, c.ram⟩, c.a, c.d, rfl, .refl _, Machine.run_reaches hrun, fun v' hv' => ?_⟩
      rw [hstep] at hv'
      obtain rfl := Option.some.inj hv'
      exact ⟨a, d, Machine.run_reaches hrest⟩
termination_by (n, j.sites.length - k)
decreasing_by
  rcases hless with hless | ⟨heq, hless⟩
  · exact Prod.Lex.left _ _ hless
  · rw [heq]
    exact Prod.Lex.right _ hless

end Run

/-! ## The beginning -/

/-- The bootstrap sets up the stack and carries out its call. -/
theorem leads_bootstrap (h : j.translate = .ok code) (hcode : Loadable code)
    (hboot : j.withBootstrap = true) (c : Core) :
    Code.Leads code 1 c 0
      ((c.ram.setReg .sp Code.stackBase).call 0 (UInt16.ofNat (j.start 0)))
      (valueOf code j.config.entry).toNat := by
  have hv := hcode.namesRegisters
  obtain ⟨-, hcodeEq⟩ := translate_ok h
  let remark (text : String) := Code.remark j.config.comments text
  let setUp := remark "bootstrap" ++ Code.loadD Code.stackBase ++ Code.storeD .sp ++
    remark (Code.entryCall j.config.entry).text
  let call := Code.call j.config.entry 0 (Labels.back 0)
  have hhead : j.head = setUp ++ call := by
    rw [head, hboot]
    rfl
  have hplaced : Placed code 0 (setUp ++ call) :=
    ⟨[], j.blocks.flatten, by rw [hcodeEq, hhead]; rfl, rfl⟩
  have hend : j.start 0 = 0 + slots setUp + slots call := by
    rw [start_zero, hhead, slots_append, Nat.zero_add]
  have hstraight : isStraight setUp = true := by
    cases hcomments : j.config.comments <;> simp only [setUp, remark, hcomments] <;> rfl
  have hset : (exec (valueOf code) setUp c).ram = c.ram.setReg .sp Code.stackBase := by
    cases hcomments : j.config.comments <;>
      simp only [setUp, remark, hcomments, exec_append, Code.exec_storeD hv, Code.exec_loadD] <;>
      rfl
  rw [hend, ← hset]
  exact Code.leads_append hplaced hstraight (Code.leads_call hcode hplaced.right)

theorem leads_initial (h : j.translate = .ok code) (hcode : Loadable code) {c : Core} {v : State}
    (hv : j.initial c.ram = some v) : Code.Leads code 0 c 0 v.ram (j.start v.command) := by
  cases hboot : j.withBootstrap with
  | false =>
    rw [initial, hboot, if_neg Bool.false_ne_true] at hv
    obtain rfl := Option.some.inj hv
    have hzero : j.start 0 = 0 := by rw [start_zero, head, hboot]; rfl
    rw [hzero]
    exact Code.leads_refl c.a c.d
  | true =>
    rw [initial, hboot, if_pos rfl] at hv
    obtain ⟨k, hk, rfl⟩ := Option.map_eq_some_iff.mp hv
    rw [← start_declaring h hcode hk]
    exact (leads_bootstrap h hcode hboot c).mono (Nat.zero_le 1)

/-! ## Static cells -/

theorem static_variable (h : j.translate = .ok code) (hclean : j.Clean code) (hs : s ∈ j.sites)
    {i : UInt16} (hi : s.command.static? = some i) :
    Cell.staticSymbol s.file i ∈ variableNames code :=
  mem_variableNames.mpr
    ⟨mem_symbols_static h hs hi, hclean.statics _ (mem_staticSymbols hs hi), predefined?_staticSymbol s.file i⟩

/-! ## The simulation -/

/-- The machine follows the stack machine. -/
structure Simulates (j : Job) (code : List Instruction) : Prop where
  /-- Every command, from any registers and memory, leaves its memory and
  goes to the slot where it leads. -/
  command : ∀ k s, j.sites[k]? = some s → ∀ c : Core,
    ∃ a d, Machine.Reaches (assemble code) ⟨c, j.start k⟩
      ⟨⟨a, d, (s.command.effect (j.context code k s) c.ram).1⟩,
        (s.command.effect (j.context code k s) c.ram).2.slot code (j.start (k + 1))⟩
  /-- This slot is the first of the command that comes next. -/
  step : ∀ k c v, j.step code ⟨k, c.ram⟩ = some v →
    ∃ a d, Machine.Reaches (assemble code) ⟨c, j.start k⟩ (j.machine a d v)
  /-- A command comes next if names are declared, and returns come back to
  where a command begins. -/
  next : ∀ k s ram, j.sites[k]? = some s →
    (∀ name, s.command.target? = some name →
      ∃ s' ∈ j.sites, s'.command.declared? = some name) →
    (s.command = .ret → ∃ k' ≤ j.sites.length, j.start k' = (ram.ret.reg .link).toNat) →
    (j.step code ⟨k, ram⟩).isSome
  /-- What a call pushes to come back to means the command behind it. -/
  back : ∀ k s name args, j.sites[k]? = some s → s.command = .call name args →
    j.starting? (j.context code k s).back.toNat = some (k + 1)
  /-- Static cells are variables, and symbols tell them apart. -/
  statics : ∀ s ∈ j.sites, ∀ i, s.command.static? = some i →
    firstVariable ≤ (valueOf code (Cell.staticSymbol s.file i)).toNat
      ∧ ∀ s' ∈ j.sites, ∀ i', s'.command.static? = some i' →
        (valueOf code (Cell.staticSymbol s.file i) = valueOf code (Cell.staticSymbol s'.file i')
          ↔ s.file = s'.file ∧ i = i')
  /-- From its first slot the machine comes to where the stack machine
  begins. -/
  initial : ∀ c v, j.initial c.ram = some v →
    ∃ a d, Machine.Reaches (assemble code) ⟨c, 0⟩ (j.machine a d v)
  /-- Every run of the stack machine is matched. -/
  run : ∀ n k c v, j.run code n ⟨k, c.ram⟩ = some v →
    ∃ a d, Machine.Reaches (assemble code) ⟨c, j.start k⟩ (j.machine a d v)
  /-- Every run of the machine has passed some command of the stack
  machine's run, and not yet the next one. -/
  follows : ∀ n k c m, Machine.run (assemble code) n ⟨c, j.start k⟩ = some m →
    ∃ i v a d, j.run code i ⟨k, c.ram⟩ = some v
      ∧ Machine.Reaches (assemble code) ⟨c, j.start k⟩ (j.machine a d v)
      ∧ Machine.Reaches (assemble code) (j.machine a d v) m
      ∧ ∀ v', j.step code v = some v' →
        ∃ a' d', Machine.Reaches (assemble code) m (j.machine a' d' v')

/-- A program that fits the machine and has a clean table of symbols is
carried out, command by command and run by run. -/
theorem simulates (h : j.translate = .ok code) (hclean : j.Clean code) : j.Simulates code where
  command k s hk c := (leads_command h hclean.toLoadable hk c).reaches
  step k c v hstep := (leads_step h hclean.toLoadable hstep).reaches
  next k s ram hk := isSome_step hk ram
  back k s name args hk hcall := starting?_back h hclean.toLoadable hk hcall
  statics s hs i hi := by
    have hvar := static_variable h hclean hs hi
    refine ⟨?_, fun s' hs' i' hi' => ?_⟩
    · rw [toNat_valueOf_variable hclean.short hvar]
      exact Nat.le_add_right ..
    · rw [valueOf_variable_inj hclean.short hvar (static_variable h hclean hs' hi'),
        Cell.staticSymbol_inj]
  initial c v hv := (leads_initial h hclean.toLoadable hv).reaches
  run n k c v hrun := (leads_run h hclean.toLoadable hrun).reaches
  follows n k c m hrun := run_follows h hclean.toLoadable n k c hrun

/-- A program of two files: one calls a function of the other, keeps the
result in a static cell, and loops. -/
def doubling : Job :=
  ⟨{}, true,
    [⟨"Main.vm", "function Main.double 0\npush argument 0\npush argument 0\nadd\nreturn"⟩,
     ⟨"Sys.vm", "function Sys.init 0\npush constant 2\ncall Main.double 1\npop static 0\n" ++
       "label END\npush static 0\npush constant 4\neq\nif-goto END"⟩]⟩

theorem simulates_doubling : doubling.Simulates doubling.output := by
  have hfacts : doubling.translate.toOption.isSome = true
      ∧ slots doubling.output < 32768
      ∧ (labels doubling.output).Nodup
      ∧ (∀ name ∈ labels doubling.output, predefined? name = none)
      ∧ ∀ name ∈ doubling.staticSymbols, name ∉ labels doubling.output := by
    decide +kernel
  obtain ⟨hok, hshort, honce, hown, hstatics⟩ := hfacts
  exact simulates (translate_output hok) ⟨⟨hshort, honce, hown⟩, hstatics⟩

end Job

end HackVm
