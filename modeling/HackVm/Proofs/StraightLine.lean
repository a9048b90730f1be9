import HackVm.Proofs.Captures
import HackVm.Proofs.Evaluator

/-!
# Straight-line programs

The code that a generator makes of pushes and operations runs from its
first slot to its end and leaves the stack that the evaluator computes,
whichever labels are in use before. One command is followed by the machine
as the stack machine has it (`Code.leads_evaluated`), a row of commands by
induction (`Generator.reaches_translateAll`). This holds wherever the code
stands, as long as its labels mean the slots that they stand in front of.

The labels are those of the comparisons, which differ from each other and
are no registers. But a label is loaded as a word, and in code of more
than 65536 slots a word may not be able to name the slot (`LabelsFit`). A
comparison can then go back to the beginning, and the code never ends
(`Generator.wrapping_goes_back`).
-/

namespace HackVm

open Assembly

namespace Assembly

variable {code : List Instruction}

/-- Labels stand in front of slots that a word can name. -/
def LabelsFit (code : List Instruction) : Prop :=
  ∀ pre name post, code = pre ++ .label name :: post → slots pre < 65536

theorem labelsFit_of_slots (h : slots code < 65536) : LabelsFit code := by
  rintro pre name post rfl
  rw [slots_append] at h
  omega

theorem Placed.toNat_valueOf_of_fit (hfit : LabelsFit code) (honce : (labels code).Nodup)
    {p : Nat} {name : String} {t : List Instruction} (h : Placed code p (.label name :: t)) :
    (valueOf code name).toNat = p := by
  rw [h.valueOf_label honce]
  obtain ⟨pre, post, hcode, rfl⟩ := h
  exact toNat_ofNat_of_lt (hfit pre name (t ++ post) hcode)

end Assembly

/-! ## One command -/

namespace Code

variable {file : String} {comments : Bool} {l : Labels} {cmd : Command} {xs ys : List Word}
  {block : List Instruction}

theorem exists_block (file : String) (comments : Bool) (l : Labels)
    (h : cmd.evaluate xs = some ys) : ∃ block, Code.block file comments l cmd = .ok block := by
  rcases Command.evaluate_some h with ⟨value, rfl, hvalue, -⟩ | ⟨op, rfl, -⟩
  · have hliteral : Cell.literal value (.push .constant value) = .ok value := if_pos hvalue
    exact ⟨_, by rw [Code.block, ofCommand, Cell.resolve, hliteral]; rfl⟩
  · exact ⟨_, rfl⟩

/-- The label of a comparison is the only one that the block of a command on
the stack can have. -/
theorem labels_evaluated (h : cmd.evaluate xs = some ys)
    (hblock : Code.block file comments l cmd = .ok block) :
    labels block = if cmd.isComparison then [Labels.comparison l.comparisons] else [] := by
  rw [labels_block hblock]
  rcases Command.evaluate_some h with ⟨value, rfl, -, -⟩ | ⟨op, rfl, -⟩ <;> rfl

/-- The slots of the block of a command on the stack. -/
def stackSlots : Command → Nat
  | .operate op => if op.isComparison then 20 else if op.isUnary then 7 else 12
  | _ => 7

def rowSlots : List Command → Nat
  | [] => 0
  | c :: rest => stackSlots c + rowSlots rest

theorem slots_evaluated (h : cmd.evaluate xs = some ys)
    (hblock : Code.block file comments l cmd = .ok block) : slots block = stackSlots cmd := by
  obtain ⟨body, hbody, rfl⟩ := except_map_ok hblock
  rw [slots_append, slots_remark, Nat.zero_add]
  rcases Command.evaluate_some h with ⟨value, rfl, -, -⟩ | ⟨op, rfl, -⟩
  · obtain ⟨cell, hcell, rfl⟩ := except_map_ok hbody
    obtain rfl := literal_map hcell
    rfl
  · obtain rfl := Except.ok.inj hbody
    cases op <;> rfl

/-- The machine does what the command does on the stack machine, and
arrives behind its block. -/
theorem leads_evaluated {code : List Instruction} (hv : NamesRegisters (valueOf code))
    (h : cmd.evaluate xs = some ys) (hblock : Code.block file comments l cmd = .ok block) {p : Nat}
    (hplaced : Placed code p block)
    (hfit : ∀ name ∈ labels block, ∀ q t, Placed code q (.label name :: t) →
      (valueOf code name).toNat = q) (ctx : Context) (c : Core) :
    Leads code 0 c p (cmd.effect ctx c.ram).1 (p + slots block) := by
  have hlabels := labels_evaluated h hblock
  obtain ⟨body, hbody, hplaced, hslots⟩ := placed_of_block hblock hplaced
  rw [hslots]
  rcases Command.evaluate_some h with ⟨value, rfl, -, -⟩ | ⟨op, rfl, -⟩
  · obtain ⟨cell, hcell, rfl⟩ := except_map_ok hbody
    obtain rfl := literal_map hcell
    refine (leads_straight hplaced (isStraight_push _) ?_).mono (Nat.zero_le _)
    exact exec_push hv c fun n hn => (Cell.value.inj hn).symm
  · obtain rfl := Except.ok.inj hbody
    refine (leads_operate hv hplaced fun hop => hfit _ ?_).mono (Nat.zero_le _)
    rw [hlabels, Command.isComparison, if_pos hop]
    exact List.mem_singleton_self _

end Code

/-! ## Rows of commands -/

namespace Generator

variable {g : Generator} {c : Located Command} {cs rest : List (Located Command)}
  {code piece : List Instruction} {xs ys : List Word}

theorem exists_translateAll (g : Generator)
    (h : Command.evaluateAll (cs.map Located.node) xs = some ys) :
    ∃ code, (g.translateAll cs).1 = .ok code := by
  induction cs generalizing g xs with
  | nil => exact ⟨[], rfl⟩
  | cons c rest ih =>
    obtain ⟨zs, hzs, hrest, -⟩ := Command.evaluateAll_cons h
    obtain ⟨block, hblock⟩ := Code.exists_block g.file g.comments g.labels hzs
    obtain ⟨more, hmore⟩ := ih (g.after c.node) hrest
    exact ⟨_, translateAll_cons_ok.mpr ⟨block, more, hblock, hmore, rfl⟩⟩

/-- The labels of the code are those of its comparisons, in order. -/
theorem labels_translateAll (h : Command.evaluateAll (cs.map Located.node) xs = some ys)
    (hcode : (g.translateAll cs).1 = .ok code) :
    Assembly.labels code = (List.range' g.labels.comparisons
      ((cs.map Located.node).countP Command.isComparison)).map Labels.comparison := by
  induction cs generalizing g xs code with
  | nil =>
    obtain rfl := Except.ok.inj hcode
    rfl
  | cons c rest ih =>
    obtain ⟨zs, hzs, hrest, -⟩ := Command.evaluateAll_cons h
    obtain ⟨block, more, hblock, hmore, rfl⟩ := translateAll_cons_ok.mp hcode
    have hafter : (g.after c.node).labels.comparisons =
        g.labels.comparisons + if c.node.isComparison then 1 else 0 := by
      rw [after, Labels.after_eq]
    rw [labels_append, Code.labels_evaluated hzs hblock, ih hrest hmore, hafter, List.map_cons,
      List.countP_cons]
    cases c.node.isComparison <;> rfl

theorem nodup_labels_translateAll (h : Command.evaluateAll (cs.map Located.node) xs = some ys)
    (hcode : (g.translateAll cs).1 = .ok code) : (Assembly.labels code).Nodup := by
  rw [labels_translateAll h hcode]
  exact List.Nodup.map (fun _ _ => Labels.comparison_inj.mp) List.nodup_range'

theorem namesRegisters_translateAll
    (h : Command.evaluateAll (cs.map Located.node) xs = some ys)
    (hcode : (g.translateAll cs).1 = .ok code) : NamesRegisters (valueOf code) := by
  refine namesRegisters_of_own fun name hname => ?_
  rw [labels_translateAll h hcode] at hname
  obtain ⟨i, -, rfl⟩ := List.mem_map.mp hname
  have hissued : Labels.comparison i ∈ Labels.issued ⟨i + 1, 0⟩ :=
    Labels.mem_issued.mpr (.inl ⟨i, Nat.lt_succ_self i, rfl⟩)
  exact Labels.predefined?_of_mem_issued hissued

theorem slots_translateAll (h : Command.evaluateAll (cs.map Located.node) xs = some ys)
    (hcode : (g.translateAll cs).1 = .ok code) :
    slots code = Code.rowSlots (cs.map Located.node) := by
  induction cs generalizing g xs code with
  | nil =>
    obtain rfl := Except.ok.inj hcode
    rfl
  | cons c rest ih =>
    obtain ⟨zs, hzs, hrest, -⟩ := Command.evaluateAll_cons h
    obtain ⟨block, more, hblock, hmore, rfl⟩ := translateAll_cons_ok.mp hcode
    rw [slots_append, Code.slots_evaluated hzs hblock, ih hrest hmore]
    rfl

/-- Wherever the code of the commands stands, the machine runs through it
and does to the stack what the commands do to the list. The induction is on
the commands; what is kept is bounded by the greatest depth of them all. -/
theorem reaches_translateAll (hv : NamesRegisters (valueOf code)) {b : Nat} (hb : 16 ≤ b)
    (hys : Command.evaluateAll (cs.map Located.node) xs = some ys)
    (hroom : b + Command.greatestDepth (cs.map Located.node) xs < 65536)
    (hpiece : (g.translateAll cs).1 = .ok piece) {p : Nat} (hplaced : Placed code p piece)
    (hfit : ∀ name ∈ Assembly.labels piece, ∀ q t, Placed code q (.label name :: t) →
      (valueOf code name).toNat = q)
    {v : Core} (hxs : v.ram.Holds b xs) :
    ∃ w, Machine.Reaches (assemble code) ⟨v, p⟩ ⟨w, p + slots piece⟩
      ∧ w.ram.Holds b ys
      ∧ v.ram.Kept w.ram b (Command.greatestDepth (cs.map Located.node) xs) := by
  induction cs generalizing g xs p piece v with
  | nil =>
    obtain rfl := Except.ok.inj hpiece
    obtain rfl := Option.some.inj hys
    exact ⟨v, Machine.Reaches.refl _, hxs, Memory.Kept.refl _ _ _⟩
  | cons c rest ih =>
    rw [List.map_cons] at hys hroom ⊢
    obtain ⟨zs, hzs, hrest, hdepth⟩ := Command.evaluateAll_cons hys
    obtain ⟨block, more, hblock, hmore, rfl⟩ := translateAll_cons_ok.mp hpiece
    have hlength := Command.length_le_greatestDepth (rest.map Located.node) zs
    rw [hdepth] at hroom ⊢
    rw [labels_append] at hfit
    -- The addresses of static cells play no part, nor does the slot behind.
    let ctx : Context := ⟨fun _ => 0, 0⟩
    obtain ⟨hholds, hkept⟩ := hxs.effect hb hzs (by omega) ctx
    obtain ⟨a, d, hto⟩ := (Code.leads_evaluated hv hzs hblock hplaced.left
      (fun name hname => hfit name (List.mem_append_left _ hname)) ctx v).reaches
    obtain ⟨w, hon, hholds', hkept'⟩ := ih (v := ⟨a, d, _⟩) hrest (by omega) hmore hplaced.right
      (fun name hname => hfit name (List.mem_append_right _ hname)) hholds
    refine ⟨w, ?_, hholds', (hkept.mono (by omega)).trans (hkept'.mono (Nat.le_max_right ..))⟩
    rw [slots_append, ← Nat.add_assoc]
    exact hto.trans hon

/-! ## Whole programs -/

/-- With the stack pointer at `b`, the code runs from its first slot to its
end and leaves the list in the cells from `b` on, without a change to any
cell but the stack pointer and `depth` cells from `b` on. -/
def Computes (code : List Instruction) (b : Nat) (xs : List Word) (depth : Nat) : Prop :=
  ∀ v : Core, (v.ram.reg .sp).toNat = b →
    ∃ w, Machine.Reaches (assemble code) ⟨v, 0⟩ ⟨w, slots code⟩
      ∧ Machine.step (assemble code) ⟨w, slots code⟩ = none
      ∧ w.ram.Holds b xs ∧ v.ram.Kept w.ram b depth

/-- Code of pushes and operations computes what the evaluator does. -/
theorem translateAll_computes (g : Generator) {b : Nat} (hb : 16 ≤ b)
    (hxs : Command.evaluateAll (cs.map Located.node) [] = some xs)
    (hroom : b + Command.greatestDepth (cs.map Located.node) [] ≤ 32767) :
    ∃ code, (g.translateAll cs).1 = .ok code
      ∧ (LabelsFit code → Computes code b xs (Command.greatestDepth (cs.map Located.node) [])) := by
  obtain ⟨code, hcode⟩ := exists_translateAll g hxs
  refine ⟨code, hcode, fun hfit v hsp => ?_⟩
  have hv := namesRegisters_translateAll hxs hcode
  have honce := nodup_labels_translateAll hxs hcode
  have hplaced : Placed code 0 code := ⟨[], [], by simp, rfl⟩
  have hempty : v.ram.Holds b [] := ⟨hsp, fun i x hx => by cases hx⟩
  obtain ⟨w, hreach, hholds, hkept⟩ := reaches_translateAll hv hb hxs (by omega) hcode hplaced
    (fun name _ q t hq => hq.toNat_valueOf_of_fit hfit honce) hempty
  rw [Nat.zero_add] at hreach
  exact ⟨w, hreach, step_end code w, hholds, hkept⟩

/-- A push of three and of five, and the question whether three is less. -/
def threeLessFive : List (Located Command) :=
  [.push .constant 3, .push .constant 5, .operate .lt].map Located.unplaced

theorem translateAll_computes_lt :
    ∃ code, (({} : Generator).translateAll threeLessFive).1 = .ok code
      ∧ Computes code 256 [truth true] 2 := by
  have hxs : Command.evaluateAll (threeLessFive.map Located.node) [] = some [truth true] := by decide
  obtain ⟨code, hcode, hcomputes⟩ := translateAll_computes {} (b := 256) (by decide) hxs (by decide)
  have hslots : slots code = 34 := slots_translateAll hxs hcode
  exact ⟨code, hcode, hcomputes (labelsFit_of_slots (by omega))⟩

/-! ## Code that is too long -/

/-- Two zeros, the upper one negated `n` times. -/
def zeros (n : Nat) (rest : List Command) : List Command :=
  .push .constant 0 :: .push .constant 0 :: .operate .add :: .push .constant 0 ::
    (List.replicate n (.operate .neg) ++ rest)

theorem evaluateAll_zeros (n : Nat) (rest : List Command) :
    Command.evaluateAll (zeros n rest) [] = Command.evaluateAll rest [0, 0] := by
  have hneg : Command.evaluateAll (List.replicate n (.operate .neg) ++ rest) [0, 0] =
      Command.evaluateAll rest [0, 0] := by
    induction n with
    | zero => rfl
    | succ n ih => exact ih
  exact hneg

theorem greatestDepth_zeros (n : Nat) (rest : List Command) :
    Command.greatestDepth (zeros n rest) [] = Command.greatestDepth rest [0, 0] := by
  have hleast : 2 ≤ Command.greatestDepth rest [0, 0] := Command.length_le_greatestDepth rest [0, 0]
  have hneg : Command.greatestDepth (List.replicate n (.operate .neg) ++ rest) [0, 0] =
      Command.greatestDepth rest [0, 0] := by
    induction n with
    | zero => rfl
    | succ n ih =>
      refine Eq.trans ?_ (Nat.max_eq_right hleast)
      exact congrArg (max 2) ih
  have hfront : Command.greatestDepth (zeros n rest) [] =
      max 0 (max 1 (max 2 (max 1 (Command.greatestDepth
        (List.replicate n (.operate .neg) ++ rest) [0, 0])))) := rfl
  omega

theorem rowSlots_zeros (n : Nat) (rest : List Command) :
    Code.rowSlots (zeros n rest) = 33 + 7 * n + Code.rowSlots rest := by
  have hneg : Code.rowSlots (List.replicate n (.operate .neg) ++ rest) =
      7 * n + Code.rowSlots rest := by
    induction n with
    | zero => exact (Nat.zero_add _).symm
    | succ n ih =>
      have hone : Code.stackSlots (.operate .neg) = 7 := rfl
      rw [List.replicate_succ, List.cons_append, Code.rowSlots, ih, hone]
      omega
  have hfront : Code.rowSlots (zeros n rest) =
      7 + (7 + (12 + (7 + Code.rowSlots (List.replicate n (.operate .neg) ++ rest)))) := rfl
  omega

theorem countP_zeros (n : Nat) : (zeros n []).countP Command.isComparison = 0 := by
  simp [zeros, Command.isComparison, Operation.isComparison]

theorem zeros_append (n : Nat) (rest : List Command) : zeros n rest = zeros n [] ++ rest := by
  simp [zeros]

theorem map_node_unplaced (commands : List Command) :
    (commands.map Located.unplaced).map Located.node = commands := by
  rw [List.map_map]
  exact List.map_id commands

/-- The label of the comparison stands in front of slot 65536. -/
def wrapping : List (Located Command) := (zeros 9355 [.operate .eq]).map Located.unplaced

theorem evaluateAll_wrapping :
    Command.evaluateAll (wrapping.map Located.node) [] = some [truth true] := by
  rw [wrapping, map_node_unplaced, evaluateAll_zeros]
  rfl

theorem greatestDepth_wrapping :
    Command.greatestDepth (wrapping.map Located.node) [] = 2 := by
  rw [wrapping, map_node_unplaced, greatestDepth_zeros]
  rfl

/-- A comparison of equal values, so placed that its label is the word 0. -/
theorem leads_wrapped (hv : NamesRegisters (valueOf code)) (honce : (Assembly.labels code).Nodup)
    {done : String} (h : Placed code 65518 (Code.compare .jeq done)) {b : Nat} (hb : 16 ≤ b)
    {x : Word} {w : Core} (hx : w.ram.Holds b [x, x]) :
    Code.Leads code 1 w 65518 (w.ram.lower.lower.setTop (-1)) 0 := by
  have hplaced := h
  rw [Code.compare_eq] at hplaced
  have hlabel : Placed code 65536 (.label done :: Code.raiseSp) := hplaced.right.tail.right
  have hzero : (valueOf code done).toNat = 0 := by
    rw [hlabel.valueOf_label honce]
    rfl
  have htaken : Jump.jeq.isTaken (signed (w.ram.lower.lower.top - w.ram.lower.top)) = true := by
    rw [(hx.lower hb).top_lower hb, hx.top_lower hb, UInt16.sub_self]
    rfl
  have hto := Code.leads_compare_jump hv h htaken
  rwa [hzero] at hto

/-- Both zeros are equal, and the comparison goes to slot 0. -/
theorem wrapping_goes_back (hcode : (g.translateAll wrapping).1 = .ok code) (v : Core)
    (hsp : (v.ram.reg .sp).toNat = 256) :
    ∃ k w, 0 < k ∧ Machine.run (assemble code) k ⟨v, 0⟩ = some ⟨w, 0⟩
      ∧ (w.ram.reg .sp).toNat = 256 := by
  have hv := namesRegisters_translateAll evaluateAll_wrapping hcode
  have honce := nodup_labels_translateAll evaluateAll_wrapping hcode
  rw [wrapping, zeros_append, List.map_append] at hcode
  obtain ⟨front, back, g', hfront, hback, hsplit⟩ := translateAll_append_ok hcode
  obtain ⟨block, more, hblock, -, rfl⟩ := translateAll_cons_ok.mp hback
  have hzeros : Command.evaluateAll
      (((zeros 9355 []).map Located.unplaced).map Located.node) [] = some [0, 0] := by
    rw [map_node_unplaced, evaluateAll_zeros]
    rfl
  have hroom : 256 + Command.greatestDepth
      (((zeros 9355 []).map Located.unplaced).map Located.node) [] < 65536 := by
    rw [map_node_unplaced, greatestDepth_zeros]
    decide
  have hlabels : Assembly.labels front = [] := by
    rw [labels_translateAll hzeros hfront, map_node_unplaced, countP_zeros]
    rfl
  have hslots : slots front = 65518 := by
    rw [slots_translateAll hzeros hfront, map_node_unplaced, rowSlots_zeros]
    rfl
  have hplaced : Placed code 0 _ := ⟨[], [], hsplit.trans (List.append_nil _).symm, rfl⟩
  obtain ⟨w, ⟨n, hrun⟩, hholds, -⟩ := reaches_translateAll hv (b := 256) (by decide) hzeros hroom
    hfront hplaced.left (by rw [hlabels]; nofun) (v := v) ⟨hsp, fun _ _ hx => by cases hx⟩
  obtain ⟨body, hbody, hcompare, -⟩ := Code.placed_of_block hblock hplaced.right.left
  obtain rfl := Except.ok.inj hbody
  rw [hslots, Nat.zero_add] at hcompare hrun
  obtain ⟨k, a, d, hk, hback⟩ := leads_wrapped hv honce hcompare (by decide) hholds
  have hempty := (hholds.lower (by decide)).lower (by decide)
  refine ⟨n + k, _, by omega, Machine.run_trans hrun hback, ?_⟩
  rw [Memory.setTop, Memory.reg_put (hempty.free (by decide)), hempty.sp]
  rfl

/-- The evaluator is done with the program, but its code never ends. -/
theorem wrapping_not_computed :
    Command.evaluateAll (wrapping.map Located.node) [] = some [truth true]
      ∧ 256 + Command.greatestDepth (wrapping.map Located.node) [] ≤ 32767
      ∧ ∃ code, (({} : Generator).translateAll wrapping).1 = .ok code
        ∧ ¬Computes code 256 [truth true]
          (Command.greatestDepth (wrapping.map Located.node) []) := by
  obtain ⟨code, hcode⟩ := exists_translateAll {} evaluateAll_wrapping
  refine ⟨evaluateAll_wrapping, by rw [greatestDepth_wrapping]; decide, code, hcode, ?_⟩
  intro hcomputes
  obtain ⟨w, ⟨n, hrun⟩, -⟩ := hcomputes ⟨0, 0, fun _ => 256⟩ rfl
  exact Machine.run_ne_of_back (step_end code) (wrapping_goes_back hcode) n rfl w hrun

end Generator

end HackVm
