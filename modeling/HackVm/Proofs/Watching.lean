import Mathlib.Data.List.Induction
import HackVm.File.Disk
import HackVm.Watch
import HackVm.Proofs.Answers
import HackVm.Proofs.Results

/-!
# What is watched

To miss a directory is to miss every change of the sources in it. How the
inputs are spelled does not show which directories they need: many spellings
lead to one place, and a file needs the directory around it, which may be an
input, too.

How a file system finds its way does not matter here, links included. It is
asked where the inputs lead, one after the other, and must not change by
being asked (`Watch.Steady`); so each has the answer that it would have
alone (`Answers.mapM_all`). The rest is about rows of answers. Each
directory is added behind those that are there already, if it is not one of
them (`eraseDups_concat`), and by induction on the end of the row they stand
in the order in which they come up (`pairwise_eraseDups`), which also means
that none is there twice.
-/

namespace HackVm

/-! ## The first of each -/

section FirstOccurrences

variable {α β : Type} {f : α → Option β} {xs : List α} {a b : β}

theorem eraseDups_concat [BEq β] [LawfulBEq β] (bs : List β) (b : β) :
    (bs ++ [b]).eraseDups = if b ∈ bs then bs.eraseDups else bs.eraseDups ++ [b] := by
  rw [List.eraseDups_append]
  split
  · simp [List.removeAll, *]
  · simp [List.removeAll, List.eraseDups_cons, *]

/-- Something in a row yields one value before anything yields the other. -/
def YieldsFirst (f : α → Option β) (xs : List α) (a b : β) : Prop :=
  ∃ front x back, xs = front ++ x :: back ∧ f x = some a ∧ ∀ y ∈ front ++ [x], f y ≠ some b

theorem YieldsFirst.append (h : YieldsFirst f xs a b) (ys : List α) :
    YieldsFirst f (xs ++ ys) a b := by
  obtain ⟨front, x, back, rfl, hx, hfront⟩ := h
  exact ⟨front, x, back ++ ys, by simp, hx, hfront⟩

theorem YieldsFirst.ne (h : YieldsFirst f xs a b) : a ≠ b := by
  obtain ⟨front, x, back, -, hx, hfront⟩ := h
  rintro rfl
  exact hfront x (by simp) hx

theorem yieldsFirst_of_notMem (ha : a ∈ xs.filterMap f) (hb : b ∉ xs.filterMap f) :
    YieldsFirst f xs a b := by
  obtain ⟨x, hx, hfx⟩ := List.mem_filterMap.mp ha
  obtain ⟨front, back, rfl⟩ := List.append_of_mem hx
  refine ⟨front, x, back, rfl, hfx, fun y hy hfy => hb (List.mem_filterMap.mpr ⟨y, ?_, hfy⟩)⟩
  rw [List.append_cons]
  exact List.mem_append_left back hy

/-- The values of a row, each once, in the order in which they come up. -/
theorem pairwise_eraseDups [BEq β] [LawfulBEq β] (f : α → Option β) (xs : List α) :
    (xs.filterMap f).eraseDups.Pairwise (YieldsFirst f xs) := by
  induction xs using List.reverseRecOn with
  | nil => exact .nil
  | append_singleton xs x ih =>
    have hold : (xs.filterMap f).eraseDups.Pairwise (YieldsFirst f (xs ++ [x])) :=
      ih.imp fun h => h.append [x]
    rw [List.filterMap_append]
    -- One more value comes last, if it is new, and changes nothing in front of it.
    cases hx : f x with
    | none => simpa [hx] using hold
    | some c =>
      have hone : [x].filterMap f = [c] := by simp [hx]
      rw [hone, eraseDups_concat]
      split
      · exact hold
      · rename_i hnew
        refine List.pairwise_append.mpr ⟨hold, List.pairwise_singleton _ _, ?_⟩
        intro a ha b hb
        obtain rfl := List.mem_singleton.mp hb
        exact (yieldsFirst_of_notMem (List.mem_eraseDups.mp ha) hnew).append [x]

end FirstOccurrences

namespace Watch

/-! ## Questions -/

variable {σ : Type} [FileSystem (StateM σ)] {s : σ} {inputs : List Path} {place : Place}

/-- Where a path leads in a state of the file system. -/
def located (s : σ) (p : Path) : Except IoError Found :=
  ((FileSystem.locate p : StateM σ (Except IoError Found)) s).1

/-- To ask where paths lead changes nothing. -/
def Steady (s : σ) : Prop :=
  ∀ p, ((FileSystem.locate p : StateM σ (Except IoError Found)) s).2 = s

theorem steady_disk (d : Disk) : Steady d := fun _ => rfl

/-- What to watch for an input, once it is known where it leads. -/
def verdict (input : Path) : Except IoError Found → Except BuildError (Option Place)
  | .error reason => .error (.unwatchable input reason)
  | .ok found => .ok (directoryOf found)

theorem failure?_verdict {input : Path} {r : Except IoError Found} {e : BuildError} :
    failure? (verdict input r) = some e ↔
      ∃ reason, r = .error reason ∧ e = .unwatchable input reason := by
  cases r <;> simp [verdict, eq_comm]

theorem answers_directory (hs : Steady s) (input : Path) :
    Answers s (directory input) (verdict input (located s input)) := by
  have hask : (FileSystem.locate input : StateM σ _) s = (located s input, s) :=
    Prod.ext rfl (hs input)
  refine .ask hask ?_
  cases located s input with
  | error reason => exact .throw _
  | ok found => exact .pure _

theorem run_directories (hs : Steady s) (inputs : List Path) :
    (directories inputs : ExceptT BuildError (StateM σ) (List Place)).run s =
      ((inputs.mapM fun input => verdict input (located s input)).map
        fun places => (places.filterMap id).eraseDups, s) :=
  (Answers.mapM_all (answers_directory hs) inputs).bind_all fun _ => .pure _

/-! ## Directories and files -/

/-- The directory that is to be watched for what a path leads to: itself if
it is one, and else the directory that it is in. -/
inductive WatchedFor : Found → Place → Prop
  | directory {place : Place} : WatchedFor ⟨place, .directory⟩ place
  | parent {place : Place} {name : String} {kind : FileKind} (h : kind ≠ .directory) :
    WatchedFor ⟨place ++ [name], kind⟩ place

theorem directoryOf_eq_some_iff {found : Found} :
    directoryOf found = some place ↔ WatchedFor found place := by
  obtain ⟨at', kind⟩ := found
  rw [directoryOf]
  constructor
  · intro h
    split at h
    · rename_i hkind
      cases h
      cases hkind
      exact .directory
    · rename_i hkind
      obtain rfl | ⟨above, name, rfl⟩ := List.eq_nil_or_concat' at'
      · cases h
      · have habove : above = place := by simpa using h
        subst habove
        exact .parent hkind
  · rintro (_ | hkind)
    · rfl
    · simp [hkind]

/-- The directory that an input needs to be watched, in a state of the file
system. -/
def Needs (s : σ) (input : Path) (place : Place) : Prop :=
  ∃ found, located s input = .ok found ∧ WatchedFor found place

/-- The directory to watch for an input, if it leads anywhere. -/
def needed? (s : σ) (input : Path) : Option Place :=
  (located s input).toOption.bind directoryOf

theorem needed?_eq_some_iff {input : Path} : needed? s input = some place ↔ Needs s input place := by
  rw [needed?, Needs]
  cases located s input <;> simp [Except.toOption, directoryOf_eq_some_iff]

theorem mapM_verdict (h : ∀ input ∈ inputs, ∃ found, located s input = .ok found) :
    (inputs.mapM fun input => verdict input (located s input)) =
      .ok (inputs.map (needed? s)) := by
  induction inputs with
  | nil => rfl
  | cons input inputs ih =>
    obtain ⟨⟨found, hfound⟩, hrest⟩ := List.forall_mem_cons.mp h
    rw [List.mapM_cons, ih hrest, List.map_cons, needed?, hfound]
    rfl

/-! ## All inputs -/

/-- The first input that leads nowhere is the one that is to blame. -/
theorem directories_error_iff (hs : Steady s) {e : BuildError} :
    ((directories (m := StateM σ) inputs).run s).1 = .error e ↔
      ∃ before input after reason, inputs = before ++ input :: after
        ∧ (∀ p ∈ before, ∃ found, located s p = .ok found)
        ∧ located s input = .error reason ∧ e = .unwatchable input reason := by
  have hlocated : ∀ p, failure? (verdict p (located s p)) = none ↔
      ∃ found, located s p = .ok found := by
    intro p
    cases located s p <;> simp [verdict]
  rw [run_directories hs, ← failure?_eq_some, failure?_map, failure?_mapM,
    List.findSome?_eq_some_iff]
  simp only [hlocated, failure?_verdict]
  constructor
  · rintro ⟨before, input, after, hinputs, ⟨reason, hreason, he⟩, hbefore⟩
    exact ⟨before, input, after, reason, hinputs, hbefore, hreason, he⟩
  · rintro ⟨before, input, after, reason, hinputs, hbefore, hreason, he⟩
    exact ⟨before, input, after, hinputs, ⟨reason, hreason, he⟩, hbefore⟩

/-- If all inputs lead somewhere, what they need is watched. -/
theorem run_directories_ok (hs : Steady s)
    (h : ∀ input ∈ inputs, ∃ found, located s input = .ok found) :
    (directories (m := StateM σ) inputs).run s =
      (.ok (inputs.filterMap (needed? s)).eraseDups, s) := by
  rw [run_directories hs, mapM_verdict h]
  simp [Except.map, List.filterMap_map]

/-- The watched directories are complete and without duplicates. There are
none exactly if an input leads nowhere, and the first such input is what is
reported. Otherwise they are the directories that the inputs name or that
hold the files, each once, and each stands in front of those that no input
up to its own has needed. -/
theorem directories_complete (hs : Steady s) (inputs : List Path) :
    (∀ e, ((directories (m := StateM σ) inputs).run s).1 = .error e ↔
      ∃ before input after reason, inputs = before ++ input :: after
        ∧ (∀ p ∈ before, ∃ found, located s p = .ok found)
        ∧ located s input = .error reason ∧ e = .unwatchable input reason)
    ∧ ((∀ input ∈ inputs, ∃ found, located s input = .ok found) →
      ∃ places, (directories (m := StateM σ) inputs).run s = (.ok places, s) ∧ places.Nodup
        ∧ (∀ place, place ∈ places ↔ ∃ input ∈ inputs, Needs s input place)
        ∧ places.Pairwise fun a b => ∃ before input after, inputs = before ++ input :: after
          ∧ Needs s input a ∧ ∀ p ∈ before ++ [input], ¬Needs s p b) := by
  have horder := pairwise_eraseDups (needed? s) inputs
  refine ⟨fun e => directories_error_iff hs, fun h =>
    ⟨_, run_directories_ok hs h, ?_, fun place => ?_, ?_⟩⟩
  · exact horder.imp fun h => h.ne
  · simp only [List.mem_eraseDups, List.mem_filterMap, needed?_eq_some_iff]
  · refine horder.imp ?_
    rintro a b ⟨before, input, after, hinputs, ha, hb⟩
    exact ⟨before, input, after, hinputs, needed?_eq_some_iff.mp ha,
      fun p hp hneeds => hb p hp (needed?_eq_some_iff.mpr hneeds)⟩

/-- A directory in another one, with a source file in each of them. -/
def nested : Disk :=
  ⟨["work"], [(["work"], .directory), (["work", "D.vm"], .file .empty),
    (["work", "a"], .directory), (["work", "a", "A.vm"], .file .empty)]⟩

/-- Two files, and the directories around them in other spellings. -/
def spellings : List Path := [⟨"a/A.vm"⟩, ⟨"./a//"⟩, ⟨"a/../D.vm"⟩, ⟨"."⟩]

theorem directories_complete_spellings :
    (∃ places, (directories (m := StateM Disk) spellings).run nested = (.ok places, nested)
        ∧ places.Nodup ∧ ["work", "a"] ∈ places ∧ ["work"] ∈ places)
      ∧ ((directories (m := StateM Disk) [⟨"a"⟩, ⟨"a/B.vm"⟩, ⟨""⟩]).run nested).1 =
        .error (.unwatchable ⟨"a/B.vm"⟩ .notFound) := by
  have hfile : located nested ⟨"a/A.vm"⟩ = .ok ⟨["work", "a", "A.vm"], .file⟩ := by decide +kernel
  have hsame : located nested ⟨"./a//"⟩ = .ok ⟨["work", "a"], .directory⟩ := by decide +kernel
  have habove : located nested ⟨"a/../D.vm"⟩ = .ok ⟨["work", "D.vm"], .file⟩ := by decide +kernel
  have hhere : located nested ⟨"."⟩ = .ok ⟨["work"], .directory⟩ := by decide +kernel
  have hlocated : ∀ input ∈ spellings, ∃ found, located nested input = .ok found := by
    simp [spellings, hfile, hsame, habove, hhere]
  constructor
  · obtain ⟨places, hrun, hnodup, hneeds, -⟩ :=
      (directories_complete (steady_disk nested) spellings).2 hlocated
    refine ⟨places, hrun, hnodup, (hneeds _).mpr ?_, (hneeds _).mpr ?_⟩
    · exact ⟨⟨"a/A.vm"⟩, by decide, _, hfile, @WatchedFor.parent ["work", "a"] _ _ (by decide)⟩
    · exact ⟨⟨"."⟩, by decide, _, hhere, .directory⟩
  · have hfound : located nested ⟨"a"⟩ = .ok ⟨["work", "a"], .directory⟩ := by decide +kernel
    have hlost : located nested ⟨"a/B.vm"⟩ = .error .notFound := by decide +kernel
    refine ((directories_complete (steady_disk nested) _).1 _).mpr
      ⟨[⟨"a"⟩], ⟨"a/B.vm"⟩, [⟨""⟩], .notFound, rfl, ?_, hlost, rfl⟩
    exact List.forall_mem_singleton.mpr ⟨_, hfound⟩

example : ((directories (m := StateM Disk) spellings).run nested).1 =
    .ok [["work", "a"], ["work"]] := by
  decide +kernel

end Watch

end HackVm
