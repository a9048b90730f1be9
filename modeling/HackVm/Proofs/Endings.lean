import HackVm.File.Path

/-!
# Names and their endings

A name is a stem and an ending, which the last dot parts, or it has no
ending: a dot in front of everything else parts nothing. These are the two
shapes of a name (`Path.splitName_cases`), and `Path.splitName` tells
which one a name has.
-/

namespace HackVm.Path

variable {name stem ending : String}

theorem splitName_dot (hstem : stem ≠ "") (hending : '.' ∉ ending.toList) :
    splitName (stem ++ "." ++ ending) = (stem, some ending) := by
  obtain ⟨c, cs, hcs⟩ : ∃ c cs, stem.toList.reverse = c :: cs :=
    List.exists_cons_of_ne_nil (by simpa using hstem)
  have hreverse : (stem ++ "." ++ ending).toList.reverse =
      ending.toList.reverse ++ '.' :: c :: cs := by
    rw [String.toList_append, String.toList_append, List.reverse_append, List.reverse_append, hcs]
    rfl
  have hbehind : ∀ x ∈ ending.toList.reverse, (x != '.') = true := by
    intro x hx
    rw [bne_iff_ne]
    rintro rfl
    exact hending (List.mem_reverse.mp hx)
  have hdrop : (ending.toList.reverse ++ '.' :: c :: cs).dropWhile (· != '.') = '.' :: c :: cs := by
    rw [List.dropWhile_append_of_pos hbehind]
    rfl
  have htake : (ending.toList.reverse ++ '.' :: c :: cs).takeWhile (· != '.') =
      ending.toList.reverse := by
    rw [List.takeWhile_append_of_pos hbehind]
    exact List.append_nil _
  rw [splitName, hreverse, hdrop, htake]
  simp only [← hcs, List.reverse_reverse, String.ofList_toList]

/-- A name without an ending, or one that its last dot parts. -/
theorem splitName_cases (name : String) :
    ('.' ∉ name.toList.tail ∧ splitName name = (name, none))
      ∨ ∃ stem ending, stem ≠ "" ∧ '.' ∉ ending.toList ∧ name = stem ++ "." ++ ending
        ∧ splitName name = (stem, some ending) := by
  have hsplit := List.takeWhile_append_dropWhile (p := (· != '.')) (l := name.toList.reverse)
  have hhead := List.head?_dropWhile_not (· != '.') name.toList.reverse
  have hdots : '.' ∉ name.toList.reverse.takeWhile (· != '.') := fun h => by
    simpa using List.all_eq_true.mp List.all_takeWhile _ h
  have hname := congrArg List.reverse hsplit
  rw [List.reverse_reverse, List.reverse_append] at hname
  rw [splitName]
  generalize name.toList.reverse.takeWhile (· != '.') = behind at *
  -- What is left is nothing, the first character alone, or a stem and a dot.
  rcases hdrop : name.toList.reverse.dropWhile (· != '.') with _ | ⟨dot, _ | ⟨c, cs⟩⟩
  · refine .inl ⟨fun h => hdots ?_, rfl⟩
    rw [hdrop] at hname
    rw [← hname] at h
    exact List.mem_reverse.mp (List.mem_of_mem_tail h)
  · refine .inl ⟨fun h => hdots ?_, rfl⟩
    rw [hdrop] at hname
    rw [← hname] at h
    exact List.mem_reverse.mp h
  · rw [hdrop] at hname hhead
    obtain rfl : dot = '.' := by simpa using hhead
    refine .inr ⟨String.ofList (c :: cs).reverse, String.ofList behind.reverse, ?_, ?_, ?_, rfl⟩
    · intro h
      simpa using congrArg String.toList h
    · rw [String.toList_ofList]
      exact fun h => hdots (List.mem_reverse.mp h)
    · rw [← String.toList_inj, ← hname]
      simp

theorem ending_eq_some (hending : '.' ∉ ending.toList) :
    (splitName name).2 = some ending ↔ ∃ stem, stem ≠ "" ∧ name = stem ++ "." ++ ending := by
  constructor
  · intro h
    rcases splitName_cases name with ⟨-, hsplit⟩ | ⟨stem, e, hstem, -, hname, hsplit⟩
    · rw [hsplit] at h
      cases h
    · rw [hsplit] at h
      cases h
      exact ⟨stem, hstem, hname⟩
  · rintro ⟨stem, hstem, rfl⟩
    rw [splitName_dot hstem hending]

end HackVm.Path
