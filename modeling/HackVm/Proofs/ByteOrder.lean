import Mathlib.Tactic.SplitIfs

/-!
# The order of bytes

Strings are compared character by character, and files are named by bytes.
Both give the same order: the bytes of a smaller character are smaller, at
a byte that both characters have (`below_utf8EncodeChar`), so that what
stands behind the two does not matter.
-/

namespace HackVm

/-- The first of two runs of bytes is smaller at some byte, and the two are
equal in front of it. -/
def Below : List UInt8 → List UInt8 → Prop
  | x :: xs, y :: ys => x < y ∨ x = y ∧ Below xs ys
  | _, _ => False

theorem Below.append_lt {xs ys : List UInt8} (h : Below xs ys) (s t : List UInt8) :
    xs ++ s < ys ++ t := by
  induction xs generalizing ys with
  | nil => cases h
  | cons x xs ih =>
    cases ys with
    | nil => cases h
    | cons y ys =>
      rw [List.cons_append, List.cons_append, List.cons_lt_cons_iff]
      exact h.imp_right fun ⟨heq, hrest⟩ => ⟨heq, ih hrest⟩

/-- A smaller character has smaller bytes. -/
theorem below_utf8EncodeChar {c d : Char} (h : c < d) :
    Below (String.utf8EncodeChar c) (String.utf8EncodeChar d) := by
  have hlt : c.val.toNat < d.val.toNat := UInt32.lt_iff_toNat_lt.mp h
  have hmost : d.val.toNat < 0x110000 := by
    rcases d.valid with hd | hd
    · exact Nat.lt_trans hd (by decide)
    · exact hd.2
  -- The digits to the base 64, each of them by means of the next one.
  have htwo (n : Nat) : n / 4096 = n / 64 / 64 := (Nat.div_div_eq_div_mul n 64 64).symm
  have hthree (n : Nat) : n / 262144 = n / 64 / 64 / 64 := by
    rw [Nat.div_div_eq_div_mul, Nat.div_div_eq_div_mul]
  simp only [String.utf8EncodeChar, htwo, hthree]
  generalize c.val.toNat = m, d.val.toNat = n at hlt hmost
  -- A longer character begins with a greater byte, and of two that are
  -- equally long, the greater one has the greater digits.
  split_ifs
  all_goals
    simp only [Below, UInt8.lt_iff_toNat_lt, ← UInt8.toNat_inj, UInt8.toNat_ofNat']
    omega

/-- The bytes of a string in UTF-8. -/
def bytes (s : String) : List UInt8 := s.toUTF8.data.toList

theorem bytes_eq (s : String) : bytes s = s.toList.flatMap String.utf8EncodeChar := by
  have hchars : (String.ofList s.toList).toByteArray = s.toList.utf8Encode :=
    String.toByteArray_ofList
  rw [String.ofList_toList] at hchars
  rw [bytes, String.toUTF8_eq_toByteArray, hchars, List.utf8Encode, List.toList_data_toByteArray]

/-- Strings are in the order of their bytes. -/
theorem bytes_lt {s t : String} (h : s < t) : bytes s < bytes t := by
  have hchars : List.Lex (· < ·) s.toList t.toList := h
  rw [bytes_eq, bytes_eq]
  generalize s.toList = cs, t.toList = ds at hchars
  induction hchars with
  | @nil d ds =>
    obtain ⟨x, xs, hbytes⟩ : ∃ x xs, String.utf8EncodeChar d = x :: xs :=
      List.exists_cons_of_length_pos (by rw [String.length_utf8EncodeChar]; exact d.utf8Size_pos)
    rw [List.flatMap_cons, hbytes]
    exact .nil
  | rel hcd =>
    rw [List.flatMap_cons, List.flatMap_cons]
    exact (below_utf8EncodeChar hcd).append_lt _ _
  | cons _ ih =>
    rw [List.flatMap_cons, List.flatMap_cons]
    exact List.append_left_lt ih

end HackVm
