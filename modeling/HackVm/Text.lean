/-!
# Texts measured in bytes

Spans count bytes while texts are read character by character. This
module joins the two: the number of bytes a run of characters takes, and
the cut of a text at a byte offset, which exists exactly at the
boundaries between characters.
-/

namespace HackVm

/-- The number of bytes that a run of characters takes in UTF-8. -/
def byteLength (cs : List Char) : Nat := cs.foldr (fun c n => c.utf8Size + n) 0

@[simp] theorem byteLength_nil : byteLength [] = 0 := rfl

@[simp] theorem byteLength_cons (c : Char) (cs : List Char) :
    byteLength (c :: cs) = c.utf8Size + byteLength cs := rfl

@[simp] theorem byteLength_append (cs ds : List Char) :
    byteLength (cs ++ ds) = byteLength cs + byteLength ds := by
  induction cs with
  | nil => simp
  | cons c cs ih => simp [ih, Nat.add_assoc]

@[simp] theorem byteLength_reverse (cs : List Char) :
    byteLength cs.reverse = byteLength cs := by
  induction cs with
  | nil => rfl
  | cons c cs ih => simp [ih, Nat.add_comm]

/-- The bytes of a string are the bytes of its characters. -/
theorem byteLength_ofList (cs : List Char) :
    byteLength cs = (String.ofList cs).utf8ByteSize := by
  induction cs with
  | nil => simp
  | cons c cs ih =>
    have hsplit : String.ofList (c :: cs) = String.singleton c ++ String.ofList cs := by
      rw [String.singleton_eq_ofList, ← String.ofList_append, List.singleton_append]
    rw [byteLength_cons, ih, hsplit, String.utf8ByteSize_append, String.utf8ByteSize_singleton]

/-- A text cut in two: what stands before the cut, nearest first, and what
stands after it. -/
structure Cut where
  before : List Char
  after : List Char

/-- Move a cut forward by some bytes, or to the end of the text if it is
nearer. There is no cut inside a character. -/
def Cut.forward? (offset : Nat) (before : List Char) : List Char → Option Cut
  | [] => some ⟨before, []⟩
  | c :: rest =>
    if offset = 0 then some ⟨before, c :: rest⟩
    else if c.utf8Size ≤ offset then
      forward? (offset - c.utf8Size) (c :: before) rest
    else none

/-- The cut of a text at a byte offset; offsets past the end act as the end. -/
def cutAt? (text : List Char) (offset : Nat) : Option Cut :=
  Cut.forward? offset [] text

theorem Cut.forward?_text {offset : Nat} {before text : List Char} {cut : Cut}
    (h : Cut.forward? offset before text = some cut) :
    cut.before.reverse ++ cut.after = before.reverse ++ text := by
  induction text generalizing offset before with
  | nil =>
    obtain rfl := Option.some.inj h
    rfl
  | cons c rest ih =>
    unfold Cut.forward? at h
    split at h
    · obtain rfl := Option.some.inj h
      rfl
    · split at h
      · simpa using ih h
      · cases h

/-- Cutting loses nothing of the text. -/
theorem cutAt?_text {text : List Char} {offset : Nat} {cut : Cut}
    (h : cutAt? text offset = some cut) :
    cut.before.reverse ++ cut.after = text :=
  Cut.forward?_text h

end HackVm
