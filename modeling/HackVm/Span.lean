/-!
# Spans of source text

A span is a half-open range of byte offsets in the UTF-8 text of one
source file. Spans are plain pairs: a reader may be handed tokens whose
spans were never measured against any text, so nothing here asks that a
span starts before it stops. Merging two spans gives the least range
that covers both, which is how a command's span grows from the spans of
its first and last word.
-/

namespace HackVm

/-- The bytes from `start` up to, but not including, `stop`. -/
structure Span where
  start : Nat
  stop : Nat
deriving DecidableEq

namespace Span

/-- The span of something no source text contains. -/
def nowhere : Span := ⟨0, 0⟩

/-- The empty span at one offset. -/
def point (offset : Nat) : Span := ⟨offset, offset⟩

/-- The number of bytes from the start to the stop. Offsets are words of 64
bits, so the way from a later offset to an earlier one leads around. -/
def length (s : Span) : Nat :=
  if s.start ≤ s.stop then s.stop - s.start else UInt64.size - (s.start - s.stop)

def isEmpty (s : Span) : Bool := s.start == s.stop

/-- The least span that covers both. -/
def merge (s t : Span) : Span := ⟨min s.start t.start, max s.stop t.stop⟩

theorem length_of_le {s : Span} (h : s.start ≤ s.stop) : s.length = s.stop - s.start :=
  if_pos h

theorem merge_self (s : Span) : s.merge s = s := by
  simp [merge]

end Span

/-- A value together with where it was written: its bytes, and the number
of its line, counting from 1. -/
structure Located (α : Type) where
  node : α
  span : Span
  line : Nat
deriving DecidableEq

/-- A value that no source file contains. -/
def Located.unplaced {α : Type} (node : α) : Located α := ⟨node, .nowhere, 0⟩

end HackVm
