import HackVm.File.Limited
import HackVm.Proofs.Answers
import HackVm.Proofs.Storage

/-!
# Laws of file systems

What a build relies on when it stores its output. A path opens the file at
one place, or it opens nothing, and then nothing has changed. Once a file is
open it may change, and no other place does, whether the text can be stored
or not; if it can, the file holds it.

A failed store may thus leave a file that holds neither what it held before
nor the text. On a disk with room for everything this never happens, but it
does on one that fills up (`Limited`). Both obey the laws.
-/

namespace HackVm

open FileSystem (Still kindAt readAt writeAt)

/-- A file system whose questions change nothing, and which stores a text in
the file that a path opens and nowhere else. -/
class LawfulFileSystem (σ : Type) [FileSystem (StateM σ)] where
  /-- What is at a place. -/
  node? : σ → Place → Option Node
  /-- The place of the file that a path opens for a text. -/
  opened : σ → Path → Except IoError Place
  still (s : σ) : Still s
  writeAt_unopened {s : σ} {p : Path} {reason : IoError} (h : opened s p = .error reason)
    (text : String) : writeAt s p text = (.error reason, s)
  node?_writeAt_of_ne {s : σ} {p : Path} {place other : Place} (h : opened s p = .ok place)
    (hne : other ≠ place) (text : String) : node? (writeAt s p text).2 other = node? s other
  node?_writeAt {s s' : σ} {p : Path} {place : Place} {text : String} (h : opened s p = .ok place)
    (hwrite : writeAt s p text = (.ok (), s')) : node? s' place = some (.file text.toUTF8)
  readAt_writeAt {s s' : σ} {p : Path} {text : String}
    (hwrite : writeAt s p text = (.ok (), s')) : readAt s' p = .ok text

namespace Disk

variable {d d' : Disk} {p : Path} {text : String}

theorem still (d : Disk) : Still d :=
  ⟨fun _ => rfl, fun _ => rfl, fun _ => rfl, fun _ => rfl⟩

abbrev Answers {ε α : Type} (d : Disk) (x : ExceptT ε (StateM Disk) α) (r : Except ε α) : Prop :=
  HackVm.Answers d x r

theorem kindAt_eq (d : Disk) (p : Path) : kindAt d p = d.kind p := rfl

theorem readAt_eq (d : Disk) (p : Path) : readAt d p = d.read p := rfl

theorem writeAt_eq (d : Disk) (p : Path) (text : String) : writeAt d p text =
    match d.write p text with
    | .ok d' => (.ok (), d')
    | .error reason => (.error reason, d) := rfl

theorem writeAt_eq_ok_iff : writeAt d p text = (.ok (), d') ↔ d.write p text = .ok d' := by
  rw [writeAt_eq]
  cases d.write p text <;> simp

theorem writeAt_of_fileAt {place : Place} (h : d.fileAt p = .ok place) (text : String) :
    writeAt d p text = (.ok (), d.put place (.file text.toUTF8)) := by
  rw [writeAt_eq_ok_iff, write, h]
  rfl

instance : LawfulFileSystem Disk where
  node? := Disk.node?
  opened := Disk.fileAt
  still := still
  writeAt_unopened h text := by
    rw [writeAt_eq, write, h]
    rfl
  node?_writeAt_of_ne h hne text := by
    rw [writeAt_of_fileAt h]
    exact node?_put_of_ne _ _ hne
  node?_writeAt h hwrite := by
    obtain ⟨-, rfl⟩ := Prod.mk.inj ((writeAt_of_fileAt h _).symm.trans hwrite)
    exact node?_put_self _ _ (ne_nil_of_free (fileAt_ok.mp h).1.free)
  readAt_writeAt hwrite := by
    obtain ⟨_, hstored⟩ := stored_of_write (writeAt_eq_ok_iff.mp hwrite)
    exact hstored.read

end Disk

namespace Limited

variable {l l' : Limited} {p : Path} {place : Place} {text : String}

theorem still (l : Limited) : Still l :=
  ⟨fun _ => rfl, fun _ => rfl, fun _ => rfl, fun _ => rfl⟩

/-- A text for which there is room is stored as on a disk without limits. -/
theorem write_eq_ok (h : l.write p text = (.ok (), l')) : l.disk.write p text = .ok l'.disk := by
  rw [write] at h
  cases hplace : l.disk.fileAt p with
  | error reason =>
    rw [hplace] at h
    cases h
  | ok place =>
    simp only [hplace] at h
    split at h
    · cases h
      rw [Disk.write, hplace]
      rfl
    · cases h

/-- A file that has been opened holds something else, but stays where it
is. -/
theorem exists_disk_write (h : l.disk.fileAt p = .ok place) (text : String) :
    ∃ content, (l.write p text).2.disk = l.disk.put place (.file content) := by
  rw [write, h]
  simp only
  split
  · exact ⟨_, rfl⟩
  · exact ⟨_, rfl⟩

instance : LawfulFileSystem Limited where
  node? l := l.disk.node?
  opened l := l.disk.fileAt
  still := still
  writeAt_unopened {l p} _ h text := by
    show l.write p text = _
    rw [write, h]
  node?_writeAt_of_ne h hne text := by
    obtain ⟨content, hdisk⟩ := exists_disk_write h text
    refine (congrArg (Disk.node? · _) hdisk).trans ?_
    exact Disk.node?_put_of_ne _ _ hne
  node?_writeAt h hwrite := by
    obtain ⟨place, hat, hdisk⟩ := except_map_ok (write_eq_ok hwrite)
    obtain rfl := Except.ok.inj (h.symm.trans hat)
    rw [hdisk]
    exact Disk.node?_put_self _ _ (Disk.ne_nil_of_free (Disk.fileAt_ok.mp h).1.free)
  readAt_writeAt hwrite := by
    obtain ⟨_, hstored⟩ := Disk.stored_of_write (write_eq_ok hwrite)
    exact hstored.read

end Limited

end HackVm
