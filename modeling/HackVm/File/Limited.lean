import HackVm.File.Disk

/-!
# Disks that fill up

A limited disk has room for so many bytes more. To store a text, its file is
opened first, which empties it, and then filled from the front as long as
there is room. A text that does not fit leaves a file that holds the
beginning of it, in place of what the file held before.
-/

namespace HackVm

structure Limited where
  disk : Disk
  /-- The number of bytes that can still be stored. -/
  room : Nat
deriving DecidableEq

namespace Limited

def noRoom : IoError := .other "No space left on device (os error 28)"

/-- The number of bytes that become free when the file at a place is
emptied. -/
def freed (l : Limited) (place : Place) : Nat :=
  match l.disk.node? place with
  | some (.file content) => content.size
  | _ => 0

def write (l : Limited) (p : Path) (text : String) : Except IoError Unit × Limited :=
  match l.disk.fileAt p with
  | .error reason => (.error reason, l)
  | .ok place =>
    let room := l.room + l.freed place
    let content := text.toUTF8
    if content.size ≤ room then
      (.ok (), ⟨l.disk.put place (.file content), room - content.size⟩)
    else (.error noRoom, ⟨l.disk.put place (.file (content.extract 0 room)), 0⟩)

end Limited

instance : FileSystem (StateM Limited) where
  kind p := fun l => (l.disk.kind p, l)
  entries p := fun l => (l.disk.entries p, l)
  read p := fun l => (l.disk.read p, l)
  locate p := fun l => (l.disk.locate p, l)
  write p text := fun l => l.write p text

end HackVm
