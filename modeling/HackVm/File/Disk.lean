import HackVm.File.System

/-!
# Disks

A disk is a file tree as a value: the places in use with what is there,
and the place that relative paths begin at. The root is always a
directory. All names are texts, and there are no links, devices or
permissions, so a path leads to one place, found by following its pieces
one after the other. There is also room for everything: a text that cannot
be stored fails before any file is opened for it. `HackVm.File.Limited` is
a disk that fills up.

Each step of a path starts in a directory. A path that ends in a slash
therefore never leads to a file, and a path through a missing directory
leads nowhere, even if it goes up again.

Names and paths have a greatest length. A name is measured when it is
looked for in a directory, so whatever is wrong earlier in the path comes
first. A path is measured before anything is looked for; only the question
where a path leads is answered name by name, for paths of any length and
for places however deep.
-/

namespace HackVm

inductive Node where
  | file (content : ByteArray)
  | directory

instance : DecidableEq Node
  | .file a, .file b =>
    match ByteArray.decEq a b with
    | isTrue h => isTrue (congrArg Node.file h)
    | isFalse h => isFalse fun e => h (Node.file.inj e)
  | .file _, .directory => isFalse nofun
  | .directory, .file _ => isFalse nofun
  | .directory, .directory => isTrue rfl

def Node.kind : Node → FileKind
  | file _ => .file
  | directory => .directory

structure Disk where
  /-- Where relative paths begin. -/
  home : Place
  nodes : List (Place × Node)
deriving DecidableEq

namespace Disk

def node? (d : Disk) (place : Place) : Option Node :=
  if place.isEmpty then some .directory else d.nodes.lookup place

/-- A list of nodes with one of them exchanged, or added at the end. -/
def exchange (place : Place) (node : Node) : List (Place × Node) → List (Place × Node)
  | [] => [(place, node)]
  | entry :: rest =>
    if entry.1 = place then (place, node) :: rest else entry :: exchange place node rest

/-- Put something at a place, instead of what was there. -/
def put (d : Disk) (place : Place) (node : Node) : Disk :=
  { d with nodes := exchange place node d.nodes }

theorem lookup_exchange_self (place : Place) (node : Node) (nodes : List (Place × Node)) :
    (exchange place node nodes).lookup place = some node := by
  induction nodes with
  | nil => simp [exchange]
  | cons entry rest ih =>
    obtain ⟨key, old⟩ := entry
    by_cases h : key = place
    · simp [exchange, h]
    · have hb : (place == key) = false := beq_eq_false_iff_ne.mpr fun e => h e.symm
      simp [exchange, h, List.lookup_cons, hb, ih]

theorem lookup_exchange_of_ne {place other : Place} (node : Node)
    (nodes : List (Place × Node)) (h : other ≠ place) :
    (exchange place node nodes).lookup other = nodes.lookup other := by
  have hb : (other == place) = false := beq_eq_false_iff_ne.mpr h
  induction nodes with
  | nil => simp [exchange, List.lookup_cons, hb]
  | cons entry rest ih =>
    obtain ⟨key, old⟩ := entry
    by_cases he : key = place
    · simp [exchange, he, List.lookup_cons, hb]
    · simp [exchange, he, List.lookup_cons, ih]

theorem node?_put_self (d : Disk) {place : Place} (node : Node) (h : place ≠ []) :
    (d.put place node).node? place = some node := by
  have hne : place.isEmpty = false := by simpa using h
  simp [put, node?, hne, lookup_exchange_self]

theorem node?_put_of_ne (d : Disk) {place other : Place} (node : Node) (h : other ≠ place) :
    (d.put place node).node? other = d.node? other := by
  simp [put, node?, lookup_exchange_of_ne node d.nodes h]

/-! ## Following paths -/

/-- The longest name that a directory can hold, in bytes. -/
def nameLimit : Nat := 255

/-- The longest path that is looked up as a whole, in bytes. -/
def pathLimit : Nat := 4095

def fits (p : Path) : Bool := decide (p.text.utf8ByteSize ≤ pathLimit)

/-- A path can lead somewhere only if it holds no null character and is
not empty. -/
def checkText (p : Path) : Except IoError Unit :=
  if p.text.toList.contains (Char.ofNat 0) then .error .nullInPath
  else if p.text.isEmpty then .error .notFound
  else .ok ()

/-- A path that is looked up as a whole must be short enough, too. -/
def checkWhole (p : Path) : Except IoError Unit := do
  checkText p
  if fits p then .ok () else .error .nameTooLong

/-- Where the pieces of a path lead from a place. -/
def walk (d : Disk) (here : Place) : List String → Except IoError Place
  | [] =>
    match d.node? here with
    | some _ => .ok here
    | none => .error .notFound
  | piece :: rest =>
    match d.node? here with
    | none => .error .notFound
    | some (.file _) => .error .notDirectory
    | some .directory =>
      if Path.isIdle piece then walk d here rest
      else if piece == ".." then walk d here.dropLast rest
      else if nameLimit < piece.utf8ByteSize then .error .nameTooLong
      else walk d (here ++ [piece]) rest

/-- Where a path begins. -/
def origin (d : Disk) (p : Path) : Place := if p.isAbsolute then [] else d.home

/-- Where a path leads, and what is there. -/
def locate (d : Disk) (p : Path) : Except IoError Found := do
  checkText p
  let place ← d.walk (d.origin p) p.pieces
  match d.node? place with
  | some node => .ok ⟨place, node.kind⟩
  | none => .error .notFound

/-- What a path that is looked up as a whole names, and where. -/
def lookup (d : Disk) (p : Path) : Except IoError Found := do
  checkWhole p
  d.locate p

/-! ## Questions and changes -/

def kind (d : Disk) (p : Path) : Option FileKind :=
  match d.lookup p with
  | .ok found => some found.kind
  | .error _ => none

/-- The name that a place has in a directory, if it is directly in it. -/
def nameIn (directory place : Place) : Option String :=
  if place.dropLast == directory then place.getLast? else none

/-- The names of what lies directly in the directory at a place. -/
def inside (d : Disk) (place : Place) : List String :=
  d.nodes.filterMap fun (at', _) => nameIn place at'

/-- The names in the directory that a path leads to. -/
def entries (d : Disk) (p : Path) : Except IoError (List String) := do
  let found ← d.lookup p
  match found.kind with
  | .directory => .ok (d.inside found.place)
  | _ => .error .notDirectory

def read (d : Disk) (p : Path) : Except IoError String := do
  let found ← d.lookup p
  match d.node? found.place with
  | some (.file content) =>
    match String.fromUTF8? content with
    | some text => .ok text
    | none => .error .invalidText
  | some .directory => .error .isDirectory
  | none => .error .notFound

/-- The place of the file that a path names or would name, once it is
created in an existing directory. -/
def fileAt (d : Disk) (p : Path) : Except IoError Place := do
  checkWhole p
  match p.pieces.reverse.dropWhile (· == "") with
  | [] => .error .isDirectory
  | name :: above =>
    let parent ← d.walk (d.origin p) above.reverse
    match d.node? parent with
    | some .directory =>
      if name == "." || name == ".." || p.pieces.getLast? == some "" then .error .isDirectory
      else if nameLimit < name.utf8ByteSize then .error .nameTooLong
      else
        match d.node? (parent ++ [name]) with
        | some .directory => .error .isDirectory
        | _ => .ok (parent ++ [name])
    | some (.file _) => .error .notDirectory
    | none => .error .notFound

def write (d : Disk) (p : Path) (text : String) : Except IoError Disk :=
  (d.fileAt p).map fun place => d.put place (.file text.toUTF8)

end Disk

/-- Builds on a disk: questions leave it alone, and a text that cannot be
stored does so too. -/
instance : FileSystem (StateM Disk) where
  kind p := fun d => (d.kind p, d)
  entries p := fun d => (d.entries p, d)
  read p := fun d => (d.read p, d)
  locate p := fun d => (d.locate p, d)
  write p text := fun d =>
    match d.write p text with
    | .ok d₁ => (.ok (), d₁)
    | .error e => (.error e, d)

end HackVm
