import InvariantSearch.Storage.Place

/-!
# Disks

A disk has directories, files with their contents, and places at which the
files can be found. Files and places are told apart: a file that is open stays
what it is while its place is given to another one.

* `Disk.place?` follows a name. Every step but the last has to lead to a
  directory; nothing needs to lie at the end, so that a file can be created.
* `Disk.read?` gives the content of a file. A directory can be opened too, and
  reads as empty.
* `Disk.create?` opens a file to write to, and empties it if it is there.
* `Disk.write` puts a text at a position counted in bytes.
* `Disk.move?` gives a file another place, and replaces what lies there.
-/

namespace InvariantSearch

/-- Directories besides those at which places start, the contents of all files,
and the files' places, by number. -/
structure Disk where
  directories : List Place
  contents : List String
  entries : List (Place × Nat)
  deriving DecidableEq, Repr

namespace Disk

def standing : List Place := [Place.root.child "dev", Place.root.child "tmp"]

/-- A disk without files. -/
def empty : Disk := ⟨standing, [], []⟩

/-- What lies here reads as empty, and whatever is written to it is lost. -/
def void : Place := (Place.root.child "dev").child "null"

/-! ## Names -/

def isDirectory (d : Disk) (p : Place) : Bool := p.parts.isEmpty || d.directories.contains p

/-- The longest name of a file, in bytes. -/
def nameLimit : Nat := 255

/-- The longest way to a file, in bytes. -/
def wayLimit : Nat := 4095

def follow (d : Disk) (p : Place) : List String → Option Place
  | [] => some p
  | step :: way =>
    if !d.isDirectory p || nameLimit < step.utf8ByteSize then none
    else d.follow (p.step step) way

def place? (d : Disk) (name : String) : Option Place :=
  if name = "" ∨ wayLimit < name.utf8ByteSize then none
  else d.follow (.start name) (Place.steps name)

/-! ## Contents -/

/-- The content of a file, by number. -/
def content (d : Disk) (number : Nat) : String := d.contents[number]?.getD ""

def read? (d : Disk) (name : String) : Option String := do
  let p ← d.place? name
  if d.isDirectory p || p == void then return ""
  let number ← d.entries.lookup p
  return d.content number

/-- The characters of a text that lie before a position in bytes. -/
def beforeByte (position : Nat) : List Char → List Char
  | [] => []
  | c :: cs =>
    if c.utf8Size ≤ position then c :: beforeByte (position - c.utf8Size) cs else []

/-- The characters of a text that start at a position in bytes, or later. -/
def fromByte (position : Nat) : List Char → List Char
  | [] => []
  | c :: cs => if position = 0 then c :: cs else fromByte (position - c.utf8Size) cs

/-- A text laid over an old one from a position on. What the old one is short of
is filled with NULs. -/
def overlay (old : String) (position : Nat) (text : String) : String :=
  let front :=
    if old.utf8ByteSize ≤ position then old else .ofList (beforeByte position old.toList)
  let gap := String.ofList (List.replicate (position - front.utf8ByteSize) '\x00')
  let stop := position + text.utf8ByteSize
  front ++ gap ++ text ++
    (if old.utf8ByteSize ≤ stop then "" else .ofList (fromByte stop old.toList))

def write (d : Disk) (number position : Nat) (text : String) : Disk :=
  { d with contents := d.contents.modify number fun old => overlay old position text }

/-! ## Files -/

/-- Gives a file a place, which no other file keeps. -/
def put (d : Disk) (p : Place) (number : Nat) : Disk :=
  { d with entries := d.entries.filter (fun entry => entry.1 != p) ++ [(p, number)] }

def add (d : Disk) (p : Place) (content : String) : Disk :=
  { d with contents := d.contents ++ [content] }.put p d.contents.length

/-- Opens a file to write to, which is empty then. -/
def create? (d : Disk) (name : String) : Option (Nat × Disk) := do
  let p ← d.place? name
  if d.isDirectory p || p == void then none
  match d.entries.lookup p with
  | some number => return (number, { d with contents := d.contents.set number "" })
  | none => return (d.contents.length, d.add p "")

def move? (d : Disk) (source target : String) : Option Disk := do
  let p ← d.place? source
  let number ← d.entries.lookup p
  let q ← d.place? target
  if d.isDirectory q then none
  return { d with entries := d.entries.filter fun entry => entry.1 != p }.put q number

/-- Adds a directory, with all around it. -/
def addDirectory (d : Disk) (p : Place) : Disk :=
  { d with directories := (List.range p.parts.length).foldl (fun known count =>
      let around : Place := { p with parts := p.parts.take (count + 1) }
      if known.contains around then known else known ++ [around]) d.directories }

def addFile (d : Disk) (p : Place) (content : String) : Disk :=
  (d.addDirectory p.up).add p content

/-- The disk with some files, by name. -/
def ofFiles (files : List (String × String)) : Disk :=
  files.foldl (fun d (name, content) => d.addFile (.ofName name) content) empty

/-- The places of all files, with what the files hold. -/
def files (d : Disk) : List (Place × String) :=
  d.entries.map fun (p, number) => (p, d.content number)

/-- The files below the directory of a run that were not there before, by
name. -/
def filesSince (before after : Disk) : List (String × String) :=
  (after.files.filter fun (p, _) =>
    p.base == Place.here.base && (before.entries.lookup p).isNone).map fun (p, content) =>
      (p.render, content)

end Disk

end InvariantSearch
