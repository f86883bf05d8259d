/-!
# Places

Where files and directories lie. A run works in a directory of its own, and
places are told from there or from the root of all directories.

* `Place.step` moves along the tree of directories, and `Place.ofName` goes all
  the way that a name tells.
* `Place.render` writes a place as a name that leads to it.
-/

namespace InvariantSearch

/-- Where the way to a place starts. -/
inductive Base where
  /-- At the directory that contains all others. -/
  | root
  /-- At the directory so many levels above the one a run works in. -/
  | above (levels : Nat)
  deriving DecidableEq, Repr

/-- The names of the directories on the way, and of what lies there. -/
structure Place where
  base : Base
  parts : List String
  deriving DecidableEq, Repr

namespace Place

def here : Place := ⟨.above 0, []⟩

def root : Place := ⟨.root, []⟩

def child (p : Place) (name : String) : Place := { p with parts := p.parts ++ [name] }

/-- The directory around a place; the root is in itself. -/
def up (p : Place) : Place :=
  if p.parts.isEmpty then
    match p.base with
    | .root => p
    | .above levels => ⟨.above (levels + 1), []⟩
  else { p with parts := p.parts.dropLast }

def step (p : Place) (name : String) : Place :=
  if name = "" ∨ name = "." then p else if name = ".." then p.up else p.child name

def start (name : String) : Place := if name.startsWith "/" then root else here

def steps (name : String) : List String := name.splitOn "/"

def ofName (name : String) : Place := (steps name).foldl step (start name)

def render (p : Place) : String :=
  let way := "/".intercalate p.parts
  match p.base with
  | .root => "/" ++ way
  | .above levels => String.join (List.replicate levels "../") ++ way

end Place

end InvariantSearch
