/-!
# Sets of names

Names are ordered by their characters' code points, which is the order of
their UTF-8 bytes. A `NameSet` lists its members in that order, each once.
-/

namespace InvariantSearch

/-- Names in increasing order, each once. -/
structure NameSet where
  toList : List String
  deriving DecidableEq, Repr

namespace NameSet

/-- The set without members. -/
def empty : NameSet := ⟨[]⟩

/-- Puts a name at its place in an increasing list that lacks it. -/
def insertSorted (name : String) : List String → List String
  | [] => [name]
  | first :: rest =>
    if name < first then name :: first :: rest
    else if name = first then first :: rest
    else first :: insertSorted name rest

def insert (name : String) (s : NameSet) : NameSet := ⟨insertSorted name s.toList⟩

def ofList (names : List String) : NameSet :=
  names.foldl (fun s name => s.insert name) empty

def contains (s : NameSet) (name : String) : Bool := s.toList.contains name

def isEmpty (s : NameSet) : Bool := s.toList.isEmpty

end NameSet

end InvariantSearch
