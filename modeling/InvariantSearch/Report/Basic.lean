/-!
# Reports

Results are reported as trees: a report is a text, or a sequence of parts that
each have a key. The keys of a plain list are all empty.
-/

namespace InvariantSearch

/-- A text, or parts with keys in order. -/
inductive Report where
  | text (value : String)
  | parts (entries : List (String × Report))

namespace Report

/-- A plain list: parts without keys. -/
def list (items : List Report) : Report := .parts (items.map fun item => ("", item))

def texts (items : List String) : Report := list (items.map .text)

/-- A number, written as a text. -/
def nat (n : Nat) : Report := .text (toString n)

/-- Sets the first part of a key, or adds it at the end. -/
def put (key : String) (value : Report) : List (String × Report) → List (String × Report)
  | [] => [(key, value)]
  | entry :: rest =>
    if entry.1 = key then (key, value) :: rest else entry :: put key value rest

end Report

end InvariantSearch
