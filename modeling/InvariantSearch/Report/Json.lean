import InvariantSearch.Report.Basic

/-!
# Reports as JSON

`Report.render` lays a report out over lines, four blanks a level. Every value
is a string. A report without parts is its text, so an empty list is `""`; a
report whose keys are all empty is an array, any other an object. The
outermost level is always an object.
-/

namespace InvariantSearch

namespace Report

def hexDigit (n : Nat) : Char :=
  if n < 10 then Char.ofNat (48 + n) else Char.ofNat (55 + n)

/-- A character inside a JSON string. Besides what has to be, the slash is
escaped too. -/
def escapeChar (c : Char) : String :=
  if c = '"' then "\\\""
  else if c = '\\' then "\\\\"
  else if c = '/' then "\\/"
  else if c = '\n' then "\\n"
  else if c = '\t' then "\\t"
  else if c = '\r' then "\\r"
  else if c.toNat = 8 then "\\b"
  else if c.toNat = 12 then "\\f"
  else if c.toNat < 32 then
    "\\u00" ++ String.ofList [hexDigit (c.toNat / 16), hexDigit (c.toNat % 16)]
  else String.singleton c

def quote (text : String) : String :=
  "\"" ++ String.join (text.toList.map escapeChar) ++ "\""

/-- The blanks before a line of a level. -/
def indent (level : Nat) : String := String.ofList (List.replicate (4 * level) ' ')

mutual

def layout (level : Nat) : Report → String
  | .text value => quote value
  | .parts [] => quote ""
  | .parts entries =>
    if entries.all (fun entry => entry.1 == "") then
      "[\n" ++ layoutItems level entries ++ indent level ++ "]"
    else
      "\x7b\n" ++ layoutFields level entries ++ indent level ++ "\x7d"

def layoutItems (level : Nat) : List (String × Report) → String
  | [] => ""
  | (_, item) :: rest =>
    indent (level + 1) ++ layout (level + 1) item ++
      (if rest.isEmpty then "\n" else ",\n") ++ layoutItems level rest

def layoutFields (level : Nat) : List (String × Report) → String
  | [] => ""
  | (key, value) :: rest =>
    indent (level + 1) ++ quote key ++ ": " ++ layout (level + 1) value ++
      (if rest.isEmpty then "\n" else ",\n") ++ layoutFields level rest

end

/-- The text of a report whose outermost parts are the given ones. -/
def render (entries : List (String × Report)) : String :=
  "\x7b\n" ++ layoutFields 0 entries ++ "\x7d\n"

end Report

end InvariantSearch
