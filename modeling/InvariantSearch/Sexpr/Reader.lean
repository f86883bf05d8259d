import InvariantSearch.Sexpr.Basic

/-!
# Reading s-expressions

A text is read in two steps.

* `scan` cuts it into lexemes: parentheses and atoms, each with its line.
  Atoms are the longest runs of characters other than white space,
  parentheses and semicolons; a semicolon starts a comment that ends with the
  line. Every text can be cut.
* `gather` folds the lexemes into s-expressions. It stops at a parenthesis
  without partner: at the line of a stray closing one, or at the line of the
  innermost list that is still open when the text ends. What was complete
  before stays readable.
-/

namespace InvariantSearch

namespace Sexpr

/-! ## Lexemes -/

/-- A parenthesis or an atom. -/
inductive Token where
  | opening
  | closing
  | atom (text : String)
  deriving DecidableEq, Repr

/-- A token at its line. -/
abbrev Lexeme := Located Token

/-- White space is blank, tab, line feed, vertical tab, form feed and
carriage return. -/
def isBlank (c : Char) : Bool :=
  c == ' ' || (9 ≤ c.toNat && c.toNat ≤ 13)

/-- Where the scanner stands: between atoms, in a comment, or in an atom of
which `seen` was read, last character first. -/
inductive Mode where
  | between
  | comment
  | inAtom (seen : List Char)
  deriving DecidableEq, Repr

/-- The atom that ends here, if the scanner is in one. -/
def Mode.finish (line : Nat) : Mode → List Lexeme
  | .inAtom seen => [⟨line, .atom (String.ofList seen.reverse)⟩]
  | _ => []

def Mode.extend (c : Char) : Mode → Mode
  | .inAtom seen => .inAtom (c :: seen)
  | _ => .inAtom [c]

/-- Cuts the rest of a text, which starts in `line` and in `mode`. An atom
holds no line break, so it ends on the line it started on. -/
def scanFrom (line : Nat) (mode : Mode) : List Char → List Lexeme
  | [] => mode.finish line
  | c :: rest =>
    if mode = .comment then
      if c = '\n' then scanFrom (line + 1) .between rest else scanFrom line .comment rest
    else if isBlank c then
      mode.finish line ++ scanFrom (if c = '\n' then line + 1 else line) .between rest
    else if c = ';' then
      mode.finish line ++ scanFrom line .comment rest
    else if c = '(' then
      mode.finish line ++ ⟨line, .opening⟩ :: scanFrom line .between rest
    else if c = ')' then
      mode.finish line ++ ⟨line, .closing⟩ :: scanFrom line .between rest
    else
      scanFrom line (mode.extend c) rest

def scan (text : String) : List Lexeme := scanFrom 1 .between text.toList

/-! ## From lexemes to s-expressions -/

/-- A list that is open: the line of its parenthesis and its items so far,
last item first. -/
structure OpenList where
  line : Nat
  items : List Sexpr

def OpenList.push (item : Sexpr) (l : OpenList) : OpenList :=
  { l with items := item :: l.items }

/-- The s-expression a list becomes when it is closed. -/
def OpenList.close (l : OpenList) : Sexpr := .list l.line l.items.reverse

/-- What was read: the complete items in order, and the fault that ended the
reading before the end of the text, if there was one. -/
structure Reading where
  items : List Sexpr
  stopped : Option (Located Fault)

def Reading.cons (item : Sexpr) (r : Reading) : Reading :=
  { r with items := item :: r.items }

/-- Folds lexemes into items; `pending` are the open lists, innermost first. -/
def gather (pending : List OpenList) : List Lexeme → Reading
  | [] =>
    match pending with
    | [] => ⟨[], none⟩
    | innermost :: _ => ⟨[], some ⟨innermost.line, .unterminated⟩⟩
  | ⟨line, .opening⟩ :: rest => gather (⟨line, []⟩ :: pending) rest
  | ⟨line, .closing⟩ :: rest =>
    match pending with
    | [] => ⟨[], some ⟨line, .unbalanced⟩⟩
    | [outermost] => (gather [] rest).cons outermost.close
    | innermost :: next :: outer => gather (next.push innermost.close :: outer) rest
  | ⟨line, .atom text⟩ :: rest =>
    match pending with
    | [] => (gather [] rest).cons (.atom line text)
    | innermost :: outer => gather (innermost.push (.atom line text) :: outer) rest

def read (text : String) : Reading := gather [] (scan text)

/-- Reads all of a text, or fails where the reading stops. -/
def readAll (text : String) : Except (Located Fault) (List Sexpr) :=
  let reading := read text
  match reading.stopped with
  | none => .ok reading.items
  | some fault => .error fault

end Sexpr

end InvariantSearch
