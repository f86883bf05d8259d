import InvariantSearch.Solver.Script

/-!
# The notation of scripts

A script is a sequence of answers:

* `unsat`, or `(unsat 0 2)` with the positions of a core;
* `unknown`, or `(unknown reason)`;
* `sat`, or `(sat part ..)`, where a part `(universe sort size)` lists
  elements and a part `(table symbol row ..)` interprets a symbol;
* `(interrupt answer)` for an answer that an interrupt arrives with;
* `(ever answer)`, at the end, for the answer to all further queries.

A row `(0 1 true)` gives the value for the elements 0 and 1, and a row
`(otherwise false)` that for all others. Values are `true`, `false`, the number
of an element, `open` for an application that is its own value, and `failing`.
-/

namespace InvariantSearch

namespace Script

/-- A step of reading. -/
abbrev Parsed (α : Type) := Except (Located Fault) α

/-- Something else stands where `what` should. -/
def refuse {α : Type} (what : String) (e : Sexpr) : Parsed α :=
  .error ⟨e.line, .expected what e.render⟩

def readNumber (e : Sexpr) : Parsed Nat :=
  match e with
  | .atom _ digits =>
    match digits.toNat? with
    | some n => .ok n
    | none => refuse "a number" e
  | .list _ _ => refuse "a number" e

def readValue (e : Sexpr) : Parsed TableValue :=
  match e with
  | .atom _ "true" => .ok (.bool true)
  | .atom _ "false" => .ok (.bool false)
  | .atom _ "open" => .ok .unevaluated
  | .atom _ "failing" => .ok .failing
  | e => return .element (← readNumber e)

def addRow (t : SymbolTable) (e : Sexpr) : Parsed SymbolTable :=
  match e with
  | .list _ [.atom _ "otherwise", value] => return { t with otherwise := some (← readValue value) }
  | .list _ cells =>
    match cells.reverse with
    | value :: args => do
      let args ← args.reverse.mapM readNumber
      return { t with entries := t.entries ++ [(args, ← readValue value)] }
    | [] => refuse "a row" e
  | .atom _ _ => refuse "a row" e

def addPart (m : SolverModel) (e : Sexpr) : Parsed SolverModel :=
  match e with
  | .list _ [.atom _ "universe", .atom _ sort, size] =>
    return { m with universes := m.universes ++ [(sort, ← readNumber size)] }
  | .list _ (.atom _ "table" :: .atom _ symbol :: rows) => do
    let table ← rows.foldlM addRow ⟨[], none⟩
    return { m with tables := m.tables ++ [(symbol, table)] }
  | e => refuse "a part of a model" e

def standardReason : String := "canceled"

def readVerdict (e : Sexpr) : Parsed Verdict :=
  match e with
  | .atom _ "unsat" => .ok (.unsat none)
  | .list _ (.atom _ "unsat" :: positions) => return .unsat (some (← positions.mapM readNumber))
  | .atom _ "unknown" => .ok (.unknown standardReason)
  | .list _ (.atom _ "unknown" :: words) => .ok (.unknown (Sexpr.renderItems words))
  | .atom _ "sat" => .ok (.sat .empty)
  | .list _ (.atom _ "sat" :: parts) => return .sat (← parts.foldlM addPart .empty)
  | e => refuse "a verdict" e

def readAnswer (e : Sexpr) : Parsed Answer :=
  match e with
  | .list _ [.atom _ "interrupt", verdict] => return ⟨← readVerdict verdict, true⟩
  | e => return ⟨← readVerdict e, false⟩

def ofSexprs : List Sexpr → Parsed Script
  | [] => .ok ⟨[], none⟩
  | [.list _ [.atom _ "ever", answer]] => return ⟨[], some (← readAnswer answer)⟩
  | e :: rest => do
    let answer ← readAnswer e
    let script ← ofSexprs rest
    return { script with answers := answer :: script.answers }

def read (text : String) : Parsed Script := do ofSexprs (← Sexpr.readAll text)

end Script

end InvariantSearch
