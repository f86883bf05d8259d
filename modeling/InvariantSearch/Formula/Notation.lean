import InvariantSearch.Formula.Basic
import InvariantSearch.Sexpr.Reader

/-!
# The notation of formulas

* `Formula.toSexpr` and `Formula.render` write a formula.
* `Formula.ofSexpr` reads one. An operator takes its number of operands, a
  quantifier a list of `(name sort)` pairs and a body; any other head is a
  symbol. Operators of fewer than two operands and applications to nothing
  disappear as in `conj`, `disj` and `apply`.
* `Formula.read` reads a text that holds one formula and nothing else.
-/

namespace InvariantSearch

/-! ## Writing -/

/-- `(name sort)`. -/
def Var.toSexpr (v : Var) : Sexpr := .ofItems [.ofName v.name, .ofName v.sort]

/-- A binder: the list of its variables. -/
def binderToSexpr (vars : List Var) : Sexpr := .ofItems (vars.map Var.toSexpr)

namespace Formula

mutual

def toSexpr : Formula → Sexpr
  | .bool true => .ofName "true"
  | .bool false => .ofName "false"
  | .id name => .ofName name
  | .app name args => .ofItems (.ofName name :: toSexprs args)
  | .not a => headed .not [toSexpr a]
  | .and parts => headed .and (toSexprs parts)
  | .or parts => headed .or (toSexprs parts)
  | .imp a b => headed .imp [toSexpr a, toSexpr b]
  | .iff a b => headed .iff [toSexpr a, toSexpr b]
  | .eq a b => headed .eq [toSexpr a, toSexpr b]
  | .ne a b => headed .ne [toSexpr a, toSexpr b]
  | .ite a b c => headed .ite [toSexpr a, toSexpr b, toSexpr c]
  | .all vars a => headed .all [binderToSexpr vars, toSexpr a]
  | .ex vars a => headed .ex [binderToSexpr vars, toSexpr a]
  | .new a => headed .new [toSexpr a]

def toSexprs : List Formula → List Sexpr
  | [] => []
  | f :: fs => toSexpr f :: toSexprs fs

def headed (operator : Operator) (operands : List Sexpr) : Sexpr :=
  .ofItems (.ofName operator.word :: operands)

end

def render (f : Formula) : String := f.toSexpr.render

end Formula

/-! ## Reading -/

/-- A `(name sort)` pair. -/
def Var.ofSexpr (e : Sexpr) : Except (Located Fault) Var := do
  match ← e.expectList "a (name sort) pair" with
  | [name, sort] =>
    let name ← name.expectAtom "a variable name"
    let sort ← sort.expectAtom "a sort name"
    return ⟨name, sort⟩
  | _ => throw ⟨e.line, .expected "a (name sort) pair" e.render⟩

/-- A list of `(name sort)` pairs. -/
def binderOfSexpr (e : Sexpr) : Except (Located Fault) (List Var) := do
  (← e.expectList "a list of variable declarations").mapM Var.ofSexpr

namespace Formula

def ofAtom (text : String) : Formula :=
  if text = "true" then .bool true
  else if text = "false" then .bool false
  else .id text

def ofOperator? : Operator → List Formula → Option Formula
  | .not, [a] => some (.not a)
  | .and, parts => some (conj parts)
  | .or, parts => some (disj parts)
  | .imp, [a, b] => some (.imp a b)
  | .iff, [a, b] => some (.iff a b)
  | .eq, [a, b] => some (.eq a b)
  | .ne, [a, b] => some (.ne a b)
  | .ite, [a, b, c] => some (.ite a b c)
  | .new, [a] => some (.new a)
  | _, _ => none

/-- A quantifier over at least one variable. -/
def quantified (operator : Operator) (vars : List Var) (body : Formula) : Formula :=
  if operator = .all then .all vars body else .ex vars body

mutual

def ofSexpr : Sexpr → Except (Located Fault) Formula
  | .atom _ text => .ok (ofAtom text)
  | .list line [] => .error ⟨line, .emptyFormula⟩
  | .list _ (.list inner items :: _) =>
    .error ⟨inner, .expected "an operator or symbol" (Sexpr.list inner items).render⟩
  | .list line (.atom headLine head :: operands) =>
    let whole (_ : Unit) := (Sexpr.list line (.atom headLine head :: operands)).render
    match Operator.ofWord? head with
    | none => do return apply head (← ofSexprs operands)
    | some operator =>
      if operator.arity?.any (· ≠ operands.length) then
        .error ⟨line, .operands head (operator.arity?.getD 0) (whole ())⟩
      else if operator = .all ∨ operator = .ex then
        match operands with
        | [binder, body] => do
          let vars ← binderOfSexpr binder
          if vars.isEmpty then throw ⟨line, .emptyBinder (whole ())⟩
          return quantified operator vars (← ofSexpr body)
        | _ => .error ⟨line, .operands head 2 (whole ())⟩
      else do
        match ofOperator? operator (← ofSexprs operands) with
        | some f => return f
        | none => throw ⟨line, .operands head (operator.arity?.getD 0) (whole ())⟩

/-- Reads several formulas, first to last. -/
def ofSexprs : List Sexpr → Except (Located Fault) (List Formula)
  | [] => .ok []
  | e :: es => do return (← ofSexpr e) :: (← ofSexprs es)

end

/-- Why a text is not a formula. -/
inductive ReadError where
  /-- The text holds no s-expression. -/
  | empty
  /-- The text is faulty at a line. -/
  | located (fault : Located Fault)
  deriving DecidableEq, Repr

/-- The wording of a read error; faults are located in `<formula>`. -/
def ReadError.message : ReadError → String
  | .empty => "Empty formula text"
  | .located fault => atLine "<formula>" fault.line fault.value.message

def read (text : String) : Except ReadError Formula := do
  let reading := Sexpr.read text
  match reading.items with
  | [] =>
    match reading.stopped with
    | none => throw .empty
    | some fault => throw (.located fault)
  | first :: rest =>
    let f ← (ofSexpr first).mapError .located
    match rest with
    | second :: _ => throw (.located ⟨second.line, .trailing second.render⟩)
    | [] =>
      match reading.stopped with
      | none => return f
      | some fault => throw (.located fault)

end Formula

end InvariantSearch
