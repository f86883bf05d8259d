import InvariantSearch.Formula.Basic

/-!
# Drafts of formulas

A draft is a formula under construction: any operand may still be missing.
`Draft.build` completes it from the leaves up and fails at the first node that
lacks an operand. Nodes that disappear (a conjunction of one part, a
quantifier without variables) pass a missing operand on.
-/

namespace InvariantSearch

/-- A formula in which operands may be missing. -/
inductive Draft where
  | missing
  | bool (value : Bool)
  | id (name : String)
  | app (name : String) (args : List Draft)
  | operation (operator : Operator) (operands : List Draft)
  | quantifier (operator : Operator) (vars : List Var) (body : Draft)

/-- A node of some kind lacks an operand. -/
structure MissingOperand where
  kind : String
  deriving DecidableEq, Repr

def MissingOperand.message (e : MissingOperand) : String :=
  "Null child in " ++ e.kind ++ " node"

namespace Draft

/-- All operands of a node, none of them missing. -/
def complete (kind : String) (operands : List (Option Formula)) :
    Except MissingOperand (List Formula) :=
  operands.mapM fun operand =>
    match operand with
    | some f => .ok f
    | none => .error ⟨kind⟩

/-- Joins the parts of a conjunction or a disjunction: `none` of them is a
truth value, one of them stands for itself even when it is missing. -/
def join (operator : Operator) (unit : Formula) (make : List Formula → Formula)
    (parts : List (Option Formula)) : Except MissingOperand (Option Formula) :=
  match parts with
  | [] => .ok (some unit)
  | [part] => .ok part
  | parts => do return some (make (← complete operator.word parts))

def node (operator : Operator) (operands : List (Option Formula)) :
    Except MissingOperand (Option Formula) := do
  match operator, ← complete operator.word operands with
  | .not, [a] => return some (.not a)
  | .imp, [a, b] => return some (.imp a b)
  | .iff, [a, b] => return some (.iff a b)
  | .eq, [a, b] => return some (.eq a b)
  | .ne, [a, b] => return some (.ne a b)
  | .ite, [a, b, c] => return some (.ite a b c)
  | .new, [a] => return some (.new a)
  | _, _ => throw ⟨operator.word⟩

mutual

/-- The formula of a draft, or `none` when the draft itself is missing. -/
def build : Draft → Except MissingOperand (Option Formula)
  | .missing => .ok none
  | .bool value => .ok (some (.bool value))
  | .id name => .ok (some (.id name))
  | .app name args => do
    let args ← complete "App" (← buildList args)
    return some (Formula.apply name args)
  | .operation .and parts => do join .and .top .and (← buildList parts)
  | .operation .or parts => do join .or (.bool false) .or (← buildList parts)
  | .operation operator operands => do node operator (← buildList operands)
  | .quantifier operator vars body => do
    let body ← body.build
    if vars.isEmpty then return body
    match body with
    | none => throw ⟨operator.word⟩
    | some body => return some (if operator = .all then .all vars body else .ex vars body)

/-- The formulas of several drafts, first to last. -/
def buildList : List Draft → Except MissingOperand (List (Option Formula))
  | [] => .ok []
  | d :: ds => do return (← d.build) :: (← buildList ds)

end

end Draft

end InvariantSearch
