/-!
# Solver terms

The language that queries are asked in: many-sorted first-order terms over
declared symbols. Constants stand for quantified variables too, so a
quantifier lists the constants it binds.

* `SolverSort` — truth values, or a named sort.
* `SolverSymbol` — a name with argument sorts and a range. Declared symbols are
  the same when all three agree. A fresh symbol has a number besides, and is no
  declared one even where it is spelled like it.
* `Term` — terms, and formulas as terms of truth value sort. `element` is a
  member of a sort's universe in some model.
-/

namespace InvariantSearch

/-- The sort of a term. -/
inductive SolverSort where
  | bool
  | named (name : String)
  deriving DecidableEq, Repr

def SolverSort.render : SolverSort → String
  | .bool => "Bool"
  | .named name => name

/-- A declared function, relation or constant. -/
structure SolverSymbol where
  name : String
  args : List SolverSort
  range : SolverSort
  /-- The number of a fresh symbol; declared ones have none. -/
  number : Option Nat
  deriving DecidableEq, Repr

def SolverSymbol.render (f : SolverSymbol) : String :=
  "(declare-fun " ++ f.name ++ " (" ++ " ".intercalate (f.args.map SolverSort.render) ++ ") " ++
    f.range.render ++ ")"

/-- A fresh constant. -/
structure SolverConst where
  name : String
  sort : SolverSort
  number : Nat
  deriving DecidableEq, Repr

/-- A term. -/
inductive Term where
  | bool (value : Bool)
  | element (sort : SolverSort) (index : Nat)
  | app (symbol : SolverSymbol) (args : List Term)
  | not (body : Term)
  | and (parts : List Term)
  | or (parts : List Term)
  | imp (left right : Term)
  | iff (left right : Term)
  | eq (left right : Term)
  | ite (test yes no : Term)
  | all (consts : List SolverConst) (body : Term)
  | ex (consts : List SolverConst) (body : Term)

def SolverConst.symbol (c : SolverConst) : SolverSymbol := ⟨c.name, [], c.sort, some c.number⟩

def SolverConst.term (c : SolverConst) : Term := .app c.symbol []

namespace Term

/-! ## Equality -/

mutual

def beq : Term → Term → Bool
  | .bool a, .bool b => a == b
  | .element s i, .element t j => s == t && i == j
  | .app f as, .app g bs => f == g && beqList as bs
  | .not a, .not b => beq a b
  | .and as, .and bs => beqList as bs
  | .or as, .or bs => beqList as bs
  | .imp a c, .imp b d => beq a b && beq c d
  | .iff a c, .iff b d => beq a b && beq c d
  | .eq a c, .eq b d => beq a b && beq c d
  | .ite a c e, .ite b d f => beq a b && beq c d && beq e f
  | .all vs a, .all ws b => vs == ws && beq a b
  | .ex vs a, .ex ws b => vs == ws && beq a b
  | _, _ => false

/-- Whether two lists of terms are the same, item by item. -/
def beqList : List Term → List Term → Bool
  | [], [] => true
  | a :: as, b :: bs => beq a b && beqList as bs
  | _, _ => false

end

mutual

/-- Equality of terms is decided by `beq`. -/
theorem beq_eq_true_iff : ∀ {a b : Term}, beq a b = true ↔ a = b
  | .bool _, b | .element _ _, b => by cases b <;> simp [beq]
  | .app _ as, b | .and as, b | .or as, b => by
    cases b <;> simp [beq, @beqList_eq_true_iff as]
  | .not a, b | .all _ a, b | .ex _ a, b => by
    cases b <;> simp [beq, beq_eq_true_iff (a := a)]
  | .imp a c, b | .iff a c, b | .eq a c, b => by
    cases b <;> simp [beq, beq_eq_true_iff (a := a), beq_eq_true_iff (a := c)]
  | .ite a c e, b => by
    cases b <;> simp [beq, beq_eq_true_iff (a := a), beq_eq_true_iff (a := c),
      beq_eq_true_iff (a := e), and_assoc]

/-- Equality of lists of terms is decided by `beqList`. -/
theorem beqList_eq_true_iff : ∀ {as bs : List Term}, beqList as bs = true ↔ as = bs
  | [], bs => by cases bs <;> simp [beqList]
  | a :: as, bs => by
    cases bs <;> simp [beqList, beq_eq_true_iff (a := a), @beqList_eq_true_iff as]

end

instance : DecidableEq Term := fun _ _ => decidable_of_iff _ beq_eq_true_iff

/-! ## Building terms -/

/-- The conjunction of some terms: `true` of none, the term itself of one. -/
def conj : List Term → Term
  | [] => .bool true
  | [part] => part
  | parts => .and parts

/-- The disjunction of some terms: `false` of none, the term itself of one. -/
def disj : List Term → Term
  | [] => .bool false
  | [part] => part
  | parts => .or parts

def forAll (consts : List SolverConst) (body : Term) : Term :=
  if consts.isEmpty then body else .all consts body

def thereIs (consts : List SolverConst) (body : Term) : Term :=
  if consts.isEmpty then body else .ex consts body

/-! ## Text -/

def renderConst (c : SolverConst) : String := "(" ++ c.name ++ " " ++ c.sort.render ++ ")"

def renderQuantifier (word : String) (consts : List SolverConst) (body : String) : String :=
  "(" ++ word ++ " (" ++ " ".intercalate (consts.map renderConst) ++ ") " ++ body ++ ")"

mutual

def render : Term → String
  | .bool value => if value then "true" else "false"
  | .element sort index => sort.render ++ "!val!" ++ toString index
  | .app symbol [] => symbol.name
  | .app symbol (a :: as) => "(" ++ symbol.name ++ renderArgs (a :: as) ++ ")"
  | .not a => "(not " ++ render a ++ ")"
  | .and as => "(and" ++ renderArgs as ++ ")"
  | .or as => "(or" ++ renderArgs as ++ ")"
  | .imp a b => "(=> " ++ render a ++ " " ++ render b ++ ")"
  | .iff a b => "(iff " ++ render a ++ " " ++ render b ++ ")"
  | .eq a b => "(= " ++ render a ++ " " ++ render b ++ ")"
  | .ite a b c => "(ite " ++ render a ++ " " ++ render b ++ " " ++ render c ++ ")"
  | .all consts a => renderQuantifier "forall" consts (render a)
  | .ex consts a => renderQuantifier "exists" consts (render a)

/-- The text of operands, each after a blank. -/
def renderArgs : List Term → String
  | [] => ""
  | a :: as => " " ++ render a ++ renderArgs as

end

end Term

end InvariantSearch
