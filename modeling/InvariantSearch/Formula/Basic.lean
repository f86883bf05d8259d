import InvariantSearch.Sexpr.Basic

/-!
# Formulas

Many-sorted first-order formulas and terms over the symbols of a program. One
type holds both, since the notation does not tell a constant from a
proposition; sorts are checked against a program later. `new e` is `e` in the
next state.

* `Formula` is the type, `Operator` its reserved words.
* `conj`, `disj`, `apply`, `forAll` and `thereIs` build formulas and leave out
  what says nothing: connectives of fewer than two operands, applications to
  no argument, quantifiers that bind nothing.
* Two formulas are equal when they are the same tree; `Formula.beq` decides it.
-/

namespace InvariantSearch

/-- A variable and its sort. -/
structure Var where
  name : String
  sort : String
  deriving DecidableEq, Repr

/-- A formula or a term. -/
inductive Formula where
  | bool (value : Bool)
  | id (name : String)
  | app (name : String) (args : List Formula)
  | not (body : Formula)
  | and (parts : List Formula)
  | or (parts : List Formula)
  | imp (left right : Formula)
  | iff (left right : Formula)
  | eq (left right : Formula)
  | ne (left right : Formula)
  | ite (test yes no : Formula)
  | all (vars : List Var) (body : Formula)
  | ex (vars : List Var) (body : Formula)
  | new (body : Formula)

/-- The reserved words that head a formula. -/
inductive Operator where
  | not | and | or | imp | iff | eq | ne | ite | all | ex | new
  deriving DecidableEq, Repr

namespace Operator

def word : Operator → String
  | .not => "not"
  | .and => "and"
  | .or => "or"
  | .imp => "=>"
  | .iff => "<=>"
  | .eq => "="
  | .ne => "!="
  | .ite => "ite"
  | .all => "forall"
  | .ex => "exists"
  | .new => "new"

def every : List Operator :=
  [.not, .and, .or, .imp, .iff, .eq, .ne, .ite, .all, .ex, .new]

/-- The operator with a spelling, if there is one. -/
def ofWord? (word : String) : Option Operator :=
  every.find? (fun operator => operator.word == word)

/-- How many operands an operator takes; conjunction and disjunction take any
number. -/
def arity? : Operator → Option Nat
  | .not | .new => some 1
  | .and | .or => none
  | .imp | .iff | .eq | .ne | .all | .ex => some 2
  | .ite => some 3

end Operator

namespace Formula

/-! ## Equality -/

mutual

def beq : Formula → Formula → Bool
  | .bool a, .bool b => a == b
  | .id a, .id b => a == b
  | .app f as, .app g bs => f == g && beqList as bs
  | .not a, .not b => beq a b
  | .and as, .and bs => beqList as bs
  | .or as, .or bs => beqList as bs
  | .imp a c, .imp b d => beq a b && beq c d
  | .iff a c, .iff b d => beq a b && beq c d
  | .eq a c, .eq b d => beq a b && beq c d
  | .ne a c, .ne b d => beq a b && beq c d
  | .ite a c e, .ite b d f => beq a b && beq c d && beq e f
  | .all vs a, .all ws b => vs == ws && beq a b
  | .ex vs a, .ex ws b => vs == ws && beq a b
  | .new a, .new b => beq a b
  | _, _ => false

/-- Whether two lists of formulas are the same, item by item. -/
def beqList : List Formula → List Formula → Bool
  | [], [] => true
  | a :: as, b :: bs => beq a b && beqList as bs
  | _, _ => false

end

mutual

/-- Equality of formulas is decided by `beq`. -/
theorem beq_eq_true_iff : ∀ {a b : Formula}, beq a b = true ↔ a = b
  | .bool _, b | .id _, b => by cases b <;> simp [beq]
  | .app _ as, b | .and as, b | .or as, b => by
    cases b <;> simp [beq, @beqList_eq_true_iff as]
  | .not a, b | .all _ a, b | .ex _ a, b | .new a, b => by
    cases b <;> simp [beq, beq_eq_true_iff (a := a)]
  | .imp a c, b | .iff a c, b | .eq a c, b | .ne a c, b => by
    cases b <;> simp [beq, beq_eq_true_iff (a := a), beq_eq_true_iff (a := c)]
  | .ite a c e, b => by
    cases b <;> simp [beq, beq_eq_true_iff (a := a), beq_eq_true_iff (a := c),
      beq_eq_true_iff (a := e), and_assoc]

/-- Equality of lists of formulas is decided by `beqList`. -/
theorem beqList_eq_true_iff : ∀ {as bs : List Formula}, beqList as bs = true ↔ as = bs
  | [], bs => by cases bs <;> simp [beqList]
  | a :: as, bs => by
    cases bs <;> simp [beqList, beq_eq_true_iff (a := a), @beqList_eq_true_iff as]

end

instance : DecidableEq Formula := fun _ _ => decidable_of_iff _ beq_eq_true_iff

/-! ## Building formulas -/

def top : Formula := .bool true

/-- The conjunction of some formulas: `true` of none, the formula itself of
one. -/
def conj : List Formula → Formula
  | [] => top
  | [part] => part
  | parts => .and parts

/-- The disjunction of some formulas: `false` of none, the formula itself of
one. -/
def disj : List Formula → Formula
  | [] => .bool false
  | [part] => part
  | parts => .or parts

/-- A symbol applied to arguments; without any it is the bare name. -/
def apply (name : String) : List Formula → Formula
  | [] => .id name
  | args => .app name args

/-- Universal quantification, which leaves out an empty binder. -/
def forAll (vars : List Var) (body : Formula) : Formula :=
  if vars.isEmpty then body else .all vars body

/-- Existential quantification, which leaves out an empty binder. -/
def thereIs (vars : List Var) (body : Formula) : Formula :=
  if vars.isEmpty then body else .ex vars body

/-! ## Parts of a formula -/

/-- The operator at the head of a formula, if it has one. -/
def operator? : Formula → Option Operator
  | .bool _ | .id _ | .app _ _ => none
  | .not _ => some .not
  | .and _ => some .and
  | .or _ => some .or
  | .imp _ _ => some .imp
  | .iff _ _ => some .iff
  | .eq _ _ => some .eq
  | .ne _ _ => some .ne
  | .ite _ _ _ => some .ite
  | .all _ _ => some .all
  | .ex _ _ => some .ex
  | .new _ => some .new

/-- What kind of node heads a formula, as messages name it. -/
def kind : Formula → String
  | .bool _ => "Bool"
  | .id _ => "Id"
  | .app _ _ => "App"
  | f => (f.operator?.map Operator.word).getD ""

/-- The name an identifier or an application carries; other nodes have none. -/
def name : Formula → String
  | .id name => name
  | .app name _ => name
  | _ => ""

/-- The immediate parts of a formula, in order. -/
def children : Formula → List Formula
  | .bool _ | .id _ => []
  | .app _ args => args
  | .not a | .new a | .all _ a | .ex _ a => [a]
  | .and parts | .or parts => parts
  | .imp a b | .iff a b | .eq a b | .ne a b => [a, b]
  | .ite a b c => [a, b, c]

def bound : Formula → List Var
  | .all vars _ | .ex vars _ => vars
  | _ => []

end Formula

end InvariantSearch
