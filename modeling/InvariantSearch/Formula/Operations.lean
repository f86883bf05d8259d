import InvariantSearch.Formula.Basic
import InvariantSearch.Text.NameSet

/-!
# Operations on formulas

* `freeNames` — the identifiers a formula leaves unbound and the symbols it
  applies.
* `substitute` — formulas put for identifiers. Binders hide what they bind;
  variables may be captured.
* `newDepth` — how deep next-state operators nest.
* `conjuncts` — a conjunction taken apart.
* `complement` — the negation of a literal, itself a literal.
-/

namespace InvariantSearch

namespace Formula

/-! ## Names -/

mutual

/-- Adds the free names of a formula below some bound names to a set. -/
def collectNames (hidden : List String) (names : NameSet) : Formula → NameSet
  | .bool _ => names
  | .id name => if hidden.contains name then names else names.insert name
  | .app name args => collectNamesList hidden (names.insert name) args
  | .not a | .new a => collectNames hidden names a
  | .and parts | .or parts => collectNamesList hidden names parts
  | .imp a b | .iff a b | .eq a b | .ne a b =>
    collectNames hidden (collectNames hidden names a) b
  | .ite a b c =>
    collectNames hidden (collectNames hidden (collectNames hidden names a) b) c
  | .all vars a | .ex vars a => collectNames (vars.map Var.name ++ hidden) names a

def collectNamesList (hidden : List String) (names : NameSet) : List Formula → NameSet
  | [] => names
  | f :: fs => collectNamesList hidden (collectNames hidden names f) fs

end

/-- The identifiers a formula does not bind, and every symbol it applies. -/
def freeNames (f : Formula) : NameSet := f.collectNames [] .empty

/-! ## Substitution -/

/-- Formulas to put for identifiers. -/
abbrev Substitution := List (String × Formula)

/-- The substitution below a binder: what is bound stays. -/
def Substitution.under (vars : List Var) (s : Substitution) : Substitution :=
  s.filter (fun entry => !(vars.any (fun v => v.name == entry.1)))

mutual

/-- Puts formulas for free identifiers. Names that are applied stay, and a
formula that is put in is not renamed apart from the binders above it. -/
def substitute (s : Substitution) : Formula → Formula
  | .bool value => .bool value
  | .id name => (s.lookup name).getD (.id name)
  | .app name args => .app name (substituteList s args)
  | .not a => .not (substitute s a)
  | .and parts => .and (substituteList s parts)
  | .or parts => .or (substituteList s parts)
  | .imp a b => .imp (substitute s a) (substitute s b)
  | .iff a b => .iff (substitute s a) (substitute s b)
  | .eq a b => .eq (substitute s a) (substitute s b)
  | .ne a b => .ne (substitute s a) (substitute s b)
  | .ite a b c => .ite (substitute s a) (substitute s b) (substitute s c)
  | .all vars a => .all vars (substitute (Substitution.under vars s) a)
  | .ex vars a => .ex vars (substitute (Substitution.under vars s) a)
  | .new a => .new (substitute s a)

def substituteList (s : Substitution) : List Formula → List Formula
  | [] => []
  | f :: fs => substitute s f :: substituteList s fs

end

/-! ## Shape -/

mutual

/-- How many next-state operators stand above one another at most. -/
def newDepth : Formula → Nat
  | .bool _ | .id _ => 0
  | .app _ args => newDepthList args
  | .not a | .all _ a | .ex _ a => newDepth a
  | .and parts | .or parts => newDepthList parts
  | .imp a b | .iff a b | .eq a b | .ne a b => max (newDepth a) (newDepth b)
  | .ite a b c => max (max (newDepth a) (newDepth b)) (newDepth c)
  | .new a => newDepth a + 1

def newDepthList : List Formula → Nat
  | [] => 0
  | f :: fs => max (newDepth f) (newDepthList fs)

end

mutual

/-- The parts of nested conjunctions in order, without `true`. -/
def conjuncts : Formula → List Formula
  | .and parts => conjunctsList parts
  | .bool true => []
  | f => [f]

/-- The conjuncts of several formulas, one after the other. -/
def conjunctsList : List Formula → List Formula
  | [] => []
  | f :: fs => conjuncts f ++ conjunctsList fs

end

/-- The negation of a literal: a negation loses its sign, an equation and an
inequation change places, a truth value flips. Anything else is negated. -/
def complement : Formula → Formula
  | .not a => a
  | .eq a b => .ne a b
  | .ne a b => .eq a b
  | .bool value => .bool (!value)
  | f => .not f

end Formula

end InvariantSearch
