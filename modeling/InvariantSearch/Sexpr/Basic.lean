/-!
# S-expressions

The concrete notation of programs, formulas and checkpoints: an atom, or a
list of s-expressions in parentheses. Every node keeps the line on which it
starts, so that later stages can point at it.

* `Sexpr.render` writes an s-expression on one line, items one blank apart.
* `Fault` says what is wrong with a text, `Located` adds the line.
-/

namespace InvariantSearch

/-- An atom or a list, with the line (from 1) of its first character. -/
inductive Sexpr where
  | atom (line : Nat) (text : String)
  | list (line : Nat) (items : List Sexpr)

namespace Sexpr

def line : Sexpr → Nat
  | .atom line _ => line
  | .list line _ => line

mutual

/-- The text of an s-expression: an atom as it is, a list in parentheses. -/
def render : Sexpr → String
  | .atom _ text => text
  | .list _ items => "(" ++ renderItems items ++ ")"

/-- The texts of several s-expressions, one blank apart. -/
def renderItems : List Sexpr → String
  | [] => ""
  | [item] => item.render
  | item :: items => item.render ++ " " ++ renderItems items

end

/-- An atom of a text that is being written, where lines play no part. -/
def ofName (name : String) : Sexpr := .atom 0 name

/-- A list of a text that is being written, where lines play no part. -/
def ofItems (items : List Sexpr) : Sexpr := .list 0 items

end Sexpr

/-! ## What can be wrong with a text -/

/-- Why a text is not what a reader looks for. -/
inductive Fault where
  /-- A closing parenthesis without an opening one. -/
  | unbalanced
  /-- A list that is not closed. -/
  | unterminated
  /-- Something else stands where `what` should. -/
  | expected (what got : String)
  /-- An empty list stands for a formula. -/
  | emptyFormula
  /-- An operator with the wrong number of operands. -/
  | operands (operator : String) (count : Nat) (whole : String)
  /-- A quantifier that binds nothing. -/
  | emptyBinder (whole : String)
  /-- A second s-expression where one formula should stand. -/
  | trailing (text : String)
  /-- A declaration of another shape than its keyword asks for. -/
  | shape (form : String)
  /-- A named formula with too few or too many parts. -/
  | malformedDeclaration (keyword : String)
  /-- A keyword that no declaration starts with. -/
  | unknownKeyword (keyword : String)
  /-- An empty list stands for a declaration. -/
  | emptyDeclaration
  deriving DecidableEq, Repr

namespace Fault

def message : Fault → String
  | .unbalanced => "Unbalanced \")\""
  | .unterminated => "Unterminated \"(\""
  | .expected what got => "Expected " ++ what ++ ", got \"" ++ got ++ "\""
  | .emptyFormula => "Empty list where a formula was expected"
  | .operands operator count whole =>
    "\"" ++ operator ++ "\" expects " ++ toString count ++ " operands in \"" ++ whole ++ "\""
  | .emptyBinder whole => "Empty binder in \"" ++ whole ++ "\""
  | .trailing text => "Trailing text after formula: \"" ++ text ++ "\""
  | .shape form => "Expected " ++ form
  | .malformedDeclaration keyword => "Malformed \"" ++ keyword ++ "\" declaration"
  | .unknownKeyword keyword => "Unknown declaration keyword \"" ++ keyword ++ "\""
  | .emptyDeclaration => "Empty declaration"

end Fault

/-- Something at a line of a text. -/
structure Located (α : Type) where
  line : Nat
  value : α
  deriving DecidableEq, Repr

def atLine (source : String) (line : Nat) (message : String) : String :=
  source ++ ":" ++ toString line ++ ": " ++ message

namespace Sexpr

/-- The text of an atom, where `what` is looked for. -/
def expectAtom (what : String) : Sexpr → Except (Located Fault) String
  | .atom _ text => .ok text
  | .list line items => .error ⟨line, .expected what (Sexpr.list line items).render⟩

/-- The items of a list, where `what` is looked for. -/
def expectList (what : String) : Sexpr → Except (Located Fault) (List Sexpr)
  | .atom line text => .error ⟨line, .expected what text⟩
  | .list _ items => .ok items

end Sexpr

end InvariantSearch
