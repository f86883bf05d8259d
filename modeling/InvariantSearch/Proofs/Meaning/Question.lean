import InvariantSearch.Proofs.Meaning.Program
import InvariantSearch.Proofs.Meaning.Diagram

/-!
# True answers

What a solver says about a question can be compared with the states of the
program.

* `Question.HasModel` — there are states as the question asks for, in a domain
  that has elements of every sort.
* `Question.Truthful` — a verdict agrees with that. A question about a bound on
  a sort depends on the bounds that were found before, and one that is known by
  its text only has no meaning, so nothing is asked of verdicts on these.
-/

namespace InvariantSearch

namespace Question

/-- There are states as a question asks for. Of the literals of a diagram, only those that
a core names count. -/
def HasModel (p : Program) (core : Option (List Nat)) : Question → Prop
  | .badState _ states property | .implication states property =>
    ∃ D : Domain, D.Inhabits p ∧ ∃ s : State D, IsState p s ∧ states.HoldsIn s ∧
      ¬ property.HoldsIn s
  | .predecessor _ states d way =>
    ∃ D : Domain, D.Inhabits p ∧ ∃ s t : State D, IsState p s ∧ IsState p t ∧
      states.HoldsIn s ∧ Goes p way s t ∧
      ExistsOf d.vars (fun v => ∀ f ∈ d.coreLiterals core, f.Holds (fun _ => t) 0 v) .empty
  | .initiation property =>
    ∃ D : Domain, D.Inhabits p ∧ ∃ s : State D, IsInitial p s ∧ ¬ property.HoldsIn s
  | .consecution assumption property r =>
    ∃ D : Domain, D.Inhabits p ∧ ∃ s t : State D, IsState p s ∧ IsState p t ∧
      assumption.HoldsIn s ∧ Takes p r s t ∧ ¬ property.HoldsIn t
  | .statement f =>
    ∃ D : Domain, D.Inhabits p ∧ ∃ s t : State D, IsState p s ∧ IsState p t ∧ Shares p s t ∧
      ¬ f.formula.Holds (twoStates s t) 0 .empty
  | .run _ constraints names =>
    ∃ D : Domain, D.Inhabits p ∧ ∃ σ : Nat → State D, IsRun p names σ ∧
      ∀ (i : Nat) (f : Formula), constraints[i]? = some (some f) → f.HoldsIn (σ i)
  | .bounded question _ _ => question.HasModel p core
  | .other _ => True

/-- Whether the text of a question alone tells what it asks about the program. -/
def isDefinite : Question → Bool
  | .bounded _ _ _ | .other _ => false
  | _ => true

/-- Whether a question is one by which a search excludes states. -/
def isExclusion : Question → Bool
  | .badState _ _ _ | .predecessor _ _ _ _ | .consecution _ _ _ => true
  | _ => false

/-- A verdict on a question is right. -/
def Truthful (p : Program) (q : Question) : Verdict → Prop
  | .sat _ => q.HasModel p none
  | .unsat core => ¬ q.HasModel p core
  | .unknown _ => True

end Question

end InvariantSearch
