import InvariantSearch.Search.State

/-!
# Questions

What a solver is asked, in terms of the program: whether there are states that
meet some conditions. A query puts a question to the solver as terms; the
question itself says what the answer is about.
-/

namespace InvariantSearch

/-- The name of a way from a state to the next one: by a transition, or, without
one, by a stutter. -/
def wayName : Option Transition → String
  | none => stutterName
  | some t => t.name

/-- What is asked about a program. -/
inductive Question where
  /-- Is there a state of frame number `frame` that violates a property? -/
  | badState (frame : Nat) (states property : Formula)
  /-- Does a state of a frame reach a diagram by a way? Each literal of the
  diagram that is on is an assumption of its own. -/
  | predecessor (context : String) (states : Formula) (diagram : Diagram)
      (way : Option Transition)
  /-- Is there an initial state that violates a property? -/
  | initiation (property : Formula)
  /-- Does a transition lead from an assumption into a violation of a
  property? -/
  | consecution (assumption property : Formula) (transition : Transition)
  /-- Is there a state of an assumption that violates a property? -/
  | implication (assumption property : Formula)
  /-- Are there states that violate a theorem? -/
  | statement (t : Theorem)
  /-- Is there a run that meets a condition in each state, where one is given,
  and takes the named transitions? The empty name leaves a step open. -/
  | run (title : String) (constraints : List (Option Formula)) (names : List String)
  /-- Can a sort do with so many elements? -/
  | bounded (question : Question) (sort : String) (size : Nat)
  /-- A question that is known by its text only. -/
  | other (text : String)
  deriving DecidableEq

namespace Question

instance : Coe String Question := ⟨.other⟩

def description : Question → String
  | .badState frame _ _ => "bad states in frame " ++ toString frame
  | .predecessor context _ _ way => "predecessor of " ++ context ++ " via " ++ wayName way
  | .initiation property => "initiation of " ++ property.render
  | .consecution _ property t => "consecution of " ++ property.render ++ " over " ++ t.name
  | .implication assumption property =>
    "implication " ++ assumption.render ++ " => " ++ property.render
  | .statement t => "theorem " ++ t.name
  | .run title constraints _ => title ++ " over " ++ toString constraints.length ++ " states"
  | .bounded question sort size =>
    question.description ++ ", at most " ++ toString size ++ " elements of sort " ++ sort
  | .other text => text

def states : Question → Nat
  | .badState _ _ _ | .initiation _ | .implication _ _ | .other _ => 1
  | .predecessor _ _ _ _ | .consecution _ _ _ => 2
  | .statement t => if t.isTwoState then 2 else 1
  | .run _ constraints _ => constraints.length
  | .bounded question _ _ => question.states

end Question

end InvariantSearch
