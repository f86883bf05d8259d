import InvariantSearch.Proofs.Meaning.Formula
import InvariantSearch.Search.Generalization
import Mathlib.Data.List.Forall2
import Mathlib.Tactic.SplitIfs

/-!
# The meaning of programs

A program is a transition system over first-order states.

* `IsState` — a state: symbols are used as they are declared, the axioms hold,
  and derived relations are as they are defined.
* `Takes` — a transition leads from one state to another: its body holds for
  some parameters, what it does not modify is kept, and immutable symbols are
  shared. `Stutters` — nothing but derived relations may change.
* `Reachable` — a state is reached in at most so many steps.
* `IsRun` — a sequence of states with the names of its steps.
* `IsCourse` — states that follow one another by transitions, from an initial one on.
-/

namespace InvariantSearch

open Generalizer

variable {p : Program}

/-! ## States -/

namespace Domain

/-- Whether a value is of a sort. -/
def HasSort (D : Domain) : Value D.Element → String → Prop
  | .truth _, sort => sort = boolSort
  | .element x, sort => D.sort x = sort

/-- Whether every sort of a program has an element. -/
def Inhabits (D : Domain) (p : Program) : Prop := ∀ sort ∈ p.sorts, ∃ x, D.sort x = sort

end Domain

variable {D : Domain}

/-- Whether a state uses a symbol as it is declared: on arguments of its sorts it
has a value of its result's sort, and it says nothing about other arguments. -/
def Symbol.Fits (x : Symbol) (s : State D) : Prop :=
  ∀ args, (List.Forall₂ D.HasSort args x.args → D.HasSort (s x.name args) x.result) ∧
    (¬ List.Forall₂ D.HasSort args x.args → s x.name args = .truth False)

/-- A state of a program. -/
structure IsState (p : Program) (s : State D) : Prop where
  fits : ∀ x ∈ p.symbols, x.Fits s
  axiomatic : ∀ f ∈ p.axioms, f.formula.HoldsIn s
  defined : ∀ x ∈ p.symbols, ∀ f, x.definition? = some f → f.HoldsIn s

/-- An initial state of a program. -/
structure IsInitial (p : Program) (s : State D) : Prop where
  state : IsState p s
  initial : p.initial.HoldsIn s

theorem holdsIn_initial {s : State D} :
    p.initial.HoldsIn s ↔ ∀ f ∈ p.inits, f.formula.HoldsIn s := by
  simp [Program.initial, Formula.HoldsIn]

/-! ## Steps -/

/-- Two states of one structure: immutable symbols mean the same in both. -/
def Shares (p : Program) (s t : State D) : Prop :=
  ∀ x ∈ p.symbols, x.isMutable = false → s x.name = t x.name

/-- All that is not in `mods` means the same in two states. Derived relations follow
from the others, so nothing is said about them. -/
def Keeps (p : Program) (mods : NameSet) (s t : State D) : Prop :=
  ∀ x ∈ Encoding.kept p mods, s x.name = t x.name

/-- The sequence of a state and all its next ones. -/
def twoStates (s t : State D) : Nat → State D
  | 0 => s
  | _ + 1 => t

/-- A transition leads from a state to another. -/
structure Takes (p : Program) (r : Transition) (s t : State D) : Prop where
  shares : Shares p s t
  keeps : Keeps p r.mods s t
  body : ExistsOf r.params (fun v => r.body.Holds (twoStates s t) 0 v) .empty

/-- Nothing changes from a state to another but derived relations. -/
structure Stutters (p : Program) (s t : State D) : Prop where
  shares : Shares p s t
  keeps : Keeps p .empty s t

theorem Shares.refl (p : Program) (s : State D) : Shares p s s := fun _ _ _ => rfl

theorem Stutters.refl (p : Program) (s : State D) : Stutters p s s :=
  ⟨.refl p s, fun _ _ => rfl⟩

/-- A way leads from a state to another. -/
def Goes (p : Program) : Option Transition → State D → State D → Prop
  | none => Stutters p
  | some r => Takes p r

theorem Goes.shares {way : Option Transition} {s t : State D} (h : Goes p way s t) :
    Shares p s t := by
  cases way with
  | none => exact Stutters.shares h
  | some r => exact Takes.shares h

theorem Stutters.same {s t : State D} (h : Stutters p s t) {x : Symbol} (hx : x ∈ p.symbols)
    (hDerived : x.isDerived = false) : s x.name = t x.name := by
  cases hMutable : x.isMutable with
  | false => exact h.shares x hx hMutable
  | true =>
    apply h.keeps
    rw [Encoding.kept, List.mem_filter]
    exact ⟨hx, by simp [hMutable, hDerived, NameSet.contains, NameSet.empty]⟩

/-! ## Runs -/

/-- A state is reached from an initial one in at most `n` steps, stutters
included. -/
inductive Reachable (p : Program) : Nat → State D → Prop
  | initial {n : Nat} {s : State D} : IsInitial p s → Reachable p n s
  | step {n : Nat} {s t : State D} {way : Option Transition} : Reachable p n s →
      way ∈ ways p → IsState p t → Goes p way s t → Reachable p (n + 1) t

theorem Reachable.state {n : Nat} {s : State D} (h : Reachable p n s) : IsState p s := by
  cases h with
  | initial h => exact h.state
  | step _ _ h _ => exact h

/-- A step is as its name says; the empty name allows any way. -/
def GoesBy (p : Program) (name : String) (s t : State D) : Prop :=
  if name = stutterName then Stutters p s t
  else if name = "" then ∃ way ∈ ways p, Goes p way s t
  else ∃ r, p.transition? name = some r ∧ Takes p r s t

/-- A sequence of states is a run whose steps have some names. -/
structure IsRun (p : Program) (names : List String) (σ : Nat → State D) : Prop where
  states : ∀ i ≤ names.length, IsState p (σ i)
  initial : p.initial.HoldsIn (σ 0)
  steps : ∀ i name, names[i]? = some name → GoesBy p name (σ i) (σ (i + 1))

theorem Program.mem_of_transition? {name : String} {r : Transition}
    (h : p.transition? name = some r) : r ∈ p.transitions :=
  List.mem_of_find?_eq_some h

theorem GoesBy.goes {name : String} {s t : State D} (h : GoesBy p name s t) :
    ∃ way ∈ ways p, Goes p way s t := by
  rw [GoesBy] at h
  split_ifs at h
  · exact ⟨none, by simp [ways], h⟩
  · exact h
  · obtain ⟨r, hr, h⟩ := h
    exact ⟨some r, by simp [ways, p.mem_of_transition? hr], h⟩

/-- **The states of a run are reached** in as many steps as lead there. -/
theorem IsRun.reachable {names : List String} {σ : Nat → State D} (h : IsRun p names σ) :
    ∀ i ≤ names.length, Reachable p i (σ i) := by
  intro i
  induction i with
  | zero => exact fun _ => .initial ⟨h.states 0 (Nat.zero_le _), h.initial⟩
  | succ i ih =>
    intro hi
    obtain ⟨name, hName⟩ : ∃ name, names[i]? = some name :=
      ⟨_, List.getElem?_eq_getElem (by omega)⟩
    obtain ⟨way, hWay, hGoes⟩ := (h.steps i name hName).goes
    exact .step (ih (by omega)) hWay (h.states (i + 1) hi) hGoes

/-! ## Courses of states -/

/-- States that follow one another from an initial state on. Each step takes a transition, or
changes nothing. -/
structure IsCourse (p : Program) (length : Nat) (σ : Nat → State D) : Prop where
  initial : IsInitial p (σ 0)
  steps : ∀ i < length, σ (i + 1) = σ i ∨
    IsState p (σ (i + 1)) ∧ ∃ r ∈ p.transitions, Takes p r (σ i) (σ (i + 1))

theorem IsCourse.holdsIn {length : Nat} {σ : Nat → State D} {f : Formula} (h : IsCourse p length σ)
    (hInitial : ∀ s : State D, IsInitial p s → f.HoldsIn s)
    (hStep : ∀ r ∈ p.transitions, ∀ s t : State D, IsState p s → IsState p t → f.HoldsIn s → Takes p
      r s t → f.HoldsIn t) : ∀ i ≤ length, IsState p (σ i) ∧ f.HoldsIn (σ i) := by
  intro i
  induction i with
  | zero => exact fun _ => ⟨h.initial.state, hInitial _ h.initial⟩
  | succ i ih =>
    intro hi
    obtain ⟨hState, hf⟩ := ih (by omega)
    rcases h.steps i (by omega) with hSame | ⟨hNext, r, hr, hTakes⟩
    · rw [hSame]
      exact ⟨hState, hf⟩
    · exact ⟨hNext, hStep r hr _ _ hState hNext hf hTakes⟩

end InvariantSearch
