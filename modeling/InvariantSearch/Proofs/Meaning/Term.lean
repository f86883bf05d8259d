import InvariantSearch.Solver.Model
import Mathlib.Tactic.Basic

/-!
# The meaning of solver terms

A term has a value wherever its sorts and symbols have a meaning.

* `SolverStructure` — a meaning of all sorts and symbols, finite or not.
* `SolverStructure.value` — the value of a term. A binding says what bound
  constants stand for, and all other symbols have the values that the structure
  gives them.
* `SolverModel.value` — the same for a model, which lists what there is. All of it
  can be computed, so that a model can be tried on the terms that were asserted.

Main result: `SolverModel.toStructure_value` says that the two agree.
-/

namespace InvariantSearch

open Term

variable {cs : List SolverConst} {P : Binding → Bool}

/-- A meaning of all sorts and symbols. -/
structure SolverStructure where
  /-- Elements and truth values. -/
  Value : Type
  truth : Bool → Value
  /-- What a member of a universe stands for, by its number. -/
  element : SolverSort → Nat → Value
  /-- What a constant of a sort can stand for. -/
  Member : SolverSort → Value → Prop
  apply : SolverSymbol → List Value → Value
  truth_ne : truth true ≠ truth false

namespace SolverStructure

variable {p : Prop} {ts : List Term} {cs : List SolverConst}

/-- What bound constants stand for, innermost first. -/
abbrev Binding (M : SolverStructure) := List (SolverSymbol × M.Value)

open Classical in
/-- The truth value of a proposition. -/
noncomputable def truthOf (M : SolverStructure) (p : Prop) : M.Value := M.truth (decide p)

/-- A condition holds for all values of some constants. -/
def ForAllOf (M : SolverStructure) : List SolverConst → (M.Binding → Prop) → M.Binding → Prop
  | [], P, b => P b
  | c :: cs, P, b => ∀ x, M.Member c.sort x → M.ForAllOf cs P ((c.symbol, x) :: b)

/-- A condition holds for some values of some constants. -/
def ExistsOf (M : SolverStructure) : List SolverConst → (M.Binding → Prop) → M.Binding → Prop
  | [], P, b => P b
  | c :: cs, P, b => ∃ x, M.Member c.sort x ∧ M.ExistsOf cs P ((c.symbol, x) :: b)

mutual

/-- The value of a term. -/
noncomputable def value (M : SolverStructure) (b : M.Binding) : Term → M.Value
  | .bool value => M.truth value
  | .element sort index => M.element sort index
  | .app f args =>
    match b.lookup f with
    | some x => x
    | none => M.apply f (M.values b args)
  | .not a => M.truthOf (M.value b a ≠ M.truth true)
  | .and parts => M.truthOf (∀ x ∈ M.values b parts, x = M.truth true)
  | .or parts => M.truthOf (∃ x ∈ M.values b parts, x = M.truth true)
  | .imp a c => M.truthOf (M.value b a = M.truth true → M.value b c = M.truth true)
  | .iff a c => M.truthOf (M.value b a = M.truth true ↔ M.value b c = M.truth true)
  | .eq a c => M.truthOf (M.value b a = M.value b c)
  | .ite a c d =>
    have := Classical.propDecidable (M.value b a = M.truth true)
    if M.value b a = M.truth true then M.value b c else M.value b d
  | .all consts a => M.truthOf (M.ForAllOf consts (fun b => M.value b a = M.truth true) b)
  | .ex consts a => M.truthOf (M.ExistsOf consts (fun b => M.value b a = M.truth true) b)

/-- The values of several terms, in order. -/
noncomputable def values (M : SolverStructure) (b : M.Binding) : List Term → List M.Value
  | [] => []
  | t :: ts => M.value b t :: M.values b ts

end

/-- A term is true in a structure. -/
def Satisfies (M : SolverStructure) (t : Term) : Prop := M.value [] t = M.truth true

/-- A value is one of the truth values. -/
def IsTruth (M : SolverStructure) (x : M.Value) : Prop := ∃ y, x = M.truth y

variable {M : SolverStructure} {b : M.Binding}

@[simp] theorem truth_eq_true {x : Bool} : M.truth x = M.truth true ↔ x = true := by
  cases x <;> simp [M.truth_ne.symm]

@[simp] theorem truthOf_eq_true : M.truthOf p = M.truth true ↔ p := by
  simp [truthOf]

theorem truthOf_congr {q : Prop} (h : p ↔ q) : M.truthOf p = M.truthOf q := by
  rw [propext h]

theorem iff_of_truthOf_eq {q : Prop} (h : M.truthOf p = M.truthOf q) : p ↔ q :=
  calc p ↔ M.truthOf p = M.truth true := truthOf_eq_true.symm
    _ ↔ M.truthOf q = M.truth true := by rw [h]
    _ ↔ q := truthOf_eq_true

theorem IsTruth.eq_truthOf {x : M.Value} (hx : M.IsTruth x) (h : x = M.truth true ↔ p) :
    x = M.truthOf p := by
  obtain ⟨y, rfl⟩ := hx
  rw [← truthOf_congr h]
  cases y <;> simp [truthOf]

theorem values_eq_map (ts : List Term) : M.values b ts = ts.map (M.value b) := by
  induction ts with
  | nil => rfl
  | cons t ts ih => rw [values, ih, List.map_cons]

theorem not_forAllOf_iff {P : M.Binding → Prop} :
    ¬ M.ForAllOf cs P b ↔ M.ExistsOf cs (fun b => ¬ P b) b := by
  induction cs generalizing b with
  | nil => exact Iff.rfl
  | cons c cs ih => simp [ForAllOf, ExistsOf, ih]

/-! ## Built terms -/

theorem value_conj_eq_true :
    M.value b (conj ts) = M.truth true ↔ ∀ t ∈ ts, M.value b t = M.truth true := by
  match ts with
  | [] => simp [conj, value]
  | [t] => simp [conj]
  | t :: u :: ts => simp [conj, value, values_eq_map]

theorem value_disj_eq_true :
    M.value b (disj ts) = M.truth true ↔ ∃ t ∈ ts, M.value b t = M.truth true := by
  match ts with
  | [] => simp [disj, value]
  | [t] => simp [disj]
  | t :: u :: ts => simp [disj, value, values_eq_map, eq_comm (a := M.truth true)]

theorem isTruth_conj (h : ∀ t ∈ ts, M.IsTruth (M.value b t)) :
    M.IsTruth (M.value b (conj ts)) := by
  match ts with
  | [] => exact ⟨_, rfl⟩
  | [t] => exact h t (List.mem_singleton_self t)
  | t :: u :: ts => exact ⟨_, rfl⟩

theorem isTruth_disj (h : ∀ t ∈ ts, M.IsTruth (M.value b t)) :
    M.IsTruth (M.value b (disj ts)) := by
  match ts with
  | [] => exact ⟨_, rfl⟩
  | [t] => exact h t (List.mem_singleton_self t)
  | t :: u :: ts => exact ⟨_, rfl⟩

theorem value_forAll_eq_true {t : Term} :
    M.value b (forAll cs t) = M.truth true ↔
      M.ForAllOf cs (fun b => M.value b t = M.truth true) b := by
  cases cs <;> simp [forAll, ForAllOf, value]

theorem value_thereIs_eq_true {t : Term} :
    M.value b (thereIs cs t) = M.truth true ↔
      M.ExistsOf cs (fun b => M.value b t = M.truth true) b := by
  cases cs <;> simp [thereIs, ExistsOf, value]

end SolverStructure

/-! ## Models -/

/-- What bound constants stand for in a model, innermost first. -/
abbrev Binding := List (SolverSymbol × Term)

namespace SolverModel

/-- What a constant of a sort can stand for. -/
def members (m : SolverModel) : SolverSort → List Term
  | .bool => [.bool false, .bool true]
  | .named name => m.elements (.named name)

/-- The value of a symbol. An application without a value is left as it is. -/
def apply (m : SolverModel) (f : SolverSymbol) (args : List Term) : Term :=
  match m.evaluate f args with
  | .ok t => t
  | .error _ => .app f args

/-- A condition holds for all values of some constants. -/
def forAllOf (m : SolverModel) : List SolverConst → (Binding → Bool) → Binding → Bool
  | [], P, b => P b
  | c :: cs, P, b => (m.members c.sort).all fun t => m.forAllOf cs P ((c.symbol, t) :: b)

/-- A condition holds for some values of some constants. -/
def existsOf (m : SolverModel) : List SolverConst → (Binding → Bool) → Binding → Bool
  | [], P, b => P b
  | c :: cs, P, b => (m.members c.sort).any fun t => m.existsOf cs P ((c.symbol, t) :: b)

mutual

/-- The value of a term in a model. -/
def value (m : SolverModel) (b : Binding) : Term → Term
  | .bool value => .bool value
  | .element sort index => .element sort index
  | .app f args =>
    match b.lookup f with
    | some t => t
    | none => m.apply f (m.values b args)
  | .not a => .bool (m.value b a ≠ .bool true)
  | .and parts => .bool ((m.values b parts).all (· = .bool true))
  | .or parts => .bool ((m.values b parts).any (· = .bool true))
  | .imp a c => .bool (m.value b a = .bool true → m.value b c = .bool true)
  | .iff a c => .bool (m.value b a = .bool true ↔ m.value b c = .bool true)
  | .eq a c => .bool (m.value b a = m.value b c)
  | .ite a c d => if m.value b a = .bool true then m.value b c else m.value b d
  | .all consts a => .bool (m.forAllOf consts (fun b => m.value b a = .bool true) b)
  | .ex consts a => .bool (m.existsOf consts (fun b => m.value b a = .bool true) b)

/-- The values of several terms, in order. -/
def values (m : SolverModel) (b : Binding) : List Term → List Term
  | [] => []
  | t :: ts => m.value b t :: m.values b ts

end

/-- A term is true in a model. -/
def Satisfies (m : SolverModel) (t : Term) : Prop := m.value [] t = .bool true

instance (m : SolverModel) (t : Term) : Decidable (m.Satisfies t) :=
  inferInstanceAs (Decidable (m.value [] t = .bool true))

/-- What a model says of sorts and symbols. -/
abbrev toStructure (m : SolverModel) : SolverStructure where
  Value := Term
  truth := .bool
  element := .element
  Member sort t := t ∈ m.members sort
  apply := m.apply
  truth_ne := by simp

variable {m : SolverModel}

theorem forAllOf_iff {b : Binding} :
    m.toStructure.ForAllOf cs (fun b => P b = true) b ↔ m.forAllOf cs P b = true := by
  induction cs generalizing b with
  | nil => exact Iff.rfl
  | cons c cs ih => simp [SolverStructure.ForAllOf, forAllOf, ih]

theorem existsOf_iff {b : Binding} :
    m.toStructure.ExistsOf cs (fun b => P b = true) b ↔ m.existsOf cs P b = true := by
  induction cs generalizing b with
  | nil => exact Iff.rfl
  | cons c cs ih => simp [SolverStructure.ExistsOf, existsOf, ih]

theorem truthOf_toStructure {p : Prop} {x : Bool} (h : p ↔ x = true) :
    m.toStructure.truthOf p = .bool x := by
  rw [SolverStructure.truthOf_congr h]
  cases x <;> simp [SolverStructure.truthOf]

mutual

/-- **A model gives terms the values that they have in its structure.** -/
theorem toStructure_value : ∀ (t : Term) (b : Binding), m.toStructure.value b t = m.value b t
  | .bool _, _ => rfl
  | .element _ _, _ => rfl
  | .app f args, b => by
    rw [SolverStructure.value, value, toStructure_values args b]
    cases List.lookup f b <;> rfl
  | .not a, b => by
    rw [SolverStructure.value, value, toStructure_value a b]
    exact truthOf_toStructure (by simp)
  | .and parts, b | .or parts, b => by
    rw [SolverStructure.value, value, toStructure_values parts b]
    exact truthOf_toStructure (by simp)
  | .imp a c, b => by
    rw [SolverStructure.value, value, toStructure_value a b, toStructure_value c b]
    exact truthOf_toStructure decide_eq_true_iff.symm
  | .iff a c, b | .eq a c, b => by
    rw [SolverStructure.value, value, toStructure_value a b, toStructure_value c b]
    exact truthOf_toStructure (by simp)
  | .ite a c d, b => by
    rw [SolverStructure.value, value, toStructure_value a b, toStructure_value c b,
      toStructure_value d b]
    split <;> rfl
  | .all consts a, b => by
    rw [SolverStructure.value, value]
    refine truthOf_toStructure (Iff.trans ?_ forAllOf_iff)
    simp only [toStructure_value a, decide_eq_true_iff]
  | .ex consts a, b => by
    rw [SolverStructure.value, value]
    refine truthOf_toStructure (Iff.trans ?_ existsOf_iff)
    simp only [toStructure_value a, decide_eq_true_iff]

theorem toStructure_values : ∀ (ts : List Term) (b : Binding),
    m.toStructure.values b ts = m.values b ts
  | [], _ => rfl
  | t :: ts, b => by
    rw [SolverStructure.values, values, toStructure_value t b, toStructure_values ts b]

end

theorem toStructure_satisfies {t : Term} : m.toStructure.Satisfies t ↔ m.Satisfies t := by
  rw [SolverStructure.Satisfies, toStructure_value, Satisfies]

end SolverModel

end InvariantSearch
