import InvariantSearch.Proofs.Meaning.Program

/-!
# The meaning of traces

A trace shows a structure and a sequence of states.

* `Trace.domain` — the elements that its universes list, each known by its sort
  and its name. Elements of different sorts may share a name.
* `Trace.meaning` — what every symbol of a program means in a state of a trace.
* `Trace.IsRunOf` — a trace is a run of a program, by the steps that it names.
-/

namespace InvariantSearch

namespace Trace

variable {t : Trace}

/-- A name is listed for a sort. -/
def HasElement (t : Trace) (sort name : String) : Prop :=
  sort ≠ boolSort ∧ ∃ names, t.elements sort = .ok names ∧ name ∈ names

/-- The elements that a trace lists. -/
def domain (t : Trace) : Domain where
  Element := { x : String × String // t.HasElement x.1 x.2 }
  sort x := x.1.1
  sort_ne_bool x := x.2.1

/-- The name by which a value is an argument. -/
def label : Value t.domain.Element → String
  | .truth _ => ""
  | .element x => x.1.2

open Classical in
/-- The element of a sort that has a name. -/
noncomputable def elementOf (t : Trace) (sort name : String) : Value t.domain.Element :=
  if h : t.HasElement sort name then .element ⟨(sort, name), h⟩ else .truth False

/-- The value that a trace writes for a symbol. -/
noncomputable def valueOf (t : Trace) (x : Symbol) (value : String) : Value t.domain.Element :=
  if x.isRelation then .truth (value = "true") else t.elementOf x.result value

open Classical in
/-- What every symbol of a program means in a state of a trace. -/
noncomputable def meaning (t : Trace) (p : Program) (index : Nat) : State t.domain :=
  fun name args =>
    match p.symbol? name with
    | none => .truth False
    | some x =>
      if List.Forall₂ t.domain.HasSort args x.args then
        match t.eval name (args.map label) index with
        | .ok value => t.valueOf x value
        | .error _ => .truth False
      else .truth False

/-- A trace is a run of a program: it has a name for every step, and goes as the names say. -/
structure IsRunOf (p : Program) (t : Trace) : Prop where
  length : t.states.length = t.transitions.length + 1
  named : "" ∉ t.transitions
  inhabits : t.domain.Inhabits p
  run : IsRun p t.transitions (t.meaning p)

theorem elementOf_eq {sort name : String} (h : t.HasElement sort name) :
    t.elementOf sort name = .element ⟨(sort, name), h⟩ := dif_pos h

theorem meaning_of_forall₂ {p : Program} {x : Symbol} (hx : p.symbol? x.name = some x)
    {index : Nat} {args : List (Value t.domain.Element)}
    (hArgs : List.Forall₂ t.domain.HasSort args x.args) {value : String}
    (hValue : t.eval x.name (args.map label) index = .ok value) :
    t.meaning p index x.name args = t.valueOf x value := by
  simp only [meaning, hx, if_pos hArgs, hValue]

theorem meaning_of_not_forall₂ {p : Program} {x : Symbol} (hx : p.symbol? x.name = some x)
    {index : Nat} {args : List (Value t.domain.Element)}
    (hArgs : ¬ List.Forall₂ t.domain.HasSort args x.args) :
    t.meaning p index x.name args = .truth False := by
  simp only [meaning, hx, if_neg hArgs]

/-! ## Looking values up -/

theorem valueIn?_eq_some {symbol : String} {args : List String} {s : TraceState} {value : String}
    (hSome : ∃ i ∈ s, i.symbol = symbol)
    (h : ∀ i ∈ s, i.symbol = symbol → i.value? args = some value) :
    valueIn? symbol args s = some value := by
  induction s with
  | nil =>
    obtain ⟨i, hi, -⟩ := hSome
    cases hi
  | cons i s ih =>
    rw [valueIn?, List.findSome?_cons]
    by_cases hi : i.symbol = symbol
    · rw [if_pos hi, h i List.mem_cons_self hi]
    · rw [if_neg hi]
      refine ih ?_ fun j hj => h j (List.mem_cons_of_mem i hj)
      obtain ⟨j, hj, hSymbol⟩ := hSome
      rcases List.mem_cons.mp hj with rfl | hj
      · exact absurd hSymbol hi
      · exact ⟨j, hj, hSymbol⟩

theorem valueIn?_eq_none {symbol : String} {args : List String} {s : TraceState}
    (h : ∀ i ∈ s, i.symbol ≠ symbol) : valueIn? symbol args s = none := by
  rw [valueIn?, List.findSome?_eq_none_iff]
  intro i hi
  rw [if_neg (h i hi)]

end Trace

end InvariantSearch
