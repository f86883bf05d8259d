import InvariantSearch.Proofs.Meaning.Diagram
import InvariantSearch.Proofs.Meaning.Program

/-!
# Literals of diagrams

A literal of a diagram applies a symbol to variables and constants, which stand for
elements. It may speak of an element of a wrong sort; such a literal holds nowhere.

* `Diagram.Apt` — a state, and values of variables that a diagram can speak of.
* `Diagram.Denotes` — a formula stands for an element, and elsewhere for one of its sort.
* `Diagram.Accurate` — a literal holds in a state, or nowhere.
-/

namespace InvariantSearch

open List Formula Valuation

variable {fs : List Formula}

/-! ## Values of variables -/

section Bound

variable {D : Domain} {xs : List Var} {P : Valuation D → Prop} {v : Valuation D}

theorem existsOf_of_bound {w : Valuation D}
    (hBound : ∀ x ∈ xs, ∃ a, w x.name = some (.element a) ∧ D.sort a = x.sort)
    (hFree : ∀ n, (∀ x ∈ xs, x.name ≠ n) → w n = v n) (hw : P w) : ExistsOf xs P v := by
  induction xs generalizing v with
  | nil =>
    obtain rfl : w = v := funext fun n => hFree n (by simp)
    exact hw
  | cons x xs ih =>
    obtain ⟨a, ha, hSort⟩ := hBound x mem_cons_self
    refine ⟨a, hSort, ih (fun y hy => hBound y (mem_cons_of_mem x hy)) fun n hn => ?_⟩
    by_cases hx : n = x.name
    · rw [hx, ha, bind_self]
    · rw [bind_of_ne _ _ hx]
      exact hFree n (forall_mem_cons.mpr ⟨Ne.symm hx, hn⟩)

theorem ExistsOf.exists_bound (h : ExistsOf xs P v)
    (hSorts : ∀ x ∈ xs, ∀ y ∈ xs, x.name = y.name → x.sort = y.sort) :
    ∃ w, (∀ x ∈ xs, ∃ a, w x.name = some (.element a) ∧ D.sort a = x.sort) ∧
      (∀ n, (∀ x ∈ xs, x.name ≠ n) → w n = v n) ∧ P w := by
  induction xs generalizing v with
  | nil => exact ⟨v, by simp, fun _ _ => rfl, h⟩
  | cons x xs ih =>
    obtain ⟨a, ha, h⟩ := h
    obtain ⟨w, hBound, hFree, hw⟩ := ih h fun y hy z hz =>
      hSorts y (mem_cons_of_mem x hy) z (mem_cons_of_mem x hz)
    refine ⟨w, forall_mem_cons.mpr ⟨?_, hBound⟩, fun n hn => ?_, hw⟩
    · by_cases hAgain : ∃ y ∈ xs, y.name = x.name
      · obtain ⟨y, hy, hName⟩ := hAgain
        obtain ⟨b, hb, hSort⟩ := hBound y hy
        rw [hSorts y (mem_cons_of_mem x hy) x mem_cons_self hName] at hSort
        exact ⟨b, hName ▸ hb, hSort⟩
      · refine ⟨a, ?_, ha⟩
        rw [hFree x.name fun y hy hName => hAgain ⟨y, hy, hName⟩, bind_self]
    · obtain ⟨hx, hxs⟩ := forall_mem_cons.mp hn
      rw [hFree n hxs, bind_of_ne _ _ (Ne.symm hx)]

end Bound

/-! ## Literals -/

namespace Diagram

/-- A state and values of some variables, of the right sorts. Symbols are used as they are
declared, and nothing else is a variable. -/
structure Apt (p : Program) (vars : List Var) {D : Domain} (s : State D) (v : Valuation D) :
    Prop where
  fits : ∀ x ∈ p.symbols, x.Fits s
  bound : ∀ x ∈ vars, ∃ a, v x.name = some (.element a) ∧ D.sort a = x.sort
  free : ∀ n, (∀ x ∈ vars, x.name ≠ n) → v n = none

/-- A formula stands for an element, and elsewhere for one of the same sort. -/
structure Denotes (p : Program) (vars : List Var) {D : Domain} (s : State D) (v : Valuation D)
    (f : Formula) (a : D.Element) : Prop where
  value : f.value (fun _ => s) 0 v = .element a
  sorted : ∀ {D' : Domain} {s' : State D'} {v' : Valuation D'}, Apt p vars s' v' →
    ∃ b, f.value (fun _ => s') 0 v' = .element b ∧ D'.sort b = D.sort a

/-- A formula holds for some values in a state, or it holds nowhere. -/
def Accurate (p : Program) (vars : List Var) {D : Domain} (s : State D) (v : Valuation D)
    (f : Formula) : Prop :=
  f.Holds (fun _ => s) 0 v ∨ ∀ {D' : Domain} {s' : State D'} {v' : Valuation D'},
    Apt p vars s' v' → ¬ f.Holds (fun _ => s') 0 v'

section Literals

variable {p : Program} {vars : List Var} {D D' : Domain} {s : State D} {v : Valuation D}
  {a : D.Element} {as : List D.Element} {s' : State D'} {v' : Valuation D'} {f : Formula}

theorem denotes_var {x : Var} (hx : x ∈ vars) (hValue : v x.name = some (.element a))
    (hSort : D.sort a = x.sort) : Denotes p vars s v (.id x.name) a := by
  refine ⟨by rw [value, hValue]; rfl, fun {D' s' v'} hApt => ?_⟩
  obtain ⟨b, hb, hSort'⟩ := hApt.bound x hx
  exact ⟨b, by rw [value, hb]; rfl, hSort'.trans hSort.symm⟩

theorem denotes_constant {k : Symbol} (hk : k ∈ p.symbols) (hArgs : k.args = [])
    (hResult : k.result ≠ boolSort) (hApt : Apt p vars s v) (hFree : ∀ x ∈ vars, x.name ≠ k.name)
    (hValue : s k.name [] = .element a) : Denotes p vars s v (.id k.name) a := by
  have hBare : ∀ {D' : Domain} {s' : State D'} {v' : Valuation D'}, Apt p vars s' v' →
      (Formula.id k.name).value (fun _ => s') 0 v' = s' k.name [] ∧
        D'.HasSort (s' k.name []) k.result := by
    intro D' s' v' hApt'
    refine ⟨by rw [Formula.value, hApt'.free _ hFree]; rfl, (hApt'.fits k hk []).1 ?_⟩
    rw [hArgs]
    exact .nil
  have hSort : D.sort a = k.result := by
    have hSort := (hBare hApt).2
    rwa [hValue] at hSort
  refine ⟨(hBare hApt).1.trans hValue, fun {D' s' v'} hApt' => ?_⟩
  obtain ⟨hEq, hSort'⟩ := hBare hApt'
  rw [hEq]
  cases hConstant : s' k.name [] with
  | truth q =>
    rw [hConstant] at hSort'
    exact absurd hSort' hResult
  | element b =>
    rw [hConstant] at hSort'
    exact ⟨b, rfl, hSort'.trans hSort.symm⟩

theorem Apt.value_apply (h : Apt p vars s v) {name : String} (hFree : ∀ x ∈ vars, x.name ≠ name)
    (fs : List Formula) : (apply name fs).value (fun _ => s) 0 v =
      s name (fs.map (value (fun _ => s) 0 v)) := by
  cases fs with
  | nil =>
    rw [apply, value, h.free name hFree]
    rfl
  | cons f fs =>
    rw [← values_eq_map]
    rfl

theorem map_value_of_denotes (h : Forall₂ (Denotes p vars s v) fs as) :
    fs.map (value (fun _ => s) 0 v) = as.map .element := by
  induction h with
  | nil => rfl
  | cons hHead _ ih => rw [map_cons, map_cons, hHead.value, ih]

theorem hasSort_iff_of_denotes (h : Forall₂ (Denotes p vars s v) fs as) (hApt : Apt p vars s' v')
    {sorts : List String} :
    Forall₂ D'.HasSort (fs.map (value (fun _ => s') 0 v')) sorts ↔
      Forall₂ D.HasSort (as.map .element) sorts := by
  induction h generalizing sorts with
  | nil => simp
  | cons hHead _ ih =>
    obtain ⟨b, hb, hSort⟩ := hHead.sorted hApt
    cases sorts with
    | nil => simp
    | cons sort sorts =>
      simp only [map_cons, forall₂_cons, ih, hb, Domain.HasSort, hSort]

section Application

variable {x : Symbol} (hx : x ∈ p.symbols) (hApt : Apt p vars s v)
  (hFree : ∀ y ∈ vars, y.name ≠ x.name) {fs : List Formula} {as : List D.Element}
  (hDenotes : Forall₂ (Denotes p vars s v) fs as)

include hx hFree hDenotes

theorem value_of_not_hasSort (hSorts : ¬ Forall₂ D.HasSort (as.map .element) x.args)
    (hApt' : Apt p vars s' v') : (apply x.name fs).value (fun _ => s') 0 v' = .truth False := by
  rw [hApt'.value_apply hFree]
  exact (hApt'.fits x hx _).2 fun h => hSorts ((hasSort_iff_of_denotes hDenotes hApt').mp h)

include hApt

theorem accurate_relation {b : Bool}
    (hEntry : Forall₂ D.HasSort (as.map .element) x.args →
      ((s x.name (as.map .element)).Holds ↔ b = true)) :
    Accurate p vars s v
      (if b then apply x.name fs else .not (apply x.name fs)) := by
  have hValue := hApt.value_apply hFree fs
  rw [map_value_of_denotes hDenotes] at hValue
  by_cases hSorts : Forall₂ D.HasSort (as.map .element) x.args
  · refine Or.inl ?_
    have hHolds : (apply x.name fs).Holds (fun _ => s) 0 v ↔ b = true := by
      rw [Holds, hValue]
      exact hEntry hSorts
    cases b with
    | true => exact hHolds.mpr rfl
    | false => exact holds_not.mpr fun h => by cases hHolds.mp h
  · have hNever : ∀ {D' : Domain} {s' : State D'} {v' : Valuation D'}, Apt p vars s' v' →
        ¬ (apply x.name fs).Holds (fun _ => s') 0 v' := by
      intro D' s' v' hApt'
      rw [Holds, value_of_not_hasSort hx hFree hDenotes hSorts hApt']
      exact id
    cases b with
    | true => exact Or.inr hNever
    | false => exact Or.inl (holds_not.mpr (hNever hApt))

theorem accurate_equation {c : D.Element} (hf : Denotes p vars s v f c)
    (hEntry : Forall₂ D.HasSort (as.map .element) x.args → ∃ d, s x.name (as.map .element) =
      .element d ∧ (D.sort c = D.sort d → c = d)) :
    Accurate p vars s v (.eq (apply x.name fs) f) := by
  have hValue := hApt.value_apply hFree fs
  rw [map_value_of_denotes hDenotes] at hValue
  by_cases hSorts : Forall₂ D.HasSort (as.map .element) x.args
  · obtain ⟨d, hd, hSame⟩ := hEntry hSorts
    have hResult : D.sort d = x.result := by
      have hResult := (hApt.fits x hx _).1 hSorts
      rwa [hd] at hResult
    by_cases hSort : D.sort c = D.sort d
    · refine Or.inl ?_
      rw [Holds, value, hValue, hd, hf.value, hSame hSort]
      exact rfl
    · refine Or.inr fun {D' s' v'} hApt' hHolds => hSort ?_
      obtain ⟨b, hb, hSort'⟩ := hf.sorted hApt'
      have hResult' := (hApt'.fits x hx _).1 ((hasSort_iff_of_denotes hDenotes hApt').mpr hSorts)
      rw [Holds, value, hApt'.value_apply hFree, hb] at hHolds
      have hEq : s' x.name (fs.map (value (fun _ => s') 0 v')) = .element b := hHolds
      rw [hEq] at hResult'
      exact (hSort'.symm.trans hResult').trans hResult.symm
  · refine Or.inr fun {D' s' v'} hApt' hHolds => ?_
    obtain ⟨b, hb, -⟩ := hf.sorted hApt'
    rw [Holds, value,
      value_of_not_hasSort hx hFree hDenotes hSorts hApt', hb] at hHolds
    have hEq : (Value.truth False : Value D'.Element) = .element b := hHolds
    cases hEq

end Application

theorem accurate_distinct {g : Formula} {b : D.Element} (hf : Denotes p vars s v f a)
    (hg : Denotes p vars s v g b) (hNe : a ≠ b) : Accurate p vars s v (.ne f g) := by
  refine Or.inl ?_
  rw [Holds, value, hf.value, hg.value]
  exact fun hEq => hNe (Value.element.inj hEq)

end Literals

end Diagram

end InvariantSearch
