import InvariantSearch.Proofs.Program.Declared

/-!
# The rules of sorts

`Program.Types` gives sorts to formulas and terms by one rule for each way to build them. What the
checker accepts follows the rules (`types_of_sortOf`), so facts about checked formulas are proved by
induction on the rules, without the checker's order of work and its messages.
-/

namespace InvariantSearch

open List

variable {fs : List Formula}

namespace Program

variable {p : Program} {context : FormulaContext} {scope : Scope} {underNew : Bool}
  {whole : Formula}

/-- A formula or term has a sort in a scope, by rules. -/
inductive Types (p : Program) (context : FormulaContext) : Scope → Bool → Formula → String → Prop
  | bool {scope : Scope} {underNew : Bool} (value : Bool) :
      Types p context scope underNew (.bool value) boolSort
  | bound {scope : Scope} {underNew : Bool} {x sort : String} (hx : scope.sort? x = some sort) :
      Types p context scope underNew (.id x) sort
  | constant {scope : Scope} {underNew : Bool} {x : String} {y : Symbol}
      (hx : scope.sort? x = none) (hy : p.symbol? x = some y) (hArgs : y.args = [])
      (hMention : checkMention context y = .ok ()) :
      Types p context scope underNew (.id x) y.result
  | app {scope : Scope} {underNew : Bool} {x : String} {y : Symbol} {args : List Formula}
      (hy : p.symbol? x = some y) (hArity : args.length = y.args.length)
      (hMention : checkMention context y = .ok ())
      (hArgs : ∀ a sort, (a, sort) ∈ args.zip y.args → Types p context scope underNew a sort) :
      Types p context scope underNew (.app x args) y.result
  | not {scope : Scope} {underNew : Bool} {a : Formula}
      (ha : Types p context scope underNew a boolSort) :
      Types p context scope underNew (.not a) boolSort
  | and {scope : Scope} {underNew : Bool} {parts : List Formula}
      (h : ∀ a ∈ parts, Types p context scope underNew a boolSort) :
      Types p context scope underNew (.and parts) boolSort
  | or {scope : Scope} {underNew : Bool} {parts : List Formula}
      (h : ∀ a ∈ parts, Types p context scope underNew a boolSort) :
      Types p context scope underNew (.or parts) boolSort
  | imp {scope : Scope} {underNew : Bool} {a b : Formula}
      (ha : Types p context scope underNew a boolSort)
      (hb : Types p context scope underNew b boolSort) :
      Types p context scope underNew (.imp a b) boolSort
  | iff {scope : Scope} {underNew : Bool} {a b : Formula}
      (ha : Types p context scope underNew a boolSort)
      (hb : Types p context scope underNew b boolSort) :
      Types p context scope underNew (.iff a b) boolSort
  | eq {scope : Scope} {underNew : Bool} {a b : Formula} {sort : String}
      (ha : Types p context scope underNew a sort) (hb : Types p context scope underNew b sort) :
      Types p context scope underNew (.eq a b) boolSort
  | ne {scope : Scope} {underNew : Bool} {a b : Formula} {sort : String}
      (ha : Types p context scope underNew a sort) (hb : Types p context scope underNew b sort) :
      Types p context scope underNew (.ne a b) boolSort
  | ite {scope : Scope} {underNew : Bool} {a b c : Formula} {sort : String}
      (ha : Types p context scope underNew a boolSort)
      (hb : Types p context scope underNew b sort) (hc : Types p context scope underNew c sort) :
      Types p context scope underNew (.ite a b c) sort
  | all {scope : Scope} {underNew : Bool} {vars : List Var} {a : Formula}
      (hBinder : p.checkBinder (.all vars a) vars [] = .ok ())
      (ha : Types p context (vars ++ scope) underNew a boolSort) :
      Types p context scope underNew (.all vars a) boolSort
  | ex {scope : Scope} {underNew : Bool} {vars : List Var} {a : Formula}
      (hBinder : p.checkBinder (.ex vars a) vars [] = .ok ())
      (ha : Types p context (vars ++ scope) underNew a boolSort) :
      Types p context scope underNew (.ex vars a) boolSort
  | new {scope : Scope} {a : Formula} {sort : String} (hContext : context = .twoState)
      (ha : Types p context scope true a sort) : Types p context scope false (.new a) sort

theorem sortOf_of_checkFormulas (h : p.checkFormulas context scope underNew fs = .ok ()) :
    ∀ f ∈ fs, p.sortOf context scope underNew f = .ok boolSort := by
  induction fs with
  | nil => simp
  | cons f fs ih =>
    simp only [checkFormulas, bind_eq_ok] at h
    obtain ⟨sort, hf, _, hBool, hRest⟩ := h
    exact forall_mem_cons.mpr ⟨expectBool_eq_ok hBool ▸ hf, ih hRest⟩

theorem sortOf_of_checkArguments {sorts : List String} {position : Nat}
    (h : p.checkArguments context scope underNew whole position fs sorts = .ok ()) :
    ∀ a sort, (a, sort) ∈ fs.zip sorts → p.sortOf context scope underNew a = .ok sort := by
  induction fs generalizing sorts position with
  | nil => simp
  | cons f fs ih =>
    cases sorts with
    | nil => simp
    | cons expected sorts =>
      simp only [checkArguments, bind_eq_ok] at h
      obtain ⟨sort, hf, _, hSort, hRest⟩ := h
      intro a sort' hPair
      rcases mem_cons.mp hPair with hEq | hPair
      · cases hEq
        exact checkArgument_eq_ok hSort ▸ hf
      · exact ih hRest a sort' hPair

/-- **The checker follows the rules.** -/
theorem types_of_sortOf {scope : Scope} {underNew : Bool} {sort : String} (f : Formula)
    (h : p.sortOf context scope underNew f = .ok sort) :
    p.Types context scope underNew f sort := by
  match f with
  | .bool value =>
    cases (by simpa only [sortOf] using h : Except.ok boolSort = .ok sort)
    exact .bool value
  | .id x =>
    rw [sortOf] at h
    split at h
    · rename_i hx
      cases h
      exact .bound hx
    · rename_i hx
      split at h
      · cases h
      · rename_i y hy
        simp only [guard_eq_ok, bind_eq_ok, pure_eq_ok, not_not] at h
        obtain ⟨hArity, _, hMention, rfl⟩ := h
        exact .constant hx hy (length_eq_zero_iff.mp hArity) hMention
  | .app x args =>
    rw [sortOf] at h
    split at h
    · cases h
    split at h
    · cases h
    rename_i y hy
    simp only [guard_eq_ok, bind_eq_ok, pure_eq_ok, not_not] at h
    obtain ⟨hArity, _, hMention, _, hArguments, rfl⟩ := h
    refine .app hy hArity.symm hMention fun a sort hPair => ?_
    have hMem : a ∈ args := (of_mem_zip hPair).1
    exact types_of_sortOf a (sortOf_of_checkArguments hArguments a sort hPair)
  | .not a =>
    simp only [sortOf, bind_eq_ok, pure_eq_ok] at h
    obtain ⟨_, ha, _, hBool, rfl⟩ := h
    obtain rfl := expectBool_eq_ok hBool
    exact .not (types_of_sortOf a ha)
  | .and parts | .or parts =>
    simp only [sortOf, bind_eq_ok, pure_eq_ok] at h
    obtain ⟨_, hParts, rfl⟩ := h
    constructor
    exact fun a ha => types_of_sortOf a (sortOf_of_checkFormulas hParts a ha)
  | .imp a b | .iff a b =>
    simp only [sortOf, bind_eq_ok, pure_eq_ok] at h
    obtain ⟨_, ha, _, hBoolA, _, hb, _, hBoolB, rfl⟩ := h
    obtain rfl := expectBool_eq_ok hBoolA
    obtain rfl := expectBool_eq_ok hBoolB
    constructor
    · exact types_of_sortOf a ha
    · exact types_of_sortOf b hb
  | .eq a b | .ne a b =>
    simp only [sortOf, guard_eq_ok, bind_eq_ok, pure_eq_ok, not_not] at h
    obtain ⟨_, ha, _, hb, rfl, rfl⟩ := h
    constructor
    · exact types_of_sortOf a ha
    · exact types_of_sortOf b hb
  | .ite a b c =>
    simp only [sortOf, guard_eq_ok, bind_eq_ok, pure_eq_ok, not_not] at h
    obtain ⟨_, ha, _, hBool, _, hb, _, hc, rfl, rfl⟩ := h
    obtain rfl := expectBool_eq_ok hBool
    exact .ite (types_of_sortOf a ha) (types_of_sortOf b hb) (types_of_sortOf c hc)
  | .all vars a | .ex vars a =>
    simp only [sortOf, guard_eq_ok, bind_eq_ok, pure_eq_ok, not_not] at h
    obtain ⟨_, hBinder, _, ha, rfl, rfl⟩ := h
    constructor
    · exact hBinder
    · exact types_of_sortOf a ha
  | .new a =>
    simp only [sortOf, guard_eq_ok, not_not, Bool.not_eq_true] at h
    obtain ⟨hContext, rfl, ha⟩ := h
    exact .new hContext (types_of_sortOf a ha)

theorem exists_of_sort? {name sort : String} (h : scope.sort? name = some sort) :
    ∃ v ∈ scope, v.name = name := by
  obtain ⟨v, hv, -⟩ := Option.map_eq_some_iff.mp h
  exact ⟨v, mem_of_find?_eq_some hv, by simpa using find?_some hv⟩

theorem exists_mem_zip_of_mem {sorts : List String} (hLength : fs.length = sorts.length)
    {f : Formula} (hf : f ∈ fs) : ∃ sort, (f, sort) ∈ fs.zip sorts := by
  rw [← map_fst_zip (Nat.le_of_eq hLength)] at hf
  obtain ⟨pair, hPair, rfl⟩ := mem_map.mp hf
  exact ⟨pair.2, hPair⟩

end Program

end InvariantSearch
