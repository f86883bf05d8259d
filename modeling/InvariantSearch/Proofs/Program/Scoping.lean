import InvariantSearch.Proofs.Meaning.Names
import InvariantSearch.Proofs.Program.Declared

/-!
# Sorts and scopes

The sort of a formula depends on a scope through the names it uses only (`sortOf_congr_scope`), so
a binder may be cut down to the variables that its body uses.

The other lemmas turn the account of a binder round (`checkBinder_of_binds`) and say how
formulas that fit are put together.
-/

namespace InvariantSearch

open Formula

open List hiding isEmpty_iff

variable {vars : List Var} {whole b : Formula} {sort : String}

namespace Program

variable {fs : List Formula} {name : String} {a f : Formula} {p : Program}
  {context : FormulaContext} {scope scope' : Scope} {underNew : Bool}

theorem sort?_append (scope scope' : Scope) (name : String) :
    Scope.sort? (scope ++ scope') name = (scope.sort? name).or (scope'.sort? name) := by
  rw [Scope.sort?, find?_append, Option.map_or]
  rfl

theorem sort?_isSome_iff : (scope.sort? name).isSome = true ↔ name ∈ scope.map Var.name := by
  rw [Scope.sort?, Option.isSome_map, find?_isSome, mem_map]
  simp

theorem sort?_of_mem {x : Var} (hNames : (scope.map Var.name).Nodup) (hx : x ∈ scope) :
    scope.sort? x.name = some x.sort := by
  rw [Scope.sort?, find?_of_nodup hNames hx, Option.map_some]

theorem sort?_eq_none (h : ∀ x ∈ scope, x.name ≠ name) : scope.sort? name = none := by
  rw [Scope.sort?, find?_eq_none.mpr fun x hx => by simpa using h x hx, Option.map_none]

theorem sort?_of_sublist (hSublist : scope.Sublist scope') (hNames : (scope'.map Var.name).Nodup)
    (hKept : ∀ x ∈ scope', x.name = name → x ∈ scope) : scope.sort? name = scope'.sort? name := by
  by_cases hSome : ∃ x ∈ scope', x.name = name
  · obtain ⟨x, hx, rfl⟩ := hSome
    rw [sort?_of_mem hNames hx, sort?_of_mem (hNames.sublist (hSublist.map _)) (hKept x hx rfl)]
  · have hNone : ∀ x ∈ scope', x.name ≠ name := fun x hx hName => hSome ⟨x, hx, hName⟩
    rw [sort?_eq_none hNone, sort?_eq_none fun x hx => hNone x (hSublist.subset hx)]

/-- Scopes that agree on the names a quantified formula uses agree on those its body does. -/
theorem sort?_under (h : ∀ n, a.Uses (vars.map Var.name ++ []) n → scope.sort? n = scope'.sort? n) :
    ∀ n, a.Uses [] n → Scope.sort? (vars ++ scope) n = Scope.sort? (vars ++ scope') n := by
  intro n hUses
  rw [sort?_append, sort?_append]
  by_cases hBound : n ∈ vars.map Var.name
  · obtain ⟨sort, hSort⟩ := Option.isSome_iff_exists.mp (sort?_isSome_iff.mpr hBound)
    rw [hSort, Option.some_or, Option.some_or]
  · rw [h n (hUses.of_hidden fun hIn => absurd hIn (by simpa using hBound))]

mutual

/-- **The sort of a formula depends on the names it uses.** -/
theorem sortOf_congr_scope : ∀ (f : Formula) {scope scope' : Scope} {underNew : Bool},
    (∀ n, f.Uses [] n → scope.sort? n = scope'.sort? n) →
      p.sortOf context scope underNew f = p.sortOf context scope' underNew f
  | .bool _, _, _, _, _ => by rw [sortOf, sortOf]
  | .id name, _, _, _, h => by
    rw [sortOf, sortOf, h name ⟨rfl, not_mem_nil⟩]
  | .app name args, _, _, _, h => by
    rw [sortOf, sortOf, h name (.inl rfl)]
    simp only [checkArguments_congr_scope args fun n hn => h n (.inr hn)]
  | .not a, _, _, _, h => by rw [sortOf, sortOf, sortOf_congr_scope a h]
  | .and parts, _, _, _, h | .or parts, _, _, _, h => by
    rw [sortOf, sortOf, checkFormulas_congr_scope parts h]
  | .imp a b, _, _, _, h | .iff a b, _, _, _, h | .eq a b, _, _, _, h | .ne a b, _, _, _, h => by
    rw [sortOf, sortOf, sortOf_congr_scope a fun n hn => h n (.inl hn)]
    simp only [sortOf_congr_scope b fun n hn => h n (.inr hn)]
  | .ite a b c, _, _, _, h => by
    rw [sortOf, sortOf, sortOf_congr_scope a fun n hn => h n (.inl hn)]
    simp only [sortOf_congr_scope b fun n hn => h n (.inr (.inl hn)),
      sortOf_congr_scope c fun n hn => h n (.inr (.inr hn))]
  | .all vars a, _, _, _, h | .ex vars a, _, _, _, h => by
    rw [sortOf, sortOf]
    simp only [sortOf_congr_scope a (sort?_under fun n hn => h n hn)]
  | .new a, _, _, _, h => by rw [sortOf, sortOf, sortOf_congr_scope a h]

theorem checkFormulas_congr_scope : ∀ (fs : List Formula) {scope scope' : Scope} {underNew : Bool},
    (∀ n, Formula.UsesAny [] n fs → scope.sort? n = scope'.sort? n) →
      p.checkFormulas context scope underNew fs = p.checkFormulas context scope' underNew fs
  | [], _, _, _, _ => by rw [checkFormulas, checkFormulas]
  | f :: fs, _, _, _, h => by
    rw [checkFormulas, checkFormulas, sortOf_congr_scope f fun n hn => h n (.inl hn)]
    simp only [checkFormulas_congr_scope fs fun n hn => h n (.inr hn)]

theorem checkArguments_congr_scope : ∀ (fs : List Formula) {scope scope' : Scope}
    {underNew : Bool} {whole : Formula} {position : Nat} {sorts : List String},
    (∀ n, Formula.UsesAny [] n fs → scope.sort? n = scope'.sort? n) →
      p.checkArguments context scope underNew whole position fs sorts =
        p.checkArguments context scope' underNew whole position fs sorts
  | [], _, _, _, _, _, _, _ => by simp only [checkArguments]
  | _ :: _, _, _, _, _, _, [], _ => by simp only [checkArguments]
  | f :: fs, _, _, _, _, _, _ :: _, h => by
    rw [checkArguments, checkArguments, sortOf_congr_scope f fun n hn => h n (.inl hn)]
    simp only [checkArguments_congr_scope fs fun n hn => h n (.inr hn)]

end

/-! ## Putting formulas together -/

theorem checkFormulas_of_forall (h : ∀ f ∈ fs, p.sortOf context scope underNew f = .ok boolSort) :
    p.checkFormulas context scope underNew fs = .ok () := by
  induction fs with
  | nil => rw [checkFormulas]
  | cons f fs ih =>
    rw [forall_mem_cons] at h
    rw [checkFormulas, h.1]
    exact ih h.2

theorem checkArguments_of_forall₂ {position : Nat} {sorts : List String}
    (h : List.Forall₂ (fun f sort => p.sortOf context scope underNew f = .ok sort) fs sorts) :
    p.checkArguments context scope underNew whole position fs sorts = .ok () := by
  induction h generalizing position with
  | nil => simp only [checkArguments]
  | cons hHead _ ih =>
    rw [checkArguments, hHead]
    simp only [bind, Except.bind, checkArgument, if_pos]
    exact ih

theorem sortOf_conj (h : ∀ f ∈ fs, p.sortOf context scope underNew f = .ok boolSort) :
    p.sortOf context scope underNew (conj fs) = .ok boolSort := by
  unfold conj
  split
  · rw [top, sortOf]
  · exact h _ mem_cons_self
  · rw [sortOf, checkFormulas_of_forall h]
    rfl

theorem sortOf_disj (h : ∀ f ∈ fs, p.sortOf context scope underNew f = .ok boolSort) :
    p.sortOf context scope underNew (disj fs) = .ok boolSort := by
  unfold disj
  split
  · rw [sortOf]
  · exact h _ mem_cons_self
  · rw [sortOf, checkFormulas_of_forall h]
    rfl

theorem sortOf_apply {x : Symbol} (hx : p.symbol? x.name = some x)
    (hFree : scope.sort? x.name = none) {args : List Formula}
    (hArgs : List.Forall₂ (fun f sort => p.sortOf .singleState scope underNew f = .ok sort) args
      x.args) :
    p.sortOf .singleState scope underNew (apply x.name args) = .ok x.result := by
  have hArity : x.arity = args.length := hArgs.length_eq.symm
  have hMention : checkMention .singleState x = .ok () := if_neg (by simp)
  unfold apply
  split
  · simp only [sortOf, hFree, hx, guard_eq_ok, bind_eq_ok, pure_eq_ok]
    exact ⟨not_not.mpr hArity, (), hMention, trivial⟩
  · simp only [sortOf, hFree, hx, guard_eq_ok, bind_eq_ok, pure_eq_ok, Option.isSome_none,
      Bool.false_eq_true, if_false]
    exact ⟨not_not.mpr hArity, (), hMention, (), checkArguments_of_forall₂ hArgs, trivial⟩

theorem sortOf_not (h : p.sortOf context scope underNew f = .ok boolSort) :
    p.sortOf context scope underNew (.not f) = .ok boolSort := by
  rw [sortOf, h]
  rfl

theorem sortOf_eq (ha : p.sortOf context scope underNew a = .ok sort)
    (hb : p.sortOf context scope underNew b = .ok sort) :
    p.sortOf context scope underNew (.eq a b) = .ok boolSort := by
  simp only [sortOf, bind_eq_ok, guard_eq_ok, pure_eq_ok, not_not]
  exact ⟨sort, ha, sort, hb, rfl, trivial⟩

theorem sortOf_ne (ha : p.sortOf context scope underNew a = .ok sort)
    (hb : p.sortOf context scope underNew b = .ok sort) :
    p.sortOf context scope underNew (.ne a b) = .ok boolSort := by
  simp only [sortOf, bind_eq_ok, guard_eq_ok, pure_eq_ok, not_not]
  exact ⟨sort, ha, sort, hb, rfl, trivial⟩

theorem sortOf_complement (h : p.sortOf context scope underNew f = .ok boolSort) :
    p.sortOf context scope underNew f.complement = .ok boolSort := by
  unfold complement
  split
  · rw [sortOf] at h
    obtain ⟨sort, hSort, h⟩ := bind_eq_ok.mp h
    obtain ⟨_, hExpect, -⟩ := bind_eq_ok.mp h
    rw [hSort, expectBool_eq_ok hExpect]
  · simp only [sortOf, bind_eq_ok, guard_eq_ok, pure_eq_ok] at h ⊢
    exact h
  · simp only [sortOf, bind_eq_ok, guard_eq_ok, pure_eq_ok] at h ⊢
    exact h
  · rw [sortOf]
  · exact sortOf_not h

theorem checkBinder_of_binds {seen : List String} (hBinds : Binds seen vars)
    (hSorts : ∀ x ∈ vars, p.hasSort x.sort = true) (hFree : ∀ x ∈ vars, p.symbol? x.name = none) :
    p.checkBinder whole vars seen = .ok () := by
  induction vars generalizing seen with
  | nil => rw [checkBinder]
  | cons x vars ih =>
    obtain ⟨hBools, hNames, hSeen⟩ := hBinds
    rw [forall_mem_cons] at hSorts hFree hBools hSeen
    rw [map_cons, nodup_cons] at hNames
    simp only [checkBinder, guard_eq_ok, bind_eq_ok]
    refine ⟨hBools.1, (), if_pos (.inr hSorts.1), by simp [hFree.1], by simpa using hSeen.1,
      ih ⟨hBools.2, hNames.2, fun y hy => ?_⟩ hSorts.2 hFree.2⟩
    rw [mem_cons, not_or]
    exact ⟨fun hName => hNames.1 (hName ▸ mem_map_of_mem hy), hSeen.2 y hy⟩

section Binders

variable {vars : List Var} {f : Formula} (hBinds : Binds [] vars)
  (hSorts : ∀ x ∈ vars, p.hasSort x.sort = true) (hFree : ∀ x ∈ vars, p.symbol? x.name = none)
  (h : p.sortOf context vars false f = .ok boolSort)

include hBinds hSorts hFree h

theorem sorted_thereIs : p.Sorted context (thereIs vars f) := by
  unfold thereIs
  split
  · rename_i hNone
    rw [List.isEmpty_iff] at hNone
    rw [hNone] at h
    exact h
  · rw [Sorted, sortOf, checkBinder_of_binds hBinds hSorts hFree, append_nil, h]
    rfl

theorem sorted_forAll : p.Sorted context (forAll vars f) := by
  unfold forAll
  split
  · rename_i hNone
    rw [List.isEmpty_iff] at hNone
    rw [hNone] at h
    exact h
  · rw [Sorted, sortOf, checkBinder_of_binds hBinds hSorts hFree, append_nil, h]
    rfl

end Binders

theorem Sorted.check (h : p.Sorted context f) : p.check f context = .ok () := by
  rw [Program.check, h]
  rfl

end Program

end InvariantSearch
