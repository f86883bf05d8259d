import InvariantSearch.Proofs.Encoding.Sorting

/-!
# Names that can be resolved

A formula is lowered without fault as soon as all its names can be resolved. Sorts need
not fit for that, so this is asked of formulas that nobody has checked.

* `Formula.Resolves` — variables are in scope, symbols are declared and get as many
  arguments as they take, binders have declared sorts, and there is no next state.

Main results: `lower_of_resolves`, and `Types.resolves` says that what passes the
checks of a program resolves.
-/

namespace InvariantSearch

open List

variable {f : Formula} {sort : String}

/-- All names in a formula about one state can be resolved, some variables being in scope. -/
inductive Formula.Resolves (p : Program) : List String → Formula → Prop
  | bool {names : List String} (value : Bool) : Resolves p names (.bool value)
  | bound {names : List String} {x : String} (h : x ∈ names) : Resolves p names (.id x)
  | symbol {names : List String} {x : String} {y : Symbol} (h : p.symbol? x = some y) :
      Resolves p names (.id x)
  | app {names : List String} {x : String} {y : Symbol} {args : List Formula}
      (h : p.symbol? x = some y) (hArity : y.arity = args.length)
      (hArgs : ∀ a ∈ args, Resolves p names a) : Resolves p names (.app x args)
  | not {names : List String} {a : Formula} (ha : Resolves p names a) : Resolves p names (.not a)
  | and {names : List String} {parts : List Formula} (h : ∀ a ∈ parts, Resolves p names a) :
      Resolves p names (.and parts)
  | or {names : List String} {parts : List Formula} (h : ∀ a ∈ parts, Resolves p names a) :
      Resolves p names (.or parts)
  | imp {names : List String} {a b : Formula} (ha : Resolves p names a)
      (hb : Resolves p names b) : Resolves p names (.imp a b)
  | iff {names : List String} {a b : Formula} (ha : Resolves p names a)
      (hb : Resolves p names b) : Resolves p names (.iff a b)
  | eq {names : List String} {a b : Formula} (ha : Resolves p names a)
      (hb : Resolves p names b) : Resolves p names (.eq a b)
  | ne {names : List String} {a b : Formula} (ha : Resolves p names a)
      (hb : Resolves p names b) : Resolves p names (.ne a b)
  | ite {names : List String} {a b c : Formula} (ha : Resolves p names a)
      (hb : Resolves p names b) (hc : Resolves p names c) : Resolves p names (.ite a b c)
  | all {names : List String} {vars : List Var} {a : Formula}
      (hVars : ∀ x ∈ vars, p.hasSort x.sort = true)
      (ha : Resolves p (vars.map Var.name ++ names) a) : Resolves p names (.all vars a)
  | ex {names : List String} {vars : List Var} {a : Formula}
      (hVars : ∀ x ∈ vars, p.hasSort x.sort = true)
      (ha : Resolves p (vars.map Var.name ++ names) a) : Resolves p names (.ex vars a)

namespace Encoding

variable {terms : Scope} {names : List String} {index : Nat}

open Formula Discipline

variable {e : Encoding}

/-! ## Lowering -/

/-- Some names have terms in a scope. -/
def HasTerms (names : List String) (terms : Scope) : Prop :=
  ∀ x ∈ names, (terms.lookup x).isSome = true

theorem hasTerms_nil (terms : Scope) : HasTerms [] terms := fun _ hx => by cases hx

theorem HasTerms.cons (h : HasTerms names terms) (x : String) (t : Term) :
    HasTerms (x :: names) ((x, t) :: terms) := by
  intro y hy
  by_cases hEq : y = x
  · simp [hEq]
  · rw [lookup_cons_of_ne hEq]
    exact h y ((mem_cons.mp hy).resolve_left hEq)

theorem HasTerms.mono {names' : List String} (h : HasTerms names terms) (hNames : names' ⊆ names) :
    HasTerms names' terms :=
  fun x hx => h x (hNames hx)

theorem HasTerms.bindVars_total {vars : List Var} (h : HasTerms names terms)
    (hVars : ∀ x ∈ vars, e.program.hasSort x.sort = true) :
    Gives (e.bindVars terms vars) fun bound => HasTerms (vars.map Var.name ++ names) bound.2 := by
  refine (bindVars_keeps (I := fun scope => HasTerms (scope.map Var.name ++ names)) [] hVars
    (fun h _ => h.cons _ _) h).imp fun bound hBound => hBound.mono fun x hx => ?_
  simpa using hx

/-- **What resolves can be lowered**, in every state there is. -/
theorem lower_of_resolves (hSymbols : ∀ x ∈ e.program.symbols, e.program.Fitting x)
    (hIndex : index < e.keys.length) (h : f.Resolves e.program names)
    (hTerms : HasTerms names terms) : Gives (e.lower index terms f) fun _ => True := by
  have hSymbol : ∀ {x : String} {y : Symbol}, e.program.symbol? x = some y →
      ∃ g, e.symbol y index = .ok g := fun hy =>
    symbol_total (hSymbols _ (mem_of_find?_eq_some hy)) fun _ => hIndex
  induction h generalizing terms with
  | bool value =>
    rw [lower]
    exact gives_pure trivial
  | @bound _ x hx =>
    obtain ⟨t, ht⟩ := Option.isSome_iff_exists.mp (hTerms x hx)
    rw [lower, ht]
    exact gives_pure trivial
  | @symbol _ x y hy =>
    obtain ⟨g, hg⟩ := hSymbol hy
    rw [lower]
    cases terms.lookup x with
    | some t => exact gives_pure trivial
    | none =>
      rw [hy]
      exact (gives_sure hg).bind fun _ _ => gives_pure trivial
  | @app _ x y args hy hArity _ ih =>
    obtain ⟨g, hg⟩ := hSymbol hy
    rw [lower, hy, lowerList_eq_mapM]
    dsimp only
    rw [if_neg (not_not.mpr hArity)]
    exact (gives_mapM fun a ha => ih a ha hTerms).bind fun _ _ =>
      (gives_sure hg).bind fun _ _ => gives_pure trivial
  | not _ ih =>
    rw [lower]
    exact (ih hTerms).bind fun _ _ => gives_pure trivial
  | and _ ih | or _ ih =>
    rw [lower, lowerList_eq_mapM]
    exact (gives_mapM fun a ha => ih a ha hTerms).bind fun _ _ => gives_pure trivial
  | imp _ _ iha ihb | iff _ _ iha ihb | eq _ _ iha ihb | ne _ _ iha ihb =>
    rw [lower]
    exact (iha hTerms).bind fun _ _ => (ihb hTerms).bind fun _ _ => gives_pure trivial
  | ite _ _ _ iha ihb ihc =>
    rw [lower]
    exact (iha hTerms).bind fun _ _ => (ihb hTerms).bind fun _ _ =>
      (ihc hTerms).bind fun _ _ => gives_pure trivial
  | all hVars _ ih | ex hVars _ ih =>
    rw [lower]
    exact (hTerms.bindVars_total hVars).bind fun _ hInner =>
      (ih hInner).bind fun _ _ => gives_pure trivial

theorem encode_of_resolves (hSymbols : ∀ x ∈ e.program.symbols, e.program.Fitting x)
    (hIndex : index < e.keys.length) (h : f.Resolves e.program names)
    (hTerms : HasTerms names terms) : Gives (e.encode f index terms) fun _ => True :=
  (gives_sure (checkState_of_lt hIndex)).bind fun _ _ =>
    lower_of_resolves hSymbols hIndex h hTerms

theorem cardinalityBound_total (h : e.program.hasSort sort = true) (size : Nat) :
    Gives (e.cardinalityBound sort size) fun _ => True :=
  (freshOf_total h "elem").bind fun _ _ =>
    (gives_mapM fun i _ => freshOf_total h (sort ++ "_" ++ toString i)).bind fun _ _ =>
      gives_pure trivial

/-! ## Numbers that are used up -/

theorem rises_encode (f : Formula) (index : Nat) (terms : Scope) :
    rising.Keeps (e.encode f index terms) :=
  (rises_sure _).bind fun _ => rises_lower index terms f

theorem rises_frameCondition (mods : NameSet) (index : Nat) :
    rising.Keeps (e.frameCondition mods index) :=
  (rises_sure _).bind fun _ => (keeps_mapM (fun _ => (keeps_mapM (rises_freshOf _) _).bind fun _ =>
    (rises_sure _).bind fun _ => (rises_sure _).bind fun _ => keeps_pure _) _).bind fun _ =>
      keeps_pure _

theorem rises_transition (r : Transition) (index : Nat) : rising.Keeps (e.transition r index) :=
  (rises_sure _).bind fun _ => (rises_bindVars _ _).bind fun _ =>
    (rises_lower _ _ _).bind fun _ =>
      (rises_frameCondition _ _).bind fun _ => keeps_pure _

theorem rises_cardinalityBound (sort : String) (size : Nat) :
    rising.Keeps (e.cardinalityBound sort size) :=
  (rises_freshOf _ _).bind fun _ => (keeps_mapM (fun _ => rises_freshOf _ _) _).bind fun _ =>
    keeps_pure _

end Encoding

/-! ## Checked formulas -/

namespace Program

open Formula

variable {p : Program} {context : FormulaContext}

/-- **What has a sort resolves**, where there is one state only. -/
theorem Types.resolves {scope : Scope} {underNew : Bool} (h : p.Types context scope underNew f sort)
    (hContext : context ≠ .twoState) : f.Resolves p (scope.map Var.name) := by
  induction h with
  | bool value => exact .bool value
  | bound hx => exact .bound (mem_map.mpr (exists_of_sort? hx))
  | constant _ hy => exact .symbol hy
  | app hy hArity _ _ ih =>
    refine .app hy hArity.symm fun a ha => ?_
    obtain ⟨sort, hPair⟩ := exists_mem_zip_of_mem hArity ha
    exact ih a sort hPair
  | not _ ih => exact .not ih
  | and _ ih => exact .and ih
  | or _ ih => exact .or ih
  | imp _ _ iha ihb => exact .imp iha ihb
  | iff _ _ iha ihb => exact .iff iha ihb
  | eq _ _ iha ihb => exact .eq iha ihb
  | ne _ _ iha ihb => exact .ne iha ihb
  | ite _ _ _ iha ihb ihc => exact .ite iha ihb ihc
  | all hBinder _ ih => exact .all (hasSort_of_checkBinder hBinder) (by rwa [← map_append])
  | ex hBinder _ ih => exact .ex (hasSort_of_checkBinder hBinder) (by rwa [← map_append])
  | new hTwo => exact absurd hTwo hContext

theorem Sorted.resolves (h : p.Sorted context f) (hContext : context ≠ .twoState) :
    f.Resolves p [] :=
  (types_of_sortOf f h).resolves hContext

end Program

end InvariantSearch
