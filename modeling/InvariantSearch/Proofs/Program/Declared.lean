import InvariantSearch.Proofs.Formula.Parts
import InvariantSearch.Proofs.Program.Declarations

/-!
# Programs made by declarations

A program is declared piece by piece, and checked as a whole.

* `Program.Declared` — the programs that can be made, checked or not.
* `Program.Coherent` — names lead to what is declared by them, no name is taken twice
  where it counts, and a program that counts as validated passes its checks.
* `Program.Made` — a program is what some declarations make when nothing else is done.

Main results: declared programs are made (`Declared.made`), and what is made is coherent
(`Made.coherent`).
-/

namespace InvariantSearch

open List Formula

variable {text transition sort : String} {params : List Var}

theorem Symbol.result_of_isRelation {x : Symbol} (h : x.isRelation = true) :
    x.result = boolSort := by
  unfold isRelation kind at h
  unfold result
  split at h <;> first | rfl | cases h

namespace Program

variable {seen : List String} {vars : List Var} {whole : Formula} {context : FormulaContext}
  {name : String} {x : Symbol} {f : Formula}

/-- A program is made by declarations, with checks at any time. -/
inductive Declared : Program → Prop
  | empty : Declared .empty
  | sort {p q : Program} {name : String} (h : Declared p) (hAdd : p.addSort name = .ok q) :
      Declared q
  | symbol {p q : Program} {s : Symbol} (h : Declared p) (hAdd : p.addSymbol s = .ok q) :
      Declared q
  | axiomatic {p q : Program} {f : NamedFormula} (h : Declared p) (hAdd : p.addAxiom f = .ok q) :
      Declared q
  | initial {p q : Program} {f : NamedFormula} (h : Declared p) (hAdd : p.addInit f = .ok q) :
      Declared q
  | transition {p q : Program} {t : Transition} (h : Declared p)
      (hAdd : p.addTransition t = .ok q) : Declared q
  | invariant {p q : Program} {i : Invariant} (h : Declared p) (hAdd : p.addInvariant i = .ok q) :
      Declared q
  | statement {p q : Program} {t : Theorem} (h : Declared p) (hAdd : p.addTheorem t = .ok q) :
      Declared q
  | validate {p q : Program} (h : Declared p) (hCheck : p.validate = .ok q) : Declared q

variable {p q : Program}

theorem validate_eq_ok (h : p.validate = .ok q) :
    p.checkAll = .ok () ∧ q = { p with validated := true } := by
  obtain ⟨_, hCheck, h⟩ := bind_eq_ok.mp h
  cases h
  exact ⟨hCheck, rfl⟩

/-! ## Checks and the vocabulary

Whether a formula fits a program depends on its sorts and symbols only. -/

section Vocabulary

variable (hSorts : ∀ name, q.hasSort name = p.hasSort name)
  (hSymbols : ∀ name, q.symbol? name = p.symbol? name)

include hSorts hSymbols

theorem checkBinder_congr (whole : Formula) (vars : List Var) (seen : List String) :
    q.checkBinder whole vars seen = p.checkBinder whole vars seen := by
  induction vars generalizing seen with
  | nil => rfl
  | cons v vars ih => simp [checkBinder, checkSort, hSorts, hSymbols, ih]

theorem sortOf_congr (context : FormulaContext) (f : Formula) (scope : Scope) (underNew : Bool) :
    q.sortOf context scope underNew f = p.sortOf context scope underNew f := by
  induction f using of_children generalizing scope underNew with
  | step f ih =>
    have hFormulas : ∀ fs : List Formula, (∀ c ∈ fs, ∀ scope underNew,
        q.sortOf context scope underNew c = p.sortOf context scope underNew c) →
        q.checkFormulas context scope underNew fs = p.checkFormulas context scope underNew fs := by
      intro fs h
      induction fs with
      | nil => rfl
      | cons f fs ih =>
        obtain ⟨hf, hfs⟩ := forall_mem_cons.mp h
        simp only [checkFormulas, hf, ih hfs]
    have hArguments : ∀ fs : List Formula, (∀ c ∈ fs, ∀ scope underNew,
        q.sortOf context scope underNew c = p.sortOf context scope underNew c) →
        ∀ whole position sorts, q.checkArguments context scope underNew whole position fs sorts =
          p.checkArguments context scope underNew whole position fs sorts := by
      intro fs h
      induction fs with
      | nil => simp [checkArguments]
      | cons f fs ih =>
        obtain ⟨hf, hfs⟩ := forall_mem_cons.mp h
        intro whole position sorts
        cases sorts <;> simp only [checkArguments, hf, ih hfs]
    cases f with
    | bool _ => rfl
    | id _ => simp [sortOf, hSymbols]
    | app _ args => simp [sortOf, hSymbols, hArguments args ih]
    | and fs | or fs => simp [sortOf, hFormulas fs ih]
    | all vars a | ex vars a =>
      simp [sortOf, checkBinder_congr hSorts hSymbols, ih a (mem_singleton_self a)]
    | not a | new a => simp [sortOf, ih a (mem_singleton_self a)]
    | imp a b | iff a b | eq a b | ne a b =>
      simp [sortOf, ih a mem_cons_self, ih b (mem_cons_of_mem a (mem_singleton_self b))]
    | ite a b c =>
      simp [sortOf, ih a mem_cons_self, ih b (by simp [children]),
        ih c (by simp [children])]

theorem check_congr (f : Formula) (context : FormulaContext) :
    q.check f context = p.check f context := by
  simp only [check, sortOf_congr hSorts hSymbols]

theorem checkParams_congr (name : String) (params : List Var) (seen : List String) :
    q.checkParams name params seen = p.checkParams name params seen := by
  induction params generalizing seen with
  | nil => rfl
  | cons v params ih => simp [checkParams, hSorts, hSymbols, ih]

theorem checkSymbol_congr (s : Symbol) : q.checkSymbol s = p.checkSymbol s := by
  simp only [checkSymbol, checkSection, check_congr hSorts hSymbols, hSorts]

theorem checkTransition_congr (t : Transition) : q.checkTransition t = p.checkTransition t := by
  have hModified : ∀ name, q.checkModified t.name name = p.checkModified t.name name :=
    fun name => by simp only [checkModified, hSymbols]
  simp only [checkTransition, checkParams_congr hSorts hSymbols, sortOf_congr hSorts hSymbols,
    funext hModified]

end Vocabulary

theorem checkAll_validated (p : Program) (validated : Bool) :
    { p with validated }.checkAll = p.checkAll := by
  have hSame : ∀ name, { p with validated }.hasSort name = p.hasSort name := fun _ => rfl
  have hSymbols : ∀ name, { p with validated }.symbol? name = p.symbol? name := fun _ => rfl
  simp only [checkAll, checkSection, check_congr hSame hSymbols,
    funext (checkSymbol_congr hSame hSymbols), funext (checkTransition_congr hSame hSymbols)]

theorem find?_of_nodup {α : Type} {f : α → String} {l : List α} (hNodup : (l.map f).Nodup)
    {a : α} (ha : a ∈ l) : l.find? (fun b => f b == f a) = some a := by
  induction l with
  | nil => cases ha
  | cons b l ih =>
    rw [map_cons, nodup_cons] at hNodup
    rcases mem_cons.mp ha with rfl | ha
    · simp
    · have hNe : f b ≠ f a := fun hEq => hNodup.1 (hEq ▸ mem_map_of_mem ha)
      rw [find?_cons_of_neg (by simpa using hNe)]
      exact ih hNodup.2 ha

/-! ## Names -/

/-- All formulas of a program that may have a name. -/
def namedFormulas (p : Program) : List NamedFormula :=
  p.axioms ++ p.inits ++ p.invariants.map (·.toNamedFormula) ++ p.theorems.map (·.toNamedFormula)

/-- Names lead to what is declared by them and nowhere else, each name space holds a name once, and
what counts as validated would be validated again. -/
structure Coherent (p : Program) : Prop where
  hasSort_iff : ∀ name, p.hasSort name = true ↔ name ∈ p.sorts
  symbol?_iff : ∀ name x, p.symbol? name = some x ↔ x ∈ p.symbols ∧ x.name = name
  transition?_iff : ∀ name r, p.transition? name = some r ↔ r ∈ p.transitions ∧ r.name = name
  formulaNames_iff : ∀ name, name ∈ p.formulaNames ↔
    name ≠ "" ∧ ∃ f ∈ p.namedFormulas, f.name = name
  sorts : p.sorts.Nodup
  symbols : (p.symbols.map Symbol.name).Nodup
  transitions : (p.transitions.map Transition.name).Nodup
  formulas : p.formulaNames.Nodup
  validated : p.validated = true → p.validate = .ok p

/-- A program whose declarations take different names is coherent, as long as it counts as validated
only if it passes its checks. -/
theorem coherent_of_nodup (h : (p.declared.filterMap Declaration.key?).Nodup)
    (hValidated : p.validated = true → p.checkAll = .ok ()) : p.Coherent := by
  rw [keys_declared] at h
  have hFound : ∀ {α : Type} {name : α → String} {items : List α}, (items.map name).Nodup →
      ∀ n a, items.find? (name · == n) = some a ↔ a ∈ items ∧ name a = n := by
    intro α name items hNodup n a
    constructor
    · intro hFind
      exact ⟨mem_of_find?_eq_some hFind, by simpa using find?_some hFind⟩
    · rintro ⟨ha, rfl⟩
      exact find?_of_nodup hNodup ha
  -- each name space is a part of the list of all names
  have hTheorems := h.of_append_left
  have hInvariants := hTheorems.of_append_left
  have hTransitions := hInvariants.of_append_left
  have hSymbols := hTransitions.of_append_left.of_append_left
  have hFormulas : (p.formulaNames.map (Prod.mk Declaration.Space.formula)).Nodup := by
    refine h.sublist ?_
    simp only [formulaNames, filter_append, map_append]
    exact ((((sublist_append_right _ _).append (.refl _)).trans (sublist_append_left _ _)).append
      (.refl _)).append (.refl _)
  have hNames : p.formulaNames = (p.namedFormulas.map NamedFormula.name).filter (· ≠ "") := by
    simp [formulaNames, namedFormulas, Function.comp_def]
  have hNamed := hSymbols.of_append_right.of_map
  have hSteps := hInvariants.of_append_right.of_map
  exact
    { hasSort_iff := fun name => contains_iff_mem
      symbol?_iff := hFound hNamed
      transition?_iff := hFound hSteps
      formulaNames_iff := fun name => by
        rw [hNames, mem_filter, mem_map, and_comm, decide_eq_true_iff]
      sorts := hSymbols.of_append_left.of_map
      symbols := hNamed
      transitions := hSteps
      formulas := hFormulas.of_map
      validated := fun hOn => by
        rw [validate, hValidated hOn, ← hOn]
        rfl }

/-! ## What is made -/

/-- A program is what some declarations make, and counts as validated only if it passes its
checks. -/
def Made (p : Program) : Prop :=
  (∃ ds : List Declaration, ds.foldlM add empty = .ok { p with validated := false }) ∧
    (p.validated = true → p.checkAll = .ok ())

theorem Made.coherent (h : p.Made) : p.Coherent := by
  obtain ⟨⟨ds, hds⟩, hValidated⟩ := h
  obtain ⟨-, hNodup, hCollect⟩ := foldlM_add_eq_ok.mp hds
  refine coherent_of_nodup ?_ hValidated
  have hPerm := declared_collect_perm ds
  rw [← hCollect] at hPerm
  exact (hPerm.filterMap _).nodup_iff.mpr hNodup

theorem Made.permitted (h : p.Made) : ∀ d ∈ p.declared, d.Permitted := by
  obtain ⟨⟨ds, hds⟩, -⟩ := h
  exact (foldlM_add_eq_ok.mp (foldlM_add_declared hds)).1

theorem Made.add (h : p.Made) (hAdd : p.add d = .ok q) : q = p.extend d ∧ q.Made := by
  obtain ⟨⟨ds, hds⟩, -⟩ := h
  have hExtend : q = p.extend d := by
    rw [← add_validated p false, (foldlM_add_eq_ok.mp hds).2.2] at hAdd
    rw [(add_collect.mp hAdd).2.2, collect_concat, ← (foldlM_add_eq_ok.mp hds).2.2]
    cases d <;> rfl
  have hOff : { q with validated := false } = q := by
    rw [hExtend]
    cases d <;> rfl
  refine ⟨hExtend, ⟨ds ++ [d], ?_⟩, fun hOn => ?_⟩
  · rw [foldlM_append, hds, hOff]
    show ({ p with validated := false }.add d >>= pure) = _
    rw [add_validated, hAdd]
    rfl
  · rw [← hOff] at hOn
    cases hOn

theorem made_empty : empty.Made := ⟨⟨[], rfl⟩, fun hOn => by cases hOn⟩

theorem Made.validate (h : p.Made) (hCheck : p.validate = .ok q) : q.Made := by
  obtain ⟨hChecked, rfl⟩ := validate_eq_ok hCheck
  exact ⟨h.1, fun _ => (checkAll_validated p true).trans hChecked⟩

/-- **Declared programs are what their declarations make.** -/
theorem Declared.made (h : p.Declared) : p.Made := by
  induction h with
  | empty => exact made_empty
  | @sort _ _ name _ hAdd ih => exact (ih.add (d := .ofSort name) hAdd).2
  | @symbol _ _ s _ hAdd ih => exact (ih.add (d := .ofSymbol s) hAdd).2
  | @axiomatic _ _ f _ hAdd ih => exact (ih.add (d := .ofAxiom f) hAdd).2
  | @initial _ _ f _ hAdd ih => exact (ih.add (d := .ofInit f) hAdd).2
  | @transition _ _ r _ hAdd ih => exact (ih.add (d := .ofTransition r) hAdd).2
  | @invariant _ _ i _ hAdd ih => exact (ih.add (d := .ofInvariant i) hAdd).2
  | @statement _ _ t _ hAdd ih => exact (ih.add (d := .ofTheorem t) hAdd).2
  | validate _ hCheck ih => exact ih.validate hCheck

/-! ## Texts -/

theorem read_eq_ok :
    read text = .ok p ↔ ∃ (items : List Sexpr) (ds : List Declaration) (q : Program),
      Sexpr.read text = ⟨items, none⟩ ∧
      Forall₂ (fun e d => Declaration.ofSexpr e = .ok d) items ds ∧
      ds.foldlM add empty = .ok q ∧ q.validate = .ok p := by
  have hFold : ∀ (items : List Sexpr) (p q : Program), items.foldlM addSexpr p = .ok q ↔
      ∃ ds, Forall₂ (fun e d => Declaration.ofSexpr e = .ok d) items ds ∧
        ds.foldlM add p = .ok q := by
    intro items
    induction items with
    | nil => simp [pure, Except.pure]
    | cons e items ih =>
      intro p q
      simp only [foldlM_cons, bind_eq_ok, addSexpr, mapError_eq_ok, ih]
      constructor
      · rintro ⟨r, ⟨d, hd, hr⟩, ds, hds, hq⟩
        exact ⟨d :: ds, .cons hd hds, bind_eq_ok.mpr ⟨r, hr, hq⟩⟩
      · rintro ⟨ds, hAll, hq⟩
        obtain ⟨d, ds, hd, hds, rfl⟩ := forall₂_cons_left_iff.mp hAll
        obtain ⟨r, hr, hq⟩ := bind_eq_ok.mp hq
        exact ⟨r, ⟨d, hd, hr⟩, ds, hds, hq⟩
  constructor
  · intro h
    obtain ⟨q, hItems, hRest⟩ := bind_eq_ok.mp h
    obtain ⟨ds, hds, hq⟩ := (hFold _ _ _).mp hItems
    split at hRest
    · cases hRest
    · rename_i hStopped
      exact ⟨(Sexpr.read text).items, ds, q, by rw [← hStopped], hds, hq,
        mapError_eq_ok.mp hRest⟩
  · rintro ⟨items, ds, q, hRead, hds, hq, hValid⟩
    unfold read
    rw [hRead]
    exact bind_eq_ok.mpr ⟨q, (hFold _ _ _).mpr ⟨ds, hds, hq⟩, mapError_eq_ok.mpr hValid⟩

theorem Declared.add (h : p.Declared) :
    ∀ {d : Declaration}, p.add d = .ok q → q.Declared
  | .ofSort _, hAdd => .sort h hAdd
  | .ofSymbol _, hAdd => .symbol h hAdd
  | .ofAxiom _, hAdd => .axiomatic h hAdd
  | .ofInit _, hAdd => .initial h hAdd
  | .ofTransition _, hAdd => .transition h hAdd
  | .ofInvariant _, hAdd => .invariant h hAdd
  | .ofTheorem _, hAdd => .statement h hAdd

/-- **The program of a text is made by declarations.** -/
theorem Declared.of_read (h : read text = .ok p) : p.Declared := by
  obtain ⟨_, _, _, -, -, hq, hValid⟩ := read_eq_ok.mp h
  have hDeclared := foldlM_keeps (fun _ _ _ _ hp hAdd => Declared.add hp hAdd) .empty hq
  exact hDeclared.validate hValid

/-- **Symbols have different names.** -/
theorem Declared.nodup_names (h : p.Declared) : (p.symbols.map Symbol.name).Nodup :=
  h.made.coherent.symbols

theorem Declared.nodup_sorts (h : p.Declared) : p.sorts.Nodup := h.made.coherent.sorts

theorem Declared.sort_ne_bool (h : p.Declared) : ∀ sort ∈ p.sorts, sort ≠ boolSort :=
  fun sort hSort => (h.made.permitted (.ofSort sort) (by simp [declared, hSort])).2

theorem Declared.nodup_transitions (h : p.Declared) :
    (p.transitions.map Transition.name).Nodup ∧ ∀ r ∈ p.transitions, r.name ≠ "" :=
  ⟨h.made.coherent.transitions, fun r hr =>
    h.made.permitted (.ofTransition r) (by simp [declared, hr])⟩

theorem Declared.transition?_eq_some (h : p.Declared) {r : Transition} (hr : r ∈ p.transitions) :
    p.transition? r.name = some r :=
  (h.made.coherent.transition?_iff _ r).mpr ⟨hr, rfl⟩

/-- **What counts as validated passes all checks.** -/
theorem Declared.checkAll_eq_ok (h : p.Declared) (hValidated : p.validated = true) :
    p.checkAll = .ok () :=
  h.made.2 hValidated

/-! ## What checks tell -/

/-- The variables of a binder below some names: none stands for truth values, and their names
are new and differ. -/
structure Binds (seen : List String) (vars : List Var) : Prop where
  sorts : ∀ x ∈ vars, x.sort ≠ boolSort
  names : (vars.map Var.name).Nodup
  unseen : ∀ x ∈ vars, x.name ∉ seen

theorem binds_nil (seen : List String) : Binds seen [] := ⟨by simp, nodup_nil, by simp⟩

theorem Binds.cons {x : Var} (h : Binds (x.name :: seen) vars) (hBool : x.sort ≠ boolSort)
    (hSeen : x.name ∉ seen) : Binds seen (x :: vars) := by
  have hFirst : x.name ∉ vars.map Var.name := by
    intro hIn
    obtain ⟨y, hy, hName⟩ := mem_map.mp hIn
    exact h.unseen y hy (hName ▸ mem_cons_self)
  refine ⟨forall_mem_cons.mpr ⟨hBool, h.sorts⟩, ?_,
    forall_mem_cons.mpr ⟨hSeen, fun y hy hIn => ?_⟩⟩
  · rw [map_cons]
    exact nodup_cons.mpr ⟨hFirst, h.names⟩
  · exact h.unseen y hy (mem_cons_of_mem _ hIn)

theorem checkBinder_eq_ok (h : p.checkBinder whole vars seen = .ok ()) : Binds seen vars := by
  induction vars generalizing seen with
  | nil => exact binds_nil seen
  | cons x vars ih =>
    simp only [checkBinder, guard_eq_ok, bind_eq_ok] at h
    obtain ⟨hBool, _, -, -, hSeen, hRest⟩ := h
    exact (ih hRest).cons hBool (by simpa using hSeen)

theorem hasSort_of_checkBinder (h : p.checkBinder whole vars seen = .ok ()) :
    ∀ x ∈ vars, p.hasSort x.sort = true := by
  induction vars generalizing seen with
  | nil => simp
  | cons x vars ih =>
    simp only [checkBinder, guard_eq_ok, bind_eq_ok] at h
    obtain ⟨hBool, _, hSort, -, -, hRest⟩ := h
    refine forall_mem_cons.mpr ⟨?_, ih hRest⟩
    unfold checkSort at hSort
    split at hSort
    · rename_i hFine
      exact hFine.resolve_left hBool
    · cases hSort

theorem checkParams_eq_ok (h : p.checkParams transition params seen = .ok ()) :
    Binds seen params := by
  induction params generalizing seen with
  | nil => exact binds_nil seen
  | cons x params ih =>
    simp only [checkParams, guard_eq_ok] at h
    obtain ⟨hBool, -, -, hSeen, hRest⟩ := h
    exact (ih hRest).cons hBool (by simpa using hSeen)

theorem hasSort_of_checkParams (h : p.checkParams transition params seen = .ok ()) :
    ∀ x ∈ params, p.hasSort x.sort = true := by
  induction params generalizing seen with
  | nil => simp
  | cons x params ih =>
    simp only [checkParams, guard_eq_ok] at h
    obtain ⟨-, hSort, -, -, hRest⟩ := h
    exact forall_mem_cons.mpr ⟨by simpa using hSort, ih hRest⟩

theorem expectBool_eq_ok {part : Formula} (h : expectBool part sort = .ok ()) :
    sort = boolSort := by
  unfold expectBool at h
  split at h
  · assumption
  · cases h

theorem checkArgument_eq_ok {position : Nat} {expected : String}
    (h : checkArgument whole position sort expected = .ok ()) : sort = expected := by
  unfold checkArgument at h
  split at h
  · assumption
  · cases h

theorem checkMention_eq_ok (h : checkMention context x = .ok ()) :
    context = .immutableOnly → x.isMutable = false := by
  unfold checkMention at h
  split at h
  · cases h
  · rename_i hMention
    intro hContext
    by_contra hMutable
    exact hMention ⟨hContext, by simpa using hMutable⟩

/-- A formula of a program fits it in a context. -/
def Sorted (p : Program) (context : FormulaContext) (f : Formula) : Prop :=
  p.sortOf context [] false f = .ok boolSort

theorem check_eq_ok (h : p.check f context = .ok ()) : p.Sorted context f := by
  simp only [check, bind_eq_ok, guard_last_eq_ok, not_not] at h
  obtain ⟨sort, hSort, rfl⟩ := h
  exact hSort

/-- The sorts of a symbol are declared ones, truth values being the range of relations and of
nothing else. -/
structure Fitting (p : Program) (x : Symbol) : Prop where
  args : ∀ sort ∈ x.args, sort ≠ boolSort ∧ p.hasSort sort = true
  result : x.isRelation = false → x.result ≠ boolSort ∧ p.hasSort x.result = true
  definition : ∀ f, x.definition? = some f →
    p.Sorted (if x.isMutable then .singleState else .immutableOnly) f

theorem checkSymbol_eq_ok (h : p.checkSymbol x = .ok ()) : p.Fitting x := by
  simp only [checkSymbol, bind_eq_ok, guard_eq_ok] at h
  obtain ⟨_, hArgs, hBool, hResult, hDefinition⟩ := h
  refine ⟨fun sort hSort => ?_, fun hRelation => ?_, fun f hf => ?_⟩
  · have hFine := forM_eq_ok.mp hArgs sort hSort
    rw [guard_eq_ok, guard_last_eq_ok] at hFine
    exact ⟨hFine.1, by simpa using hFine.2⟩
  · have hNe : x.result ≠ boolSort := by simpa [hRelation] using hBool
    exact ⟨hNe, by simpa [hNe] using hResult⟩
  · rw [hf] at hDefinition
    exact check_eq_ok (mapError_eq_ok.mp hDefinition)

theorem sorted_theorem (h : p.checkAll = .ok ()) {t : Theorem} (ht : t ∈ p.theorems) :
    p.Sorted (if t.isTwoState then .twoState else .singleState) t.formula := by
  simp only [checkAll, bind_eq_ok] at h
  obtain ⟨_, -, _, -, _, -, _, -, _, -, hTheorems⟩ := h
  exact check_eq_ok (mapError_eq_ok.mp (forM_eq_ok.mp hTheorems t ht))

/-- What is known of a program that passes all checks. -/
structure Checked (p : Program) : Prop where
  symbols : ∀ x ∈ p.symbols, p.Fitting x
  axiomatic : ∀ f ∈ p.axioms, p.Sorted .immutableOnly f.formula
  inits : ∀ f ∈ p.inits, p.Sorted .singleState f.formula
  transitions : ∀ r ∈ p.transitions, p.checkTransition r = .ok ()
  invariants : ∀ i ∈ p.invariants, p.Sorted .singleState i.formula

theorem checked_of_checkAll (h : p.checkAll = .ok ()) : p.Checked := by
  simp only [checkAll, bind_eq_ok] at h
  obtain ⟨_, hSymbols, _, hAxioms, _, hInits, _, hTransitions, _, hInvariants, -⟩ := h
  exact ⟨fun x hx => checkSymbol_eq_ok (forM_eq_ok.mp hSymbols x hx),
    fun f hf => check_eq_ok (mapError_eq_ok.mp (forM_eq_ok.mp hAxioms f hf)),
    fun f hf => check_eq_ok (mapError_eq_ok.mp (forM_eq_ok.mp hInits f hf)),
    forM_eq_ok.mp hTransitions,
    fun i hi => check_eq_ok (mapError_eq_ok.mp (forM_eq_ok.mp hInvariants i hi))⟩

theorem Sorted.not (h : p.Sorted context f) : p.Sorted context (.not f) := by
  rw [Sorted, sortOf, h]
  rfl

theorem Sorted.conj {fs : List Formula} (h : ∀ f ∈ fs, p.Sorted context f) :
    p.Sorted context (conj fs) := by
  have hAll : ∀ fs : List Formula, (∀ f ∈ fs, p.Sorted context f) →
      p.checkFormulas context [] false fs = .ok () := by
    intro fs hfs
    induction fs with
    | nil => rw [checkFormulas]
    | cons f fs ih =>
      rw [forall_mem_cons] at hfs
      rw [checkFormulas, hfs.1]
      exact ih hfs.2
  match fs with
  | [] => rfl
  | [f] => exact h f mem_cons_self
  | f :: g :: fs =>
    rw [show Formula.conj (f :: g :: fs) = .and (f :: g :: fs) from rfl, Sorted, sortOf, hAll _ h]
    rfl

theorem Checked.sorted_initial (h : p.Checked) : p.Sorted .singleState p.initial := by
  refine .conj fun f hf => ?_
  obtain ⟨init, hInit, rfl⟩ := mem_map.mp hf
  exact h.inits init hInit

theorem Checked.sorted_safety (h : p.Checked) (hSafety : p.safety name = .ok f) :
    p.Sorted .singleState f := by
  unfold safety at hSafety
  dsimp only at hSafety
  split at hSafety
  · cases hSafety
  · cases hSafety
    refine .conj fun g hg => ?_
    obtain ⟨i, hi, rfl⟩ := mem_map.mp hg
    split at hi <;> exact h.invariants i (mem_filter.mp hi).1

theorem sort?_cons (x : Var) (scope : Scope) (name : String) :
    Scope.sort? (x :: scope) name = if x.name = name then some x.sort else scope.sort? name := by
  by_cases h : x.name = name <;> simp [Scope.sort?, h]

theorem sort?_reverse_append (h : Binds seen vars) (scope : Scope) (name : String) :
    Scope.sort? (vars.reverse ++ scope) name = Scope.sort? (vars ++ scope) name := by
  have hFind : vars.reverse.find? (fun x => x.name == name) =
      vars.find? (fun x => x.name == name) := by
    by_cases hName : ∃ x ∈ vars, x.name = name
    · obtain ⟨x, hx, rfl⟩ := hName
      have hNodup : (vars.reverse.map Var.name).Nodup := by
        rw [map_reverse]
        exact nodup_reverse.mpr h.names
      rw [find?_of_nodup h.names hx, find?_of_nodup hNodup (mem_reverse.mpr hx)]
    · have hNone : ∀ l : List Var, (∀ x ∈ l, x ∈ vars) →
          l.find? (fun x => x.name == name) = none := by
        intro l hl
        rw [find?_eq_none]
        intro x hx hEq
        exact hName ⟨x, hl x hx, by simpa using hEq⟩
      rw [hNone _ fun x hx => mem_reverse.mp hx, hNone _ fun x hx => hx]
  rw [Scope.sort?, Scope.sort?, find?_append, find?_append, hFind]

end Program

end InvariantSearch
