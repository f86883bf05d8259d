import InvariantSearch.Proofs.Encoding.Tabulation
import InvariantSearch.Proofs.Meaning.Extensions
import InvariantSearch.Proofs.Program.Scoping

/-!
# Diagrams that fit their program

The literals of a diagram speak of elements by their variables, and apply symbols to them. They
are formulas of the program if each variable has the sort that it is used at.

* `Diagram.WellSorted` — the variables of a diagram can be bound in a program, and its literals
  are formulas about them. Then its formula and its predicate are closed formulas, whichever
  literals are on.
* `Diagram.Places` — what stands for an element has its sort.

Main result: `check_of_readModel` says that the diagrams of models fit, where all elements have
different names. Names are made of a sort and a number, so elements of different sorts may
share one, and then a literal may be about the wrong element (`shared_name_not_accepted`).
-/

namespace InvariantSearch

open List Program Symbol

variable {c : Conjunct}

namespace Diagram

variable {p : Program} {d : Diagram}

/-! ## Diagrams that fit -/

/-- A diagram fits a program: its variables can be bound there, and its literals are formulas
about them. -/
structure WellSorted (p : Program) (d : Diagram) : Prop where
  binds : Program.Binds [] d.vars
  sorts : ∀ x ∈ d.vars, p.hasSort x.sort = true
  free : ∀ x ∈ d.vars, p.symbol? x.name = none
  literals : ∀ c ∈ d.conjuncts, p.sortOf .singleState d.vars false c.formula = .ok boolSort

theorem WellSorted.of_formulas (h : d.WellSorted p) {d' : Diagram} (hVars : d'.vars = d.vars)
    (hFormulas : ∀ c ∈ d'.conjuncts, ∃ c' ∈ d.conjuncts, c.formula = c'.formula) :
    d'.WellSorted p := by
  refine ⟨hVars ▸ h.binds, hVars ▸ h.sorts, hVars ▸ h.free, fun c hc => ?_⟩
  obtain ⟨c', hc', hEq⟩ := hFormulas c hc
  rw [hVars, hEq]
  exact h.literals c' hc'

theorem WellSorted.check_literal (h : d.WellSorted p) (hc : c ∈ d.conjuncts) :
    p.check (Formula.thereIs d.vars c.formula) .singleState = .ok () :=
  (sorted_thereIs h.binds h.sorts h.free (h.literals c hc)).check

theorem WellSorted.sortOf_usedVars (h : d.WellSorted p) (hc : c ∈ d.enabled) :
    p.sortOf .singleState d.usedVars false c.formula = .ok boolSort := by
  rw [← h.literals c (mem_filter.mp hc).1]
  refine sortOf_congr_scope c.formula fun n hn => ?_
  refine sort?_of_sublist filter_sublist h.binds.names fun x hx hName => ?_
  -- a literal that is on uses the variable, so it is kept
  exact mem_usedVars.mpr ⟨hx, c.formula, mem_map_of_mem hc, hName ▸ hn⟩

theorem WellSorted.binds_usedVars (h : d.WellSorted p) : Program.Binds [] d.usedVars := by
  have hSublist : d.usedVars.Sublist d.vars := filter_sublist
  exact ⟨fun x hx => h.binds.sorts x (hSublist.subset hx), h.binds.names.sublist (hSublist.map _),
    by simp⟩

theorem WellSorted.sorted_toFormula (h : d.WellSorted p) : p.Sorted .singleState d.toFormula := by
  refine sorted_thereIs h.binds_usedVars (fun x hx => h.sorts x (mem_usedVars.mp hx).1)
    (fun x hx => h.free x (mem_usedVars.mp hx).1) (sortOf_conj fun f hf => ?_)
  obtain ⟨c, hc, rfl⟩ := mem_map.mp hf
  exact h.sortOf_usedVars hc

theorem WellSorted.sorted_toPredicate (h : d.WellSorted p) :
    p.Sorted .singleState d.toPredicate := by
  refine sorted_forAll h.binds_usedVars (fun x hx => h.sorts x (mem_usedVars.mp hx).1)
    (fun x hx => h.free x (mem_usedVars.mp hx).1) (sortOf_disj fun f hf => ?_)
  obtain ⟨c, hc, rfl⟩ := mem_map.mp hf
  exact sortOf_complement (h.sortOf_usedVars hc)

/-! ## Diagrams of states -/

variable {t : Trace} {index : Nat}

/-- What stands for an element in a scope has the sort of the element. -/
structure Places (p : Program) (t : Trace) (r : Formula.Substitution) (scope : Program.Scope) :
    Prop where
  sort : ∀ a x, IsVarOf p t a x →
    p.sortOf .singleState scope false ((Formula.id x.name).substitute r) = .ok (t.domain.sort a)
  free : ∀ x ∈ p.symbols, scope.sort? x.name = none
  kept : ∀ x ∈ p.symbols, r.lookup x.name = none

namespace Places

variable {r : Formula.Substitution} {scope : Program.Scope}

theorem sortOf_difference (h : Places p t r scope) (hLists : t.ListsOnce) (hc : c ∈ differences p t) :
    p.sortOf .singleState scope false (c.formula.substitute r) = .ok boolSort := by
  obtain ⟨a, b, x, y, -, hSort, hx, hy, rfl⟩ := mem_differences hLists hc
  exact sortOf_ne (h.sort a x hx) (hSort ▸ h.sort b y hy)

theorem sortOf_application (h : Places p t r scope) (hNodup : (p.symbols.map name).Nodup)
    {x : Symbol} (hx : x ∈ p.symbols) {as : List t.domain.Element} {xs : List Var}
    (hxs : Forall₂ (IsVarOf p t) as xs)
    (hSorts : Forall₂ t.domain.HasSort (as.map .element) x.args) :
    p.sortOf .singleState scope false
      ((Formula.apply x.name (xs.map fun y => .id y.name)).substitute r) = .ok x.result := by
  rw [Formula.substitute_apply (h.kept x hx)]
  refine sortOf_apply (find?_of_nodup hNodup hx) (h.free x hx) ?_
  rw [Trace.hasSort_map_element] at hSorts
  rw [map_map, forall₂_map_left_iff]
  generalize x.args = sorts at hSorts
  induction hxs generalizing sorts with
  | nil =>
    rw [forall₂_nil_left_iff.mp hSorts]
    exact .nil
  | @cons a y as xs hHead _ ih =>
    obtain ⟨sort, sorts, rfl, hTail, rfl⟩ := forall₂_cons_left_iff.mp hSorts
    exact .cons (h.sort a y hHead) (ih sorts hTail)

theorem sortOf_literal (h : Places p t r scope) (hTold : t.Tabulates p index)
    (hNodup : (p.symbols.map name).Nodup) {cs : List Conjunct} (hcs : Lists p t index cs)
    (hc : c ∈ cs) : p.sortOf .singleState scope false (c.formula.substitute r) = .ok boolSort := by
  obtain ⟨i, hi, x, hx, hCovers, -, entry, hEntry, hIs⟩ := hcs.origin c hc
  cases hIs with
  | @relation as xs hAs hxs hKind =>
    have hSorts := (hTold.meaning_eq hNodup hi hx hCovers hEntry hAs).1
    have hApply := h.sortOf_application hNodup hx hxs hSorts
    rw [result_of_isRelation hKind] at hApply
    dsimp only
    split
    · exact hApply
    · exact sortOf_not hApply
  | @equation as xs b y kind hAs hxs hKind hConstant hb hy =>
    have hSorts := (hTold.meaning_eq hNodup hi hx hCovers hEntry hAs).1
    have hValue := h.sort b y hy
    rw [show t.domain.sort b = x.result from congrArg Prod.fst hb] at hValue
    exact sortOf_eq (h.sortOf_application hNodup hx hxs hSorts) hValue

end Places

theorem nodup_elementVars (h : t.ListsOnce) :
    ((elementVars p t).map fun entry => entry.2.name).Nodup := by
  have hNames : (elementVars p t).map Prod.fst = t.universes.flatMap Prod.snd := by
    rw [elementVars, map_flatten, map_map, flatMap_def]
    refine congrArg flatten (map_congr_left fun entry _ => ?_)
    exact ext_getElem (by simp [variablesFor]) fun i _ _ => by simp [variablesFor]
  have hNodup : (elementVars p t).Nodup := .of_map Prod.fst (hNames ▸ h.names)
  refine (nodup_map_iff_inj_on hNodup).mpr ?_
  rintro ⟨name, x⟩ hx ⟨name', y⟩ hy hEq
  obtain ⟨a, rfl, ha⟩ := (mem_elementVars_iff h).mp hx
  obtain ⟨b, rfl, hb⟩ := (mem_elementVars_iff h).mp hy
  obtain rfl := ha.element_eq h hb hEq
  rw [ha.unique h hb]

/-- **The diagram of a state that is told completely fits the program.** -/
theorem wellSorted_ofTrace (hTold : t.Tabulates p index)
    (hNodup : (p.symbols.map name).Nodup)
    (hDeclared : ∀ entry ∈ t.universes, p.hasSort entry.1 = true) {simplify : Bool}
    (hd : ofTrace p t index simplify = .ok d) : d.WellSorted p := by
  obtain ⟨cs, hcs, hOf⟩ := exists_ofTrace hTold hNodup
  obtain rfl := Except.ok.inj (hd.symm.trans (hOf simplify))
  obtain ⟨hFlat, hOnly⟩ := hcs.flat hTold
  obtain ⟨r, hNamed, hVars, hLiterals⟩ := exists_substitution (plain p t cs) simplify
  generalize (if simplify then (plain p t cs).simplifyConstants else plain p t cs) = d
    at hVars hLiterals hd
  have hIsVar : ∀ x, x ∈ d.vars ↔
      r.lookup x.name = none ∧ ∃ a : t.domain.Element, IsVarOf p t a x := by
    intro x
    rw [hVars, mem_filter, Option.isNone_iff_eq_none, and_comm, mem_vars_plain hTold.lists]
  have hNames : (d.vars.map Var.name).Nodup := by
    rw [hVars]
    refine Nodup.sublist (filter_sublist.map _) ?_
    rw [plain, map_map]
    exact nodup_elementVars hTold.lists
  have hFree : ∀ x ∈ d.vars, ∀ k ∈ p.symbols, x.name ≠ k.name := by
    intro x hx k hk
    obtain ⟨-, a, ha⟩ := (hIsVar x).mp hx
    exact ha.name_ne hk
  have hPlaces : Places p t r d.vars := by
    refine ⟨fun a x hx => ?_, fun k hk => ?_, fun k hk => ?_⟩
    · rw [Formula.substitute]
      cases hLookup : r.lookup x.name with
      | none =>
        have hSort := sort?_of_mem hNames ((hIsVar x).mpr ⟨hLookup, a, hx⟩)
        rw [Option.getD_none, sortOf, hSort, hx.sort_eq]
      | some g =>
        obtain ⟨k, sort, hk, hStands, hg, -⟩ := hFlat.of_mem (hNamed _ (mem_of_lookup hLookup))
        obtain rfl : g = .id k.name := hg
        have hSort := hFlat.stands_sort_eq hNodup hStands
          (.var ((mem_vars_plain hTold.lists).mpr ⟨a, hx⟩) rfl rfl)
        rw [Option.getD_some, ← hx.sort_eq, ← hSort, ← hk.result]
        have hNone : Forall₂ (fun f sort =>
            p.sortOf .singleState d.vars false f = .ok sort) [] k.args := hk.args ▸ .nil
        exact sortOf_apply (find?_of_nodup hNodup hk.declared)
          (sort?_eq_none fun y hy => hFree y hy k hk.declared) hNone
    · exact sort?_eq_none fun x hx => hFree x hx k hk
    · -- only variables have something put for them
      cases hLookup : r.lookup k.name with
      | none => rfl
      | some g =>
        obtain ⟨_, _, -, -, -, c, hc, hKind, hFormula⟩ :=
          hFlat.of_mem (hNamed _ (mem_of_lookup hLookup))
        obtain ⟨_, -, -, _, y, hy, hEq⟩ := (hOnly c (mem_filter.mp hc).1).2 hKind
        obtain ⟨-, hEq⟩ := Formula.eq.inj (hFormula.symm.trans hEq)
        exact absurd (Formula.id.inj hEq).symm (hy.name_ne hk)
  refine ⟨⟨fun x hx => ?_, hNames, by simp⟩, fun x hx => ?_, fun x hx => ?_, fun c hc => ?_⟩
  · obtain ⟨-, a, ha⟩ := (hIsVar x).mp hx
    rw [ha.sort_eq]
    exact a.2.1
  · obtain ⟨-, a, names, i, hEntry, -, rfl⟩ := (hIsVar x).mp hx
    exact hDeclared _ hEntry
  · exact find?_eq_none.mpr fun k hk => by simpa using (hFree x hx k hk).symm
  · obtain ⟨c', hc', hEq⟩ := hLiterals c hc
    rw [hEq]
    rcases mem_append.mp hc' with hc' | hc'
    · exact hPlaces.sortOf_difference hTold.lists hc'
    · exact hPlaces.sortOf_literal hTold hNodup hcs hc'

/-- **The diagrams of models are well formed.** Every model that decides its symbols can be read,
and where the elements of the trace have different names, each of its states has a diagram. The
literals of the diagram are accepted when its variables are bound around them, and its formula
and predicate are closed formulas of the program, whichever of the literals are on. -/
theorem check_of_readModel {e : Encoding} (hDeclared : e.program.Declared)
    (hValidated : e.program.validated = true) {m : SolverModel} (hDecides : m.Decides e)
    {index : Nat} (hIndex : index < e.keys.length) (simplify : Bool) :
    ∃ t, e.readModel m = .ok t ∧ ((t.universes.flatMap Prod.snd).Nodup →
      ∃ d, ofTrace e.program t index simplify = .ok d ∧
        (∀ c ∈ d.conjuncts,
          e.program.check (Formula.thereIs d.vars c.formula) .singleState = .ok ()) ∧
        ∀ d' : Diagram, d'.vars = d.vars →
          d'.conjuncts.map Conjunct.formula = d.conjuncts.map Conjunct.formula →
            e.program.check d'.toFormula .singleState = .ok () ∧
              e.program.check d'.toPredicate .singleState = .ok ()) := by
  have hFitting := (Program.checked_of_checkAll (hDeclared.checkAll_eq_ok hValidated)).symbols
  obtain ⟨t, ht⟩ := Encoding.exists_readModel hFitting (Encoding.settled_of_decides hDecides)
  refine ⟨t, ht, fun hNames => ?_⟩
  have hTold : t.Tabulates e.program index := Encoding.tabulates_of_readModel hDeclared.nodup_names
    hDeclared.nodup_sorts hDeclared.sort_ne_bool hFitting ht hNames hIndex
  have hSorts : ∀ entry ∈ t.universes, e.program.hasSort entry.1 = true := by
    obtain ⟨u, -, _, -, _, -, rfl⟩ := Encoding.readModel_eq_ok.mp ht
    intro entry hEntry
    obtain ⟨sort, hSort, rfl⟩ := mem_map.mp hEntry
    exact contains_iff_mem.mpr hSort
  obtain ⟨cs, -, hOf⟩ := exists_ofTrace hTold hDeclared.nodup_names
  have hFits := wellSorted_ofTrace hTold hDeclared.nodup_names hSorts (hOf simplify)
  refine ⟨_, hOf simplify, fun c hc => hFits.check_literal hc, fun d' hVars hFormulas => ?_⟩
  have hFits' : d'.WellSorted e.program := by
    refine hFits.of_formulas hVars fun c hc => ?_
    obtain ⟨c', hc', hEq⟩ := mem_map.mp (hFormulas ▸ mem_map_of_mem hc)
    exact ⟨c', hc', hEq.symm⟩
  exact ⟨hFits'.sorted_toFormula.check, hFits'.sorted_toPredicate.check⟩

/-! ## Samples -/

/-- A model of the night watch that lists one node and has another one lead. -/
def relief : SolverModel :=
  ⟨[("node", 1)], [("leader", ⟨[([], .element 1)], none⟩),
    ("s0_awake", ⟨[([1], .bool true)], none⟩)]⟩

theorem decides_relief : relief.Decides ⟨guards, "", stepKeys 1⟩ := by
  have hFitting := (checked_of_checkAll (guards_declared.checkAll_eq_ok rfl)).symbols
  exact Encoding.decides_of_suits hFitting (by decide)

/-- The diagram of this model has a variable for the node that is not listed, and its predicate
is accepted after some literals were switched off. -/
theorem check_of_readModel_relief :
    relief.Decides ⟨guards, "", stepKeys 1⟩ ∧
      ∃ t, Encoding.readModel ⟨guards, "", stepKeys 1⟩ relief = .ok t ∧
        (t.universes.flatMap Prod.snd).Nodup ∧ t.universes = [("node", ["node0", "node1"])] ∧
        ∃ d, ofTrace guards t 0 false = .ok d ∧
          guards.check (d.keepWhere (· == 2)).toPredicate .singleState = .ok () := by
  obtain ⟨t, ht, hFits⟩ := check_of_readModel guards_declared rfl decides_relief
    (by decide : 0 < (stepKeys 1).length) false
  have hUniverses : t.universes = [("node", ["node0", "node1"])] := by
    have hRead : (Encoding.readModel ⟨guards, "", stepKeys 1⟩ relief).toOption.map Trace.universes =
        some [("node", ["node0", "node1"])] := by decide +kernel
    rw [ht] at hRead
    exact Option.some.inj hRead
  have hNames : (t.universes.flatMap Prod.snd).Nodup := by
    rw [hUniverses]
    decide
  obtain ⟨d, hd, -, hSubset⟩ := hFits hNames
  refine ⟨decides_relief, t, ht, hNames, hUniverses, d, hd,
    (hSubset (d.keepWhere (· == 2)) rfl ?_).2⟩
  exact ext_getElem (by simp [keepWhere]) fun i _ _ => by simp [keepWhere]

/-- Two sorts, of which one is called like the other with a number. -/
def numbered : Program :=
  { Program.empty with
    sorts := ["a", "a1"]
    symbols := [⟨"r", .relation ["a"] none, true⟩]
    validated := true }

theorem numbered_declared : numbered.Declared := by
  have hSort := @Program.Declared.sort _ _ "a" .empty rfl
  have hSort' := @Program.Declared.sort _ _ "a1" hSort rfl
  have hRelation := hSort'.symbol (s := ⟨"r", .relation ["a"] none, true⟩) rfl
  exact hRelation.validate rfl

/-- **Where elements share a name, a literal may not be accepted.** The eleventh element of the
first sort and the first one of the second are both called `a10`. The literal about the eleventh
element is about the other one then, which has the wrong sort. -/
theorem shared_name_not_accepted :
    let e : Encoding := ⟨numbered, "", stepKeys 1⟩
    let m : SolverModel := ⟨[("a", 11), ("a1", 1)], []⟩
    numbered.Declared ∧ numbered.validated = true ∧ m.Decides e ∧
      ∃ t d, e.readModel m = .ok t ∧ ofTrace numbered t 0 false = .ok d ∧
        ∃ c ∈ d.conjuncts, c.formula = .not (.app "r" [.id "V_a1_0"]) ∧
          numbered.check (Formula.thereIs d.vars c.formula) .singleState ≠ .ok () := by
  have hFitting := (Program.checked_of_checkAll (numbered_declared.checkAll_eq_ok rfl)).symbols
  refine ⟨numbered_declared, rfl, Encoding.decides_of_suits hFitting (by decide), ?_⟩
  have hRun : (Encoding.readModel ⟨numbered, "", stepKeys 1⟩
      ⟨[("a", 11), ("a1", 1)], []⟩).toOption.any (fun t =>
        (ofTrace numbered t 0 false).toOption.any fun d => d.conjuncts.any fun c =>
          decide (c.formula = .not (.app "r" [.id "V_a1_0"])) &&
            !decide (numbered.check (Formula.thereIs d.vars c.formula) .singleState = .ok ())) =
        true := by decide +kernel
  simp only [Option.any_eq_true, any_eq_true] at hRun
  obtain ⟨t, ht, d, hd, c, hc, hTest⟩ := hRun
  have hOk : ∀ {ε α : Type} {x : Except ε α} {a : α}, x.toOption = some a → x = .ok a := by
    intro ε α x a h
    cases x <;> cases h
    rfl
  exact ⟨t, d, hOk ht, hOk hd, c, hc, by simpa using hTest⟩

end Diagram

end InvariantSearch
