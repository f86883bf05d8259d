import InvariantSearch.Proofs.Meaning.Formula
import InvariantSearch.Search.Generalization
import Mathlib.Tactic.Basic

/-!
# The meaning of diagrams

A diagram says that some elements are as its literals say.

* `Diagram.Matches` — the literals that are on hold for some values of the
  variables.
* `Diagram.Thins` — a diagram with some literals of another one switched off.
* `coreLiterals` — the literals that an unsatisfiable core names.
* `Diagram.matches_simplifyConstants` — what is left when constants are put for variables.

Main results: `holds_toPredicate` says that the predicate of a diagram is the
negation of its formula, `complementary_and_monotone` adds that the formula gets
weaker as literals are switched off, and `holdsIn_toFormula` that the formula
asks for values of all variables, although it binds only those that occur. The
last one needs every sort to have an element.
-/

namespace InvariantSearch

open List Formula Conjunct

variable {d small : Diagram} {used : String → Prop} {c : Conjunct} {D : Domain}

namespace Diagram

variable {v : Valuation D}

/-! ## Formula and predicate -/

section Meaning

variable {D : Domain} {d : Diagram} {s : State D} {P : Valuation D → Prop} {xs : List Var}

/-- The literals that are on hold in a state, for some values of the variables. -/
def Matches (d : Diagram) (s : State D) (v : Valuation D) : Prop :=
  ∀ f ∈ d.enabled.map formula, f.Holds (fun _ => s) 0 v

variable {σ : Nat → State D} {i : Nat} {v : Valuation D}

theorem holds_toFormula : d.toFormula.Holds σ i v ↔
    ExistsOf d.usedVars (fun w => ∀ f ∈ d.enabled.map formula, f.Holds σ i w) v := by
  simp only [toFormula, matrix, holds_thereIs, holds_conj]

theorem holdsIn_toFormula_usedVars :
    d.toFormula.HoldsIn s ↔ ExistsOf d.usedVars (d.Matches s) .empty :=
  holds_toFormula

/-- **The predicate of a diagram is the negation of its formula**, wherever the two are read. -/
theorem holds_toPredicate : d.toPredicate.Holds σ i v ↔ ¬ d.toFormula.Holds σ i v := by
  rw [← not_iff_not, not_not, holds_toFormula, toPredicate, holds_forAll, not_forAllOf_iff]
  refine existsOf_congr fun w => ?_
  -- No complement of a literal holds exactly when all literals do.
  simp only [holds_disj, mem_map, not_exists, not_and, forall_exists_index, and_imp,
    forall_apply_eq_imp_iff₂, holds_complement, not_not]

theorem holdsIn_toPredicate : d.toPredicate.HoldsIn s ↔ ¬ d.toFormula.HoldsIn s :=
  holds_toPredicate

theorem mem_usedVars {x : Var} :
    x ∈ d.usedVars ↔
      x ∈ d.vars ∧ ∃ f ∈ d.enabled.map formula, f.Uses [] x.name := by
  have hNames : ∀ (cs : List Conjunct) (names : NameSet),
      x.name ∈ (cs.foldl (fun names c => c.formula.collectNames [] names) names).toList ↔
        x.name ∈ names.toList ∨ ∃ f ∈ cs.map formula, f.Uses [] x.name := by
    intro cs
    induction cs with
    | nil => simp
    | cons c cs ih =>
      intro names
      rw [foldl_cons, ih, mem_collectNames]
      simp only [map_cons, mem_cons, exists_eq_or_imp, or_assoc]
  rw [usedVars, mem_filter, NameSet.contains, contains_iff_mem, hNames]
  simp [NameSet.empty]

theorem matches_congr {w : Valuation D}
    (h : ∀ n, (∃ f ∈ d.enabled.map formula, f.Uses [] n) → v n = w n) :
    d.Matches s v ↔ d.Matches s w :=
  forall₂_congr fun f hf =>
    holds_congr_valuation fun n hn => h n ⟨f, hf, hn⟩

theorem existsOf_bind_unused (hP : ∀ v w : Valuation D, (∀ n, used n → v n = w n) → (P v ↔ P w))
    (xs : List Var) {name : String} (hName : ¬ used name) (v : Valuation D) (a : D.Element) :
    ExistsOf xs P (v.bind name a) ↔ ExistsOf xs P v := by
  have hAgree : ∀ n, used n → v.bind name a n = v n :=
    fun n hn => Valuation.bind_of_ne _ _ fun h => hName (h ▸ hn)
  refine (closures_congr (R := fun _ v w => ∀ n, used n → v n = w n) (fun b h n hn => ?_)
    (hP _ _) hAgree).2
  simp only [Valuation.bind, h n hn]

/-- Variables that a condition does not depend on can be left out, also where their sorts have
no elements: values for all of them are values for the others. -/
theorem existsOf_used [DecidablePred used]
    (hP : ∀ v w : Valuation D, (∀ n, used n → v n = w n) → (P v ↔ P w)) (h : ExistsOf xs P v) :
    ExistsOf (xs.filter fun x => used x.name) P v := by
  induction xs generalizing v with
  | nil => exact h
  | cons x xs ih =>
    obtain ⟨a, ha, hRest⟩ := h
    by_cases hx : used x.name
    · rw [filter_cons_of_pos (by simpa using hx)]
      exact ⟨a, ha, ih hRest⟩
    · rw [filter_cons_of_neg (by simpa using hx)]
      exact (existsOf_bind_unused hP _ hx v a).mp (ih hRest)

/-- Variables that a condition does not depend on can be put in and left out, if their sorts have
elements. -/
theorem existsOf_filter [DecidablePred used]
    (hP : ∀ v w : Valuation D, (∀ n, used n → v n = w n) → (P v ↔ P w))
    (hSorts : ∀ x ∈ xs, ∃ a, D.sort a = x.sort) :
    ExistsOf (xs.filter fun x => used x.name) P v ↔ ExistsOf xs P v := by
  refine ⟨fun h => ?_, existsOf_used hP⟩
  induction xs generalizing v with
  | nil => exact h
  | cons x xs ih =>
    have ih := fun v => ih (fun y hy => hSorts y (mem_cons_of_mem x hy)) (v := v)
    by_cases hx : used x.name
    · rw [filter_cons_of_pos (by simpa using hx)] at h
      obtain ⟨a, ha, hRest⟩ := h
      exact ⟨a, ha, ih _ hRest⟩
    · rw [filter_cons_of_neg (by simpa using hx)] at h
      obtain ⟨a, ha⟩ := hSorts x mem_cons_self
      exact ⟨a, ha, (existsOf_bind_unused hP _ hx v a).mpr (ih v h)⟩

open Classical in
theorem usedVars_eq_filter (d : Diagram) : d.usedVars =
    d.vars.filter fun x => ∃ f ∈ d.enabled.map formula, f.Uses [] x.name := by
  rw [usedVars]
  refine filter_congr fun x hx => Bool.eq_iff_iff.mpr ?_
  have h := mem_usedVars (d := d) (x := x)
  rw [usedVars, mem_filter] at h
  simpa [hx] using h

/-- **The formula of a diagram asks for values of all its variables**, where every sort
of them has an element. -/
theorem holdsIn_toFormula (hSorts : ∀ x ∈ d.vars, ∃ a, D.sort a = x.sort) :
    d.toFormula.HoldsIn s ↔ ExistsOf d.vars (d.Matches s) .empty := by
  classical
  rw [holdsIn_toFormula_usedVars, usedVars_eq_filter]
  exact existsOf_filter (fun v w h => matches_congr h) hSorts

end Meaning

/-! ## Fewer literals -/

/-- A diagram is another one with some literals switched off. -/
def Thins (small d : Diagram) : Prop := ∃ test, small = d.keepWhere test

theorem getElem?_keepWhere (d : Diagram) (test : Nat → Bool) (i : Nat) :
    (d.keepWhere test).conjuncts[i]? =
      (d.conjuncts[i]?).map fun c => { c with enabled := c.enabled && test i } := by
  rw [keepWhere, getElem?_mapIdx]

theorem keepWhere_true (d : Diagram) : d.keepWhere (fun _ => true) = d := by
  rw [keepWhere]
  congr 1
  refine ext_getElem? fun i => ?_
  rw [getElem?_mapIdx]
  cases d.conjuncts[i]? <;> simp

theorem keepWhere_keepWhere (d : Diagram) (test test' : Nat → Bool) :
    (d.keepWhere test).keepWhere test' = d.keepWhere fun i => test i && test' i := by
  simp only [keepWhere, mapIdx_mapIdx, Function.comp_def, Bool.and_assoc]

theorem switch_false (d : Diagram) (position : Nat) :
    d.switch position false = d.keepWhere fun i => i != position := by
  rw [switch, keepWhere]
  congr 1
  refine ext_getElem? fun i => ?_
  rw [getElem?_modify, getElem?_mapIdx]
  by_cases h : position = i
  · subst h
    cases d.conjuncts[position]? <;> simp
  · have h' : (i != position) = true := by simpa using Ne.symm h
    cases d.conjuncts[i]? <;> simp [h, h']

theorem Thins.refl (d : Diagram) : d.Thins d := ⟨_, (keepWhere_true d).symm⟩

theorem Thins.trans {a b c : Diagram} (hab : a.Thins b) (hbc : b.Thins c) : a.Thins c := by
  obtain ⟨test, rfl⟩ := hab
  obtain ⟨test', rfl⟩ := hbc
  exact ⟨_, keepWhere_keepWhere c test' test⟩

theorem Thins.vars (h : small.Thins d) : small.vars = d.vars := by
  obtain ⟨test, rfl⟩ := h
  rfl

theorem Thins.formula_mem (h : small.Thins d) (hc : c ∈ small.conjuncts) :
    ∃ c' ∈ d.conjuncts, c'.formula = c.formula := by
  obtain ⟨test, rfl⟩ := h
  obtain ⟨i, hi⟩ := getElem?_of_mem hc
  rw [getElem?_keepWhere, Option.map_eq_some_iff] at hi
  obtain ⟨c', hc', rfl⟩ := hi
  exact ⟨c', mem_of_getElem? hc', rfl⟩

theorem Thins.enabled_subset (h : small.Thins d) :
    ∀ f ∈ small.enabled.map formula, f ∈ d.enabled.map formula := by
  obtain ⟨test, rfl⟩ := h
  intro f hf
  obtain ⟨c, hc, rfl⟩ := mem_map.mp hf
  obtain ⟨hIn, hOn⟩ := mem_filter.mp hc
  obtain ⟨i, hi, rfl⟩ := mem_mapIdx.mp hIn
  refine mem_map.mpr ⟨d.conjuncts[i], mem_filter.mpr ⟨getElem_mem hi, ?_⟩, rfl⟩
  simp only [Bool.and_eq_true] at hOn
  exact hOn.1

/-- **With fewer literals, the formula of a diagram is weaker**, also where sorts have no
elements. -/
theorem Thins.holds_toFormula (h : small.Thins d) {σ : Nat → State D} {i : Nat}
    (hd : d.toFormula.Holds σ i v) : small.toFormula.Holds σ i v := by
  classical
  rw [Diagram.holds_toFormula] at hd ⊢
  -- The literals of `small` use fewer names, so its variables are some of those of `d`.
  have hVars : small.usedVars = d.usedVars.filter fun x =>
      ∃ f ∈ small.enabled.map formula, f.Uses [] x.name := by
    rw [usedVars_eq_filter, usedVars_eq_filter, filter_filter, h.vars]
    refine filter_congr fun x _ => Bool.eq_iff_iff.mpr ?_
    simp only [Bool.and_eq_true, decide_eq_true_eq, iff_self_and]
    exact fun ⟨f, hf, hUses⟩ => ⟨f, h.enabled_subset f hf, hUses⟩
  have hDepends : ∀ v w : Valuation D,
      (∀ n, (∃ f ∈ small.enabled.map formula, f.Uses [] n) → v n = w n) →
      ((∀ f ∈ small.enabled.map formula, f.Holds σ i v) ↔
        ∀ f ∈ small.enabled.map formula, f.Holds σ i w) :=
    fun v w hvw => forall₂_congr fun f hf =>
      holds_congr_valuation fun n hn => hvw n ⟨f, hf, hn⟩
  rw [hVars]
  exact existsOf_used hDepends (hd.mono fun w hw f hf => hw f (h.enabled_subset f hf))

/-- **With fewer literals, a diagram holds in more states.** -/
theorem Thins.holdsIn_toFormula (h : small.Thins d) {s : State D} (hd : d.toFormula.HoldsIn s) :
    small.toFormula.HoldsIn s :=
  h.holds_toFormula hd

/-- A diagram is a thinner one if it has the same variables and literals, and fewer of them
on. -/
theorem Thins.of_isEnabled (hVars : small.vars = d.vars)
    (hLiterals : small.conjuncts.map (fun c => (c.kind, c.formula)) = d.conjuncts.map fun c =>
      (c.kind, c.formula)) (hOn : ∀ i, small.isEnabled i = true → d.isEnabled i = true) :
    small.Thins d := by
  refine ⟨small.isEnabled, ?_⟩
  have hConjuncts : small.conjuncts = (d.keepWhere small.isEnabled).conjuncts := by
    refine ext_getElem? fun i => ?_
    have hAt := congrArg (·[i]?) hLiterals
    have hOn := hOn i
    rw [getElem?_keepWhere]
    simp only [getElem?_map, isEnabled] at hAt hOn ⊢
    cases hSmall : small.conjuncts[i]? <;> cases hBig : d.conjuncts[i]? <;>
      rw [hSmall, hBig] at hAt <;> simp_all
    -- Both have a literal here; it is on in `small` if it is on in both.
    rename_i c c'
    cases c; cases c'
    simp_all
  calc small = ⟨small.vars, small.conjuncts⟩ := rfl
    _ = ⟨d.vars, (d.keepWhere small.isEnabled).conjuncts⟩ := congrArg₂ Diagram.mk hVars hConjuncts
    _ = d.keepWhere small.isEnabled := rfl

/-- **The predicate of a diagram is the complement of its formula, and switching literals off
weakens the formula and strengthens the predicate**, in all structures, also where sorts have no
elements, and for all values of names that the diagram does not bind. -/
theorem complementary_and_monotone (D : Domain) (σ : Nat → State D) (i : Nat) (v : Valuation D) :
    (∀ d : Diagram, d.toPredicate.Holds σ i v ↔ ¬ d.toFormula.Holds σ i v) ∧
    ∀ small d : Diagram, small.vars = d.vars →
      small.conjuncts.map (fun c => (c.kind, c.formula)) =
        d.conjuncts.map (fun c => (c.kind, c.formula)) →
      (∀ index, small.isEnabled index = true → d.isEnabled index = true) →
      (d.toFormula.Holds σ i v → small.toFormula.Holds σ i v) ∧
        (small.toPredicate.Holds σ i v → d.toPredicate.Holds σ i v) := by
  refine ⟨fun d => holds_toPredicate, ?_⟩
  intro small d hVars hLiterals hOn
  have hThins : small.Thins d := .of_isEnabled hVars hLiterals hOn
  refine ⟨hThins.holds_toFormula, fun hSmall => ?_⟩
  rw [holds_toPredicate] at hSmall ⊢
  exact fun hd => hSmall (hThins.holds_toFormula hd)

/-- A diagram over two sorts. -/
def twoSorted : Diagram where
  vars := [⟨"x", "node"⟩, ⟨"y", "lock"⟩]
  conjuncts := [⟨.relation, true, .app "busy" [.id "x"]⟩,
    ⟨.relation, true, .not (.app "free" [.id "y"])⟩]

/-- One node, and no lock. -/
def lockless : Domain where
  Element := Unit
  sort _ := "node"
  sort_ne_bool _ := by decide

/-- Without a lock the diagram fails and its predicate holds; with the literal about the lock
off, its variable is not asked for, and the formula holds. -/
theorem monotone_at_lockless :
    let busy : State lockless := fun _ _ => .truth True
    let d := twoSorted
    let small := twoSorted.switch 1 false
    (d.toPredicate.HoldsIn busy ↔ ¬ d.toFormula.HoldsIn busy) ∧
      (d.toFormula.HoldsIn busy → small.toFormula.HoldsIn busy) ∧
      (small.toPredicate.HoldsIn busy → d.toPredicate.HoldsIn busy) ∧
      ¬ d.toFormula.HoldsIn busy ∧ small.toFormula.HoldsIn busy := by
  intro busy d small
  have h := complementary_and_monotone lockless (fun _ => busy) 0 .empty
  have hWeakens := h.2 small d rfl rfl fun index hIndex => by
    match index with
    | 0 => rfl
    | 1 => cases hIndex
    | _ + 2 => cases hIndex
  refine ⟨h.1 d, hWeakens.1, hWeakens.2, ?_, ?_⟩
  · rw [holdsIn_toFormula_usedVars]
    rintro ⟨_, -, _, hLock, -⟩
    exact absurd (show "node" = "lock" from hLock) (by decide)
  · rw [holdsIn_toFormula_usedVars]
    refine ⟨(), rfl, fun f hf => ?_⟩
    obtain rfl : f = .app "busy" [.id "x"] := mem_singleton.mp hf
    simp [Holds, value, busy]

theorem mem_enabled_keepWhere {test : Nat → Bool} {i : Nat} (hc : d.conjuncts[i]? = some c)
    (hOn : c.enabled = true) (hTest : test i = true) : c ∈ (d.keepWhere test).enabled := by
  rw [enabled, mem_filter]
  refine ⟨mem_of_getElem? (i := i) ?_, hOn⟩
  rw [getElem?_keepWhere, hc, Option.map_some, hOn, hTest]
  cases c
  simp_all

/-- The literals that a core names, by their positions among those that are on; all
of them when there is no core. -/
def coreLiterals (d : Diagram) : Option (List Nat) → List Formula
  | none => d.enabled.map formula
  | some positions => positions.filterMap fun i => (d.enabled.map formula)[i]?

end Diagram

/-! ## Constants put for variables -/

namespace Formula

theorem substitute_apply {s : Substitution} {name : String} (h : s.lookup name = none)
    (fs : List Formula) : (apply name fs).substitute s = apply name (fs.map (substitute s)) := by
  cases fs with
  | nil =>
    rw [apply, substitute, h]
    rfl
  | cons f fs =>
    show app name (substituteList s (f :: fs)) = _
    rw [substituteList_eq_map]
    rfl

end Formula

namespace Diagram

theorem mem_foldl {α β : Type} {b : β} {step : List β → α → List β} {P : α → Prop}
    (hStep : ∀ bs a, b ∈ step bs a → b ∈ bs ∨ P a) {as : List α} {bs : List β}
    (h : b ∈ as.foldl step bs) : b ∈ bs ∨ ∃ a ∈ as, P a := by
  induction as generalizing bs with
  | nil => exact Or.inl h
  | cons a as ih =>
    rcases ih h with hIn | ⟨a', ha', hP⟩
    · exact (hStep bs a hIn).imp_right fun hP => ⟨a, mem_cons_self, hP⟩
    · exact Or.inr ⟨a', mem_cons_of_mem a ha', hP⟩

theorem mem_constantNames {entry : String × Formula} (h : entry ∈ d.constantNames) :
    ∃ c ∈ d.enabled, c.kind = .constant ∧ ∃ target rest,
      c.formula.children = entry.2 :: target :: rest ∧ entry.1 = target.name := by
  have hAdded := mem_foldl (P := fun c : Conjunct => ∃ target rest,
    c.formula.children = entry.2 :: target :: rest ∧ entry.1 = target.name) ?_ h
  · obtain ⟨c, hc, hRest⟩ := hAdded.resolve_left not_mem_nil
    obtain ⟨hc, hKind⟩ := mem_filter.mp hc
    exact ⟨c, hc, by simpa using hKind, hRest⟩
  · intro named c hIn
    split at hIn
    · rename_i constant target rest hChildren
      split at hIn
      · exact Or.inl hIn
      · refine (mem_append.mp hIn).imp_right fun hIn => ?_
        rw [mem_singleton.mp hIn]
        exact ⟨target, rest, hChildren, rfl⟩
    · exact Or.inl hIn

theorem vars_simplifyConstants (d : Diagram) : d.simplifyConstants.vars =
    d.vars.filter fun x => (d.constantNames.lookup x.name).isNone := by
  rw [simplifyConstants]
  split
  · rename_i hNone
    rw [isEmpty_iff.mp hNone]
    exact (filter_eq_self.mpr fun _ _ => rfl).symm
  · rfl

theorem mem_simplifyConstants (h : c ∈ d.simplifyConstants.conjuncts) :
    ∃ c' ∈ d.conjuncts, c = { c' with formula := c'.formula.substitute d.constantNames } := by
  rw [simplifyConstants] at h
  split at h
  · rename_i hNone
    refine ⟨c, h, ?_⟩
    rw [isEmpty_iff.mp hNone, substitute_nil]
  · obtain ⟨c', hc', rfl⟩ := mem_map.mp (mem_filter.mp h).1
    exact ⟨c', hc', rfl⟩

/-- A literal with constants put in is dropped only when it equates something with itself. -/
theorem simplifyConstants_mem (hc : c ∈ d.conjuncts)
    (hKept : isTrivial (c.formula.substitute d.constantNames) = false) :
    { c with formula := c.formula.substitute d.constantNames } ∈ d.simplifyConstants.conjuncts := by
  rw [simplifyConstants]
  split
  · rename_i hNone
    rw [isEmpty_iff.mp hNone, substitute_nil]
    exact hc
  · exact mem_filter.mpr ⟨mem_map.mpr ⟨c, hc, rfl⟩, by simp [hKept]⟩

theorem holds_of_isTrivial {f : Formula} (h : isTrivial f = true) (s : State D) (w : Valuation D) :
    f.Holds (fun _ => s) 0 w := by
  unfold isTrivial at h
  split at h
  · rw [beq_iff_eq.mp h, Holds, value]
    exact rfl
  · cases h

/-- **A simplified diagram says what its literals say with constants put in.** -/
theorem matches_simplifyConstants {s : State D} {w : Valuation D} :
    d.simplifyConstants.Matches s w ↔
      ∀ c ∈ d.enabled, (c.formula.substitute d.constantNames).Holds (fun _ => s) 0 w := by
  constructor
  · intro hMatches c hc
    obtain ⟨hIn, hOn⟩ := mem_filter.mp hc
    by_cases hKept : isTrivial (c.formula.substitute d.constantNames) = true
    · exact holds_of_isTrivial hKept s w
    · exact hMatches _ (mem_map.mpr ⟨_, mem_filter.mpr
        ⟨simplifyConstants_mem hIn (Bool.eq_false_iff.mpr hKept), hOn⟩, rfl⟩)
  · intro hHolds f hf
    obtain ⟨c, hc, rfl⟩ := mem_map.mp hf
    obtain ⟨hIn, hOn⟩ := mem_filter.mp hc
    obtain ⟨c', hc', rfl⟩ := mem_simplifyConstants hIn
    exact hHolds c' (mem_filter.mpr ⟨hc', hOn⟩)

theorem exists_substitution (d : Diagram) (simplify : Bool) :
    ∃ s : Substitution, (∀ entry ∈ s, entry ∈ d.constantNames) ∧
      (if simplify then d.simplifyConstants else d).vars =
        d.vars.filter (fun x => (s.lookup x.name).isNone) ∧
      ∀ c ∈ (if simplify then d.simplifyConstants else d).conjuncts,
        ∃ c' ∈ d.conjuncts, c.formula = c'.formula.substitute s := by
  cases simplify with
  | false =>
    exact ⟨[], by simp, (filter_eq_self.mpr fun _ _ => rfl).symm,
      fun c hc => ⟨c, hc, (substitute_nil _).symm⟩⟩
  | true =>
    refine ⟨d.constantNames, fun _ h => h, d.vars_simplifyConstants, fun c hc => ?_⟩
    obtain ⟨c', hc', rfl⟩ := mem_simplifyConstants hc
    exact ⟨c', hc', rfl⟩

end Diagram

end InvariantSearch
