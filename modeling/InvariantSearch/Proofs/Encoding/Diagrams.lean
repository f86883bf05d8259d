import InvariantSearch.Proofs.Encoding.Readback
import InvariantSearch.Proofs.Meaning.Literal

/-!
# Diagrams of what models show

The diagram of a state names elements by variables and constants. Elements of different
sorts may share a name, and a literal may then speak of an element of a wrong sort.
Such a literal holds nowhere, so a diagram that holds anywhere has none.

* `Diagram.Tells` — an entry of a trace says what the value of a symbol is.
* `Diagram.Labels` — variables, and constants that are put for them, name the elements.

Main result: `Reads.holdsIn_diagram` says that a diagram which holds in any state at
all holds in the one that it was taken from.
-/

namespace InvariantSearch

open List Trace

open Formula hiding id

variable {named : List (String × Var)} {entry : List String × String} {c : Conjunct}
  {r : Formula.Substitution} {x : Var}

/-! ## Variables for elements -/

namespace Diagram

variable {p : Program} {t : Trace} {a : t.domain.Element}

/-- A variable is the one for an element. -/
def Marks (p : Program) (x : Var) (a : t.domain.Element) : Prop :=
  ∃ i, a.1.2 = a.1.1 ++ toString i ∧ x = variableFor p a.1.1 i

theorem Marks.sort_eq (h : Marks p x a) : t.domain.sort a = x.sort := by
  obtain ⟨i, -, rfl⟩ := h
  rfl

theorem Marks.name_ne (h : Marks p x a) {s : Symbol} (hs : s ∈ p.symbols) : x.name ≠ s.name := by
  obtain ⟨i, -, rfl⟩ := h
  exact variableFor_name_ne _ i hs

theorem Marks.element_eq {y : Var} {b : t.domain.Element} (h : Marks p x a) (h' : Marks p y b)
    (hName : x.name = y.name) : a = b := by
  obtain ⟨i, ha, rfl⟩ := h
  obtain ⟨j, hb, rfl⟩ := h'
  obtain ⟨hSort, rfl⟩ := variableFor_injective hName
  exact Subtype.ext (Prod.ext hSort (by rw [ha, hb, hSort]))

open Classical in
/-- Each variable stands for its element. -/
noncomputable def valuation (p : Program) (t : Trace) (vars : List Var) : Valuation t.domain :=
  fun n =>
    if h : ∃ a : t.domain.Element, ∃ x ∈ vars, Marks p x a ∧ x.name = n then
      some (.element (choose h))
    else none

theorem valuation_eq {vars : List Var} (hx : x ∈ vars) (h : Marks p x a) :
    valuation p t vars x.name = some (.element a) := by
  have hSome : ∃ a : t.domain.Element, ∃ y ∈ vars, Marks p y a ∧ y.name = x.name :=
    ⟨a, x, hx, h, rfl⟩
  obtain ⟨y, -, hMarks, hName⟩ := Classical.choose_spec hSome
  rw [valuation, dif_pos hSome, hMarks.element_eq h hName]

theorem apt_valuation {vars : List Var} {s : State t.domain} (hFits : ∀ x ∈ p.symbols, x.Fits s)
    (hVars : ∀ x ∈ vars, ∃ a : t.domain.Element, Marks p x a) :
    Apt p vars s (valuation p t vars) where
  fits := hFits
  bound x hx := by
    obtain ⟨a, ha⟩ := hVars x hx
    exact ⟨a, valuation_eq hx ha, ha.sort_eq⟩
  free n hn := dif_neg fun ⟨_, x, hx, _, hName⟩ => hn x hx hName

/-- An entry of a symbol says what its value is in a state of a trace. -/
def Tells (p : Program) (t : Trace) (index : Nat) (x : Symbol) (entry : List String × String) :
    Prop :=
  ∃ as : List t.domain.Element, Forall₂ t.domain.HasSort (as.map .element) x.args ∧
    as.map (fun a => a.1.2) = entry.1 ∧
    t.meaning p index x.name (as.map .element) = t.valueOf x entry.2

theorem eq_of_names {as bs : List t.domain.Element} {sorts : List String}
    (ha : Forall₂ t.domain.HasSort (as.map .element) sorts)
    (hb : Forall₂ t.domain.HasSort (bs.map .element) sorts)
    (h : as.map (fun a => a.1.2) = bs.map fun b => b.1.2) : as = bs := by
  induction as generalizing bs sorts with
  | nil => exact (map_eq_nil_iff.mp h.symm).symm
  | cons a as ih =>
    cases bs with
    | nil => cases h
    | cons b bs =>
      obtain ⟨sort, sorts, hSort, has, rfl⟩ := forall₂_cons_left_iff.mp ha
      obtain ⟨hSort', hbs⟩ := forall₂_cons.mp hb
      obtain ⟨hName, hNames⟩ := cons.inj h
      rw [show a = b from Subtype.ext (Prod.ext (hSort.trans hSort'.symm) hName), ih has hbs hNames]

theorem Tells.exists_element {index : Nat} {x : Symbol} (h : Tells p t index x entry)
    (hFits : x.Fits (t.meaning p index)) (hFitting : p.Fitting x) (hRelation : x.isRelation = false) :
    ∃ (as : List t.domain.Element) (d : t.domain.Element),
      Forall₂ t.domain.HasSort (as.map .element) x.args ∧
      as.map (fun a => a.1.2) = entry.1 ∧
      t.meaning p index x.name (as.map .element) = .element d ∧ d.1.2 = entry.2 := by
  obtain ⟨as, hSorts, hNames, hMeaning⟩ := h
  have hSort := (hFits (as.map .element)).1 hSorts
  rw [hMeaning, valueOf, if_neg (by simp [hRelation]), elementOf] at hSort
  split at hSort
  · rename_i hHas
    refine ⟨as, ⟨(x.result, entry.2), hHas⟩, hSorts, hNames, ?_, rfl⟩
    rw [hMeaning, valueOf, if_neg (by simp [hRelation]), elementOf_eq hHas]
  · exact absurd hSort (hFitting.result hRelation).1

/-- Elements are named by variables, and those by constants where some are put for them. -/
structure Labels (p : Program) (t : Trace) (index : Nat) (named : List (String × Var))
    (r : Formula.Substitution) (vars : List Var) : Prop where
  marks : ∀ x ∈ vars, ∃ a : t.domain.Element, Marks p x a
  apt : Apt p vars (t.meaning p index) (valuation p t vars)
  hidden : ∀ x ∈ p.symbols, ∀ y ∈ vars, y.name ≠ x.name
  kept : ∀ x ∈ p.symbols, r.lookup x.name = none
  denotes : ∀ entry ∈ named, ∃ a : t.domain.Element, entry.1 = a.1.2 ∧
    Denotes p vars (t.meaning p index) (valuation p t vars)
      ((Formula.id entry.2.name).substitute r) a

namespace Labels

variable {index : Nat} {named : List (String × Var)} {r : Formula.Substitution} {vars : List Var}

theorem sort_eq (h : Labels p t index named r vars) : ∀ x ∈ vars, ∀ y ∈ vars,
    x.name = y.name → x.sort = y.sort := by
  intro x hx y hy hName
  obtain ⟨a, ha⟩ := h.marks x hx
  obtain ⟨b, hb⟩ := h.marks y hy
  rw [← ha.sort_eq, ha.element_eq hb hName, hb.sort_eq]

theorem denotes_args (h : Labels p t index named r vars) {names : List String} {xs : List Var}
    (hxs : Forall₂ (fun e x => (e, x) ∈ named) names xs) :
    ∃ as : List t.domain.Element, as.map (fun a => a.1.2) = names ∧
      Forall₂ (Denotes p vars (t.meaning p index) (valuation p t vars))
        ((xs.map fun x => .id x.name).map (substitute r)) as := by
  induction hxs with
  | nil => exact ⟨[], rfl, .nil⟩
  | cons hHead _ ih =>
    obtain ⟨as, hNames, hDenotes⟩ := ih
    obtain ⟨a, rfl, ha⟩ := h.denotes _ hHead
    exact ⟨a :: as, congrArg (a.1.2 :: ·) hNames, .cons ha hDenotes⟩

/-- **The literal of an entry is accurate** where the entry says what is so. -/
theorem accurate_literal (h : Labels p t index named r vars) {x : Symbol} (hx : x ∈ p.symbols)
    (hFitting : p.Fitting x) (hTells : Tells p t index x entry)
    (hLiteral : literal named x entry = .ok c) :
    Accurate p vars (t.meaning p index) (valuation p t vars) (c.formula.substitute r) := by
  cases literal_eq_ok hLiteral with
  | relation hxs hRelation =>
    obtain ⟨as, hNames, hDenotes⟩ := h.denotes_args hxs
    obtain ⟨bs, hSorts, hNames', hMeaning⟩ := hTells
    have hAccurate := accurate_relation (b := decide (entry.2 = "true")) hx h.apt (h.hidden x hx)
      hDenotes fun hSorts' => by
        rw [eq_of_names hSorts' hSorts (hNames.trans hNames'.symm), hMeaning, valueOf,
          if_pos hRelation, decide_eq_true_iff]
        exact Iff.rfl
    simp only [decide_eq_true_eq] at hAccurate
    dsimp only
    split
    · rename_i hTrue
      rw [substitute_apply (h.kept x hx)]
      rwa [if_pos hTrue] at hAccurate
    · rename_i hTrue
      rw [substitute, substitute_apply (h.kept x hx)]
      rwa [if_neg hTrue] at hAccurate
  | equation hxs hy hRelation =>
    obtain ⟨as, hNames, hDenotes⟩ := h.denotes_args hxs
    obtain ⟨b, hName, hb⟩ := h.denotes _ hy
    rw [substitute, substitute_apply (h.kept x hx)]
    obtain ⟨bs, d, hSorts, hNames', hMeaning, hName'⟩ :=
      hTells.exists_element (h.apt.fits x hx) hFitting hRelation
    refine accurate_equation hx h.apt (h.hidden x hx) hDenotes hb fun hSorts' => ?_
    rw [eq_of_names hSorts' hSorts (hNames.trans hNames'.symm)]
    exact ⟨d, hMeaning, fun hSort => Subtype.ext (Prod.ext hSort (hName.symm.trans hName'.symm))⟩

end Labels

/-- A literal about a constant equates it with the variable for an element that has the name of
its value. -/
theorem constant_of_literal {index : Nat} {x : Symbol} (hFits : x.Fits (t.meaning p index))
    (hFitting : p.Fitting x) (hTells : Tells p t index x entry)
    (hLiteral : literal named x entry = .ok c) (hKind : c.kind = .constant) :
    x.args = [] ∧ x.result ≠ boolSort ∧ ∃ (a : t.domain.Element) (y : Var),
      t.meaning p index x.name [] = .element a ∧ (a.1.2, y) ∈ named ∧
      c.formula = .eq (.id x.name) (.id y.name) := by
  cases literal_eq_ok hLiteral with
  | relation => cases hKind
  | @equation xs y kind hxs hy hRelation hConstant =>
    have hNone := hConstant hKind
    obtain ⟨as, d, hSorts, hNames, hMeaning, hName⟩ :=
      hTells.exists_element hFits hFitting hRelation
    rw [hNone, forall₂_nil_right_iff, map_eq_nil_iff] at hSorts
    subst hSorts
    rw [← hNames, map_nil, forall₂_nil_left_iff] at hxs
    subst hxs
    exact ⟨hNone, (hFitting.result hRelation).1, d, y, hMeaning, hName ▸ hy, rfl⟩

theorem mem_distinctness {xs : List Var} (h : c ∈ distinctness xs) :
    ∃ (i j : Nat) (x y : Var), i < j ∧ xs[i]? = some x ∧ xs[j]? = some y ∧
      c = ⟨.distinct, true, .ne (.id x.name) (.id y.name)⟩ := by
  induction xs with
  | nil => cases h
  | cons x xs ih =>
    rw [distinctness, mem_append] at h
    rcases h with h | h
    · obtain ⟨y, hy, rfl⟩ := mem_map.mp h
      obtain ⟨j, hj⟩ := getElem?_of_mem hy
      exact ⟨0, j + 1, x, y, by omega, rfl, hj, rfl⟩
    · obtain ⟨i, j, y, z, hLt, hi, hj, hEq⟩ := ih h
      exact ⟨i + 1, j + 1, y, z, by omega, hi, hj, hEq⟩

end Diagram

namespace Encoding

open Diagram

variable {e : Encoding} {m : SolverModel} {t : Trace} {entry : String × List String} {name : String}
  {i : Interpretation} {s : TraceState} {vars : List Var} {simplify : Bool} {d : Diagram}

section Elements

variable {index : Nat} (h : e.Reads m t)

include h

theorem Reads.exists_elements {sorts : List String}
    (hSorts : ∀ sort ∈ sorts, sort ≠ boolSort ∧ e.program.hasSort sort = true)
    {bs : List (Term × String)}
    (hbs : bs ∈ tuples (sorts.map (namedElements (e.listedUniverses m)))) :
    ∃ as : List t.domain.Element, Forall₂ t.domain.HasSort (as.map .element) sorts ∧
      as.map (fun a => a.1.2) = bs.map Prod.snd := by
  rw [mem_tuples_iff, forall₂_map_right_iff] at hbs
  induction hbs with
  | nil => exact ⟨[], .nil, rfl⟩
  | @cons b sort bs sorts hb _ ih =>
    obtain ⟨as, hSorted, hNames⟩ := ih fun sort hSort => hSorts sort (mem_cons_of_mem _ hSort)
    obtain ⟨hBool, hSort⟩ := hSorts sort mem_cons_self
    obtain ⟨i, hTerm, hName, hMember⟩ := (mem_namedElements_iff hSort).mp hb
    have hElement : t.HasElement sort b.2 :=
      h.hasElement_iff.mpr ⟨hBool, hSort, i, hName, hTerm ▸ hMember⟩
    exact ⟨⟨(sort, b.2), hElement⟩ :: as, .cons rfl hSorted, congrArg (b.2 :: ·) hNames⟩

variable (hBool : ∀ sort ∈ e.program.sorts, sort ≠ boolSort)

include hBool

theorem Reads.mem_variables (hEntry : entry ∈ t.universes) {i : Nat}
    (hi : (variablesFor e.program entry.1 entry.2)[i]? = some (name, x)) :
    ∃ a : t.domain.Element, a.1 = (entry.1, entry.1 ++ toString i) ∧ name = a.1.2 ∧
      Marks e.program x a := by
  rw [h.universes] at hEntry
  obtain ⟨sort, hSort, rfl⟩ := mem_map.mp hEntry
  rw [variablesFor, getElem?_mapIdx, getElem?_map, Option.map_map,
    Option.map_eq_some_iff] at hi
  obtain ⟨listed, hListed, hEq⟩ := hi
  have hIn := mem_of_getElem? hListed
  rw [namedElements, getElem?_mapIdx, Option.map_eq_some_iff] at hListed
  obtain ⟨term, -, rfl⟩ := hListed
  obtain ⟨rfl, rfl⟩ := Prod.mk.inj hEq
  have hHas : e.program.hasSort sort = true := contains_iff_mem.mpr hSort
  obtain ⟨k, hTerm, hName, hMember⟩ := (mem_namedElements_iff hHas).mp hIn
  have hElement : t.HasElement sort (sort ++ toString i) :=
    h.hasElement_iff.mpr ⟨hBool sort hSort, hHas, k, hName, hTerm ▸ hMember⟩
  exact ⟨⟨(sort, sort ++ toString i), hElement⟩, rfl, rfl, i, rfl, rfl⟩

theorem Reads.marks_of_mem
    (hIn : (name, x) ∈
      (t.universes.map fun entry => variablesFor e.program entry.1 entry.2).flatten) :
    ∃ a : t.domain.Element, name = a.1.2 ∧ Marks e.program x a := by
  obtain ⟨vars, hVars, hIn⟩ := mem_flatten.mp hIn
  obtain ⟨entry, hEntry, rfl⟩ := mem_map.mp hVars
  obtain ⟨i, hi⟩ := getElem?_of_mem hIn
  obtain ⟨a, -, hRest⟩ := h.mem_variables hBool hEntry hi
  exact ⟨a, hRest⟩

theorem Reads.accurate_distinctness (hLabels : Labels e.program t index named r vars)
    (hEntry : entry ∈ t.universes)
    (hNamed : ∀ pair ∈ variablesFor e.program entry.1 entry.2, pair ∈ named)
    (hc : c ∈ distinctness ((variablesFor e.program entry.1 entry.2).map Prod.snd)) :
    Accurate e.program vars (t.meaning e.program index) (valuation e.program t vars)
      (c.formula.substitute r) := by
  obtain ⟨i, j, x, y, hLt, hi, hj, rfl⟩ := mem_distinctness hc
  rw [getElem?_map, Option.map_eq_some_iff] at hi hj
  obtain ⟨⟨name, x⟩, hi, rfl⟩ := hi
  obtain ⟨⟨name', y⟩, hj, rfl⟩ := hj
  obtain ⟨a, ha, rfl, -⟩ := h.mem_variables hBool hEntry hi
  obtain ⟨b, hb, rfl, -⟩ := h.mem_variables hBool hEntry hj
  obtain ⟨a', ha', hDenotes⟩ := hLabels.denotes _ (hNamed _ (mem_of_getElem? hi))
  obtain ⟨b', hb', hDenotes'⟩ := hLabels.denotes _ (hNamed _ (mem_of_getElem? hj))
  rw [substitute]
  refine accurate_distinct hDenotes hDenotes' ?_
  rintro rfl
  rw [← hb', ha, hb] at ha'
  exact absurd (elementName_injective ha') (by omega)

end Elements

section States

variable {index : Nat} (hNodup : (e.program.symbols.map Symbol.name).Nodup)
  (hFitting : ∀ x ∈ e.program.symbols, e.program.Fitting x) (h : e.Reads m t)
  (hIndex : index < e.keys.length)

include hNodup hFitting h hIndex

theorem Reads.tells_of_readSymbol {x : Symbol} (hx : x ∈ e.program.symbols) {k : Nat}
    (hSymbol : e.symbol x k = e.symbol x index)
    (hRead : e.readSymbol m (e.listedUniverses m) x k = .ok i) :
    x.name = i.symbol ∧ ∀ entry ∈ i.entries, Tells e.program t index x entry := by
  obtain ⟨f, hf, hValues⟩ := h.eval hNodup hx (hFitting x hx) fun _ => hIndex
  simp only [readSymbol, bind_eq_ok, pure_eq_ok, mapError_eq_ok] at hRead
  obtain ⟨g, hg, entries, hEntries, rfl⟩ := hRead
  obtain rfl := Except.ok.inj (hf.symm.trans (hSymbol.symm.trans hg))
  refine ⟨rfl, fun entry hEntry => ?_⟩
  obtain ⟨bs, hbs, hEntry⟩ := mem_of_mapM_eq_ok hEntries hEntry
  obtain ⟨value, hValue, hEntry⟩ := bind_eq_ok.mp hEntry
  obtain rfl := pure_eq_ok.mp hEntry
  obtain ⟨as, hSorts, hNames⟩ := h.exists_elements (hFitting x hx).args hbs
  obtain ⟨value', hValue', hEval⟩ := hValues bs hbs
  obtain rfl := Except.ok.inj (hValue.symm.trans hValue')
  refine ⟨as, hSorts, hNames, ?_⟩
  refine meaning_of_forall₂ (Program.find?_of_nodup hNodup hx) hSorts ?_
  rw [map_map, ← hEval, ← hNames]
  rfl

/-- **The entries of a trace say what symbols mean in its states.** -/
theorem Reads.tells (hState : t.state index = .ok s) (hi : i ∈ t.immutable ∨ i ∈ s) :
    ∃ x ∈ e.program.symbols, x.name = i.symbol ∧
      ∀ entry ∈ i.entries, Tells e.program t index x entry := by
  rcases hi with hi | hi
  · obtain ⟨x, hx, hRead⟩ := exists_left_of_forall₂ h.immutable hi
    obtain ⟨hx, hImmutable⟩ := mem_filter.mp hx
    exact ⟨x, hx, h.tells_of_readSymbol hNodup hFitting hIndex hx
      (symbol_of_immutable e e rfl (by simpa using hImmutable) 0 index) hRead⟩
  · obtain ⟨s', hState', hs'⟩ := h.state hIndex
    rw [Trace.state, hState'] at hState
    obtain rfl := Except.ok.inj hState
    obtain ⟨x, hx, hRead⟩ := exists_left_of_forall₂ hs' hi
    obtain ⟨hx, -⟩ := mem_filter.mp hx
    exact ⟨x, hx, h.tells_of_readSymbol hNodup hFitting hIndex hx rfl hRead⟩

/-- The literals of a diagram come from different elements of a universe, or from an entry. -/
theorem Reads.literal_cases {immutable mutables : List (List Conjunct)}
    (hImmutable : t.immutable.mapM (literals e.program named) = .ok immutable)
    (hState : t.state index = .ok s) (hMutables : s.mapM (literals e.program named) = .ok mutables)
    (hc : c ∈ immutable.flatten ∨ c ∈ mutables.flatten) :
    ∃ x ∈ e.program.symbols, ∃ entry, Tells e.program t index x entry ∧
      literal named x entry = .ok c := by
  obtain ⟨i, hi, cs, hcs, hc⟩ : ∃ i, (i ∈ t.immutable ∨ i ∈ s) ∧ ∃ cs,
      literals e.program named i = .ok cs ∧ c ∈ cs := by
    rcases hc with hc | hc
    · obtain ⟨cs, hcs, hc⟩ := mem_flatten.mp hc
      obtain ⟨i, hi, hLiterals⟩ := mem_of_mapM_eq_ok hImmutable hcs
      exact ⟨i, Or.inl hi, cs, hLiterals, hc⟩
    · obtain ⟨cs, hcs, hc⟩ := mem_flatten.mp hc
      obtain ⟨i, hi, hLiterals⟩ := mem_of_mapM_eq_ok hMutables hcs
      exact ⟨i, Or.inr hi, cs, hLiterals, hc⟩
  obtain ⟨x, hx, hName, hTells⟩ := h.tells hNodup hFitting hIndex hState hi
  have hSymbol : e.program.symbol? x.name = some x := Program.find?_of_nodup hNodup hx
  rw [literals, ← hName, hSymbol] at hcs
  dsimp only at hcs
  split at hcs
  · cases hcs
    cases hc
  · obtain ⟨entry, hEntry, hLiteral⟩ := mem_of_mapM_eq_ok hcs hc
    exact ⟨x, hx, entry, hTells entry hEntry, hLiteral⟩

variable (hBool : ∀ sort ∈ e.program.sorts, sort ≠ boolSort)

include hBool

/-- The elements of a state are labelled, where constants are put for variables that stand for
elements of the same names. -/
theorem Reads.labels
    (hNamed : named = (t.universes.map fun entry => variablesFor e.program entry.1 entry.2).flatten)
    (hr : ∀ entry ∈ r, ∃ k ∈ e.program.symbols, k.args = [] ∧ k.result ≠ boolSort ∧ entry.2 = .id
      k.name ∧ ∃ (a : t.domain.Element) (y : Var), t.meaning e.program index k.name [] = .element a
      ∧ (a.1.2, y) ∈ named ∧ entry.1 = y.name)
    (hVars : vars = (named.map Prod.snd).filter fun x => (r.lookup x.name).isNone) :
    Labels e.program t index named r vars := by
  subst hNamed
  have hMarks : ∀ x ∈ vars, ∃ a : t.domain.Element, Marks e.program x a := by
    intro x hx
    rw [hVars] at hx
    obtain ⟨entry, hEntry, rfl⟩ := mem_map.mp (mem_filter.mp hx).1
    exact (h.marks_of_mem hBool hEntry).imp fun _ ha => ha.2
  have hHidden : ∀ x ∈ e.program.symbols, ∀ y ∈ vars, y.name ≠ x.name := by
    intro x hx y hy
    obtain ⟨a, ha⟩ := hMarks y hy
    exact ha.name_ne hx
  have hApt := apt_valuation (h.fits hNodup hFitting hIndex) hMarks
  refine ⟨hMarks, hApt, hHidden, fun x hx => ?_, fun entry hEntry => ?_⟩
  · cases hLookup : r.lookup x.name with
    | none => rfl
    | some g =>
      obtain ⟨k, -, -, -, -, a, y, -, hy, hName⟩ := hr _ (mem_of_lookup hLookup)
      obtain ⟨b, -, hb⟩ := h.marks_of_mem hBool hy
      exact absurd hName.symm (hb.name_ne hx)
  · obtain ⟨a, ha, hMark⟩ := h.marks_of_mem hBool hEntry
    rw [substitute]
    cases hLookup : r.lookup entry.2.name with
    | none =>
      have hIn : entry.2 ∈ vars := by
        rw [hVars]
        exact mem_filter.mpr ⟨mem_map_of_mem hEntry, by simp [hLookup]⟩
      exact ⟨a, ha, denotes_var hIn (valuation_eq hIn hMark) hMark.sort_eq⟩
    | some g =>
      obtain ⟨k, hk, hArgs, hResult, hg, b, y, hValue, hy, hName⟩ := hr _ (mem_of_lookup hLookup)
      obtain rfl : g = .id k.name := hg
      obtain ⟨c, hc, hMark'⟩ := h.marks_of_mem hBool hy
      -- the variable has only one element
      obtain rfl := hMark.element_eq hMark' hName
      exact ⟨b, ha.trans hc.symm, denotes_constant hk hArgs hResult hApt (hHidden k hk) hValue⟩

/-- **The literals of a diagram are accurate** in the state that it was taken from. -/
theorem Reads.exists_labels (hDiagram : ofTrace e.program t index simplify = .ok d) :
    ∃ named r, Labels e.program t index named r d.vars ∧ ∀ c ∈ d.conjuncts,
      Accurate e.program d.vars (t.meaning e.program index) (valuation e.program t d.vars)
        c.formula := by
  simp only [ofTrace, bind_eq_ok, mapError_eq_ok, pure_eq_ok] at hDiagram
  obtain ⟨immutable, hImmutable, state, hState, mutables, hMutables, hd⟩ := hDiagram
  set universes := t.universes.map fun entry => variablesFor e.program entry.1 entry.2
    with hUniverses
  have hEntries := fun c =>
    h.literal_cases hNodup hFitting hIndex hImmutable hState hMutables (c := c)
  obtain ⟨r, hr, hVars, hConjuncts⟩ := exists_substitution
    ⟨universes.flatten.map Prod.snd, universes.flatMap (fun vars => distinctness (vars.map Prod.snd))
      ++ immutable.flatten ++ mutables.flatten⟩ simplify
  rw [hd] at hVars hConjuncts
  have hLabels : Labels e.program t index universes.flatten r d.vars := by
    refine h.labels hNodup hFitting hIndex hBool rfl (fun entry hEntry => ?_) hVars
    obtain ⟨c, hc, hKind, target, rest, hChildren, hTarget⟩ := mem_constantNames (hr entry hEntry)
    replace hc := (mem_filter.mp hc).1
    simp only [mem_append, mem_flatMap, or_assoc] at hc
    rcases hc with ⟨vars, -, hc⟩ | hc
    · obtain ⟨i, j, x, y, -, -, -, rfl⟩ := mem_distinctness hc
      cases hKind
    · obtain ⟨x, hx, told, hTells, hLiteral⟩ := hEntries c hc
      obtain ⟨hArgs, hResult, a, y, hValue, hy, hFormula⟩ := constant_of_literal
        (h.fits hNodup hFitting hIndex x hx) (hFitting x hx) hTells hLiteral hKind
      rw [hFormula] at hChildren
      obtain ⟨hk, hChildren⟩ := cons.inj hChildren
      obtain ⟨rfl, -⟩ := cons.inj hChildren
      exact ⟨x, hx, hArgs, hResult, hk.symm, a, y, hValue, hy, hTarget⟩
  refine ⟨_, r, hLabels, fun c hc => ?_⟩
  obtain ⟨c', hc', hEq⟩ := hConjuncts c hc
  rw [hEq]
  simp only [mem_append, mem_flatMap, or_assoc] at hc'
  rcases hc' with ⟨vars, hvars, hc'⟩ | hc'
  · obtain ⟨entry, hEntry, rfl⟩ := mem_map.mp (hUniverses ▸ hvars)
    exact h.accurate_distinctness hBool hLabels hEntry
      (fun pair hPair => mem_flatten.mpr ⟨_, hvars, hPair⟩) hc'
  · obtain ⟨x, hx, told, hTells, hLiteral⟩ := hEntries c' hc'
    exact hLabels.accurate_literal hx (hFitting x hx) hTells hLiteral

/-- **A diagram that holds anywhere holds in the state it was taken from.** -/
theorem Reads.holdsIn_diagram (hDiagram : ofTrace e.program t index simplify = .ok d)
    {D : Domain} {s : State D} (hFits : ∀ x ∈ e.program.symbols, x.Fits s)
    (hMatches : ExistsOf d.vars (d.Matches s) .empty) :
    d.toFormula.HoldsIn (t.meaning e.program index) := by
  obtain ⟨named, r, hLabels, hAccurate⟩ := h.exists_labels hNodup hFitting hIndex hBool hDiagram
  obtain ⟨w, hBound, hFree, hw⟩ := hMatches.exists_bound hLabels.sort_eq
  rw [holdsIn_toFormula]
  · refine existsOf_of_bound hLabels.apt.bound hLabels.apt.free fun f hf => ?_
    obtain ⟨c, hc, rfl⟩ := mem_map.mp hf
    exact (hAccurate c (mem_filter.mp hc).1).resolve_right fun hNever =>
      hNever ⟨hFits, hBound, hFree⟩ (hw _ hf)
  · intro x hx
    obtain ⟨a, ha⟩ := hLabels.marks x hx
    exact ⟨a, ha.sort_eq⟩

end States

end Encoding

end InvariantSearch
