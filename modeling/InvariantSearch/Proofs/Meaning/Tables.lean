import InvariantSearch.Proofs.Encoding.Diagrams
import Mathlib.Data.List.Pairwise

/-!
# States that are told completely

A trace may say less than all about a state, or name two elements alike.

* `Trace.Tabulates` — a trace gives every symbol of a state one value for each tuple of
  elements, lists each sort once, and has different names for all elements.
* `Trace.Embeds` — a map of the elements of a state into a structure that keeps elements
  of a sort apart, and what the symbols do with them.

Main results: the entries of such a trace say what the symbols mean
(`Trace.Tabulates.meaning_eq`, `Trace.Tabulates.exists_entry`), and each of its elements has
a variable of its own (`Diagram.IsVarOf.element_eq`, `Diagram.IsVarOf.elementVar_eq`).
-/

namespace InvariantSearch

open List Symbol

variable {entry : List String × String}

namespace Trace

variable {t : Trace} {p : Program} {index : Nat} {as : List t.domain.Element} {sorts : List String}
  {x : Symbol}

/-- All that a trace says of the symbols in a state. -/
def interpretations (t : Trace) (index : Nat) : TraceState :=
  t.immutable ++ t.states[index]?.getD []

/-- A symbol has a meaning in a state of a trace. -/
def Interprets (t : Trace) (index : Nat) (name : String) : Prop :=
  ∃ i ∈ t.interpretations index, i.symbol = name

/-- Each sort has one universe, and no two elements have the same name. -/
structure ListsOnce (t : Trace) : Prop where
  sorts : (t.universes.map Prod.fst).Nodup
  ne_bool : ∀ entry ∈ t.universes, entry.1 ≠ boolSort
  names : (t.universes.flatMap Prod.snd).Nodup

/-- An interpretation has one entry for each tuple of elements of a symbol's sorts, and the
values of constants and functions are elements. -/
structure Covers (t : Trace) (x : Symbol) (i : Interpretation) : Prop where
  symbol : i.symbol = x.name
  once : (i.entries.map Prod.fst).Nodup
  total : ∀ names, names ∈ i.entries.map Prod.fst ↔ Forall₂ t.HasElement x.args names
  values : x.isRelation = false → ∀ entry ∈ i.entries, t.HasElement x.result entry.2

/-- A state of a trace is told completely: its symbols have one value for each tuple. -/
structure Tabulates (p : Program) (t : Trace) (index : Nat) : Prop where
  lists : t.ListsOnce
  inRange : index < t.states.length
  once : ((t.interpretations index).map Interpretation.symbol).Nodup
  covers : ∀ i ∈ t.interpretations index, ∃ x ∈ p.symbols, t.Covers x i

/-- The elements of a trace are mapped into a structure: elements of a sort to different ones
of it, such that relations and functions go along. Derived relations may differ. -/
structure Embeds (p : Program) (t : Trace) (index : Nat) {D : Domain}
    (h : t.domain.Element → D.Element) (s : State D) : Prop where
  sort : ∀ a, D.sort (h a) = t.domain.sort a
  injective : ∀ a b, t.domain.sort a = t.domain.sort b → h a = h b → a = b
  relations : ∀ x ∈ p.symbols, t.Interprets index x.name → x.isRelation = true →
    x.isDerived = false → ∀ as : List t.domain.Element,
      Forall₂ t.domain.HasSort (as.map .element) x.args →
      ((s x.name (as.map fun a => .element (h a))).Holds ↔
        (t.meaning p index x.name (as.map .element)).Holds)
  functions : ∀ x ∈ p.symbols, t.Interprets index x.name → x.isRelation = false →
    ∀ (as : List t.domain.Element) (a : t.domain.Element),
      Forall₂ t.domain.HasSort (as.map .element) x.args →
      t.meaning p index x.name (as.map .element) = .element a →
      s x.name (as.map fun a => .element (h a)) = .element (h a)

/-! ## Elements and entries -/

theorem ListsOnce.hasElement_iff (h : t.ListsOnce) {sort name : String} :
    t.HasElement sort name ↔ ∃ names, (sort, names) ∈ t.universes ∧ name ∈ names := by
  constructor
  · rintro ⟨-, names, hNames, hName⟩
    rw [elements] at hNames
    split at hNames
    · rename_i hLookup
      cases hNames
      exact ⟨names, mem_of_lookup hLookup, hName⟩
    · cases hNames
  · rintro ⟨names, hEntry, hName⟩
    have hLookup : t.universes.lookup sort = some names :=
      lookup_eq_some_of_forall ⟨_, hEntry, rfl⟩ fun entry hIn hSort =>
        congrArg Prod.snd (inj_on_of_nodup_map h.sorts hIn hEntry hSort)
    exact ⟨h.ne_bool _ hEntry, names, by rw [elements, hLookup], hName⟩

/-- **Elements are known by their names.** -/
theorem ListsOnce.eq_of_name (h : t.ListsOnce) {a b : t.domain.Element} (hName : a.1.2 = b.1.2) :
    a = b := by
  obtain ⟨names, hNames, ha⟩ := h.hasElement_iff.mp a.2
  obtain ⟨names', hNames', hb⟩ := h.hasElement_iff.mp b.2
  have hPairwise := (nodup_flatMap.mp h.names).2
  by_contra hNe
  have hListed : ((a.1.1, names) : String × List String) ≠ (b.1.1, names') := fun hEq =>
    hNe (Subtype.ext (Prod.ext (Prod.mk.inj hEq).1 hName))
  have : Std.Symm fun x y : String × List String => Disjoint x.2 y.2 :=
    ⟨fun _ _ hDisjoint _ hx hy => hDisjoint hy hx⟩
  exact hPairwise.forall hNames hNames' hListed ha (hName ▸ hb)

theorem hasSort_map_element :
    Forall₂ t.domain.HasSort (as.map .element) sorts ↔
      Forall₂ (fun a sort => a.1.1 = sort) as sorts := by
  rw [forall₂_map_left_iff]
  exact Iff.rfl

theorem exists_elements {names : List String} (h : Forall₂ t.HasElement sorts names) :
    ∃ as : List t.domain.Element, Forall₂ t.domain.HasSort (as.map .element) sorts ∧
      as.map (fun a => a.1.2) = names := by
  induction h with
  | nil => exact ⟨[], .nil, rfl⟩
  | @cons sort name sorts names hHead _ ih =>
    obtain ⟨as, hSorts, hNames⟩ := ih
    exact ⟨⟨(sort, name), hHead⟩ :: as, .cons rfl hSorts, congrArg (name :: ·) hNames⟩

theorem forall₂_hasElement (h : Forall₂ t.domain.HasSort (as.map .element) sorts) :
    Forall₂ t.HasElement sorts (as.map fun a => a.1.2) := by
  rw [hasSort_map_element] at h
  induction h with
  | nil => exact .nil
  | @cons a sort as sorts hHead _ ih => exact .cons (hHead ▸ a.2) ih

theorem Tabulates.eval (h : t.Tabulates p index) {i : Interpretation}
    (hi : i ∈ t.interpretations index) (hCovers : t.Covers x i) (hEntry : entry ∈ i.entries) :
    t.eval x.name entry.1 index = .ok entry.2 := by
  have hValue : ∀ j ∈ t.interpretations index, j.symbol = x.name →
      j.value? entry.1 = some entry.2 := by
    intro j hj hSymbol
    obtain rfl : j = i := inj_on_of_nodup_map h.once hj hi (hSymbol.trans hCovers.symbol.symm)
    exact lookup_eq_some_of_forall ⟨_, hEntry, rfl⟩ fun other hOther hArgs =>
      congrArg Prod.snd (inj_on_of_nodup_map hCovers.once hOther hEntry hArgs)
  obtain ⟨state, hState⟩ : ∃ state, t.states[index]? = some state :=
    ⟨_, getElem?_eq_getElem h.inRange⟩
  rw [interpretations, hState, Option.getD_some] at hi hValue
  by_cases hImmutable : ∃ j ∈ t.immutable, j.symbol = x.name
  · rw [Trace.eval, valueIn?_eq_some hImmutable fun j hj =>
      hValue j (mem_append_left _ hj)]
    rfl
  · have hIn : i ∈ state := (mem_append.mp hi).resolve_left fun hIn =>
      hImmutable ⟨i, hIn, hCovers.symbol⟩
    rw [Trace.eval, valueIn?_eq_none fun j hj hSymbol => hImmutable ⟨j, hj, hSymbol⟩]
    have hTold := valueIn?_eq_some ⟨i, hIn, hCovers.symbol⟩ fun j hj =>
      hValue j (mem_append_right _ hj)
    simp only [Trace.state, hState, bind, Except.bind, hTold]
    rfl

theorem Tabulates.meaning_eq (h : t.Tabulates p index) (hNodup : (p.symbols.map name).Nodup)
    {i : Interpretation} (hi : i ∈ t.interpretations index) (hx : x ∈ p.symbols)
    (hCovers : t.Covers x i) (hEntry : entry ∈ i.entries) (hAs : as.map (fun a => a.1.2) = entry.1) :
    Forall₂ t.domain.HasSort (as.map .element) x.args ∧
      t.meaning p index x.name (as.map .element) = t.valueOf x entry.2 := by
  obtain ⟨bs, hSorts, hBs⟩ := exists_elements
    ((hCovers.total entry.1).mp (mem_map_of_mem hEntry))
  obtain rfl : as = bs :=
    map_injective_iff.mpr (fun a b => h.lists.eq_of_name) (hAs.trans hBs.symm)
  refine ⟨hSorts, meaning_of_forall₂ (Program.find?_of_nodup hNodup hx) hSorts ?_⟩
  rw [map_map, ← h.eval hi hCovers hEntry, ← hAs]
  rfl

theorem exists_map_element {D : Domain} {args : List (Value D.Element)}
    (hBool : ∀ sort ∈ sorts, sort ≠ boolSort) (h : Forall₂ D.HasSort args sorts) :
    ∃ as : List D.Element, args = as.map .element := by
  induction h with
  | nil => exact ⟨[], rfl⟩
  | @cons arg sort args sorts hHead _ ih =>
    rw [forall_mem_cons] at hBool
    obtain ⟨as, rfl⟩ := ih hBool.2
    cases arg with
    | truth q => exact absurd hHead hBool.1
    | element a => exact ⟨a :: as, rfl⟩

theorem Tabulates.exists_entry (h : t.Tabulates p index)
    (hNodup : (p.symbols.map name).Nodup) (hx : x ∈ p.symbols)
    (hInterprets : t.Interprets index x.name)
    (hSorts : Forall₂ t.domain.HasSort (as.map .element) x.args) :
    ∃ i ∈ t.interpretations index, t.Covers x i ∧ ∃ entry ∈ i.entries,
      as.map (fun a => a.1.2) = entry.1 ∧
        t.meaning p index x.name (as.map .element) = t.valueOf x entry.2 := by
  obtain ⟨i, hi, hSymbol⟩ := hInterprets
  obtain ⟨y, hy, hCovers⟩ := h.covers i hi
  obtain rfl : y = x :=
    inj_on_of_nodup_map hNodup hy hx (hCovers.symbol.symm.trans hSymbol)
  obtain ⟨entry, hEntry, hArgs⟩ := mem_map.mp ((hCovers.total _).mpr (forall₂_hasElement hSorts))
  exact ⟨i, hi, hCovers, entry, hEntry, hArgs.symm,
    (h.meaning_eq hNodup hi hx hCovers hEntry hArgs.symm).2⟩

theorem Tabulates.fits (h : t.Tabulates p index) (hNodup : (p.symbols.map name).Nodup)
    (hx : x ∈ p.symbols) (hFitting : p.Fitting x) (hInterprets : t.Interprets index x.name) :
    x.Fits (t.meaning p index) := by
  intro args
  refine ⟨fun hSorts => ?_, meaning_of_not_forall₂ (Program.find?_of_nodup hNodup hx)⟩
  obtain ⟨as, rfl⟩ := exists_map_element (fun sort hSort => (hFitting.args sort hSort).1) hSorts
  obtain ⟨i, -, hCovers, entry, hEntry, -, hMeaning⟩ := h.exists_entry hNodup hx hInterprets hSorts
  rw [hMeaning, valueOf]
  split
  · rename_i hRelation
    exact result_of_isRelation hRelation
  · rename_i hRelation
    rw [elementOf_eq (hCovers.values (by simpa using hRelation) entry hEntry)]
    exact rfl

/-- **A state is embedded in itself.** -/
theorem embeds_self (p : Program) (t : Trace) (index : Nat) :
    t.Embeds p index id (t.meaning p index) where
  sort _ := rfl
  injective _ _ _ h := h
  relations _ _ _ _ _ _ _ := Iff.rfl
  functions _ _ _ _ _ _ _ h := h

end Trace

namespace Diagram

variable {p : Program} {t : Trace} {index : Nat} {a : t.domain.Element} {x y : Var}

/-! ## Variables of elements -/

/-- The variables for all elements of a trace, each with the name of its element. -/
def elementVars (p : Program) (t : Trace) : List (String × Var) :=
  (t.universes.map fun entry => variablesFor p entry.1 entry.2).flatten

/-- A variable is the one for an element. -/
def IsVarOf (p : Program) (t : Trace) (a : t.domain.Element) (x : Var) : Prop :=
  ∃ names i, (a.1.1, names) ∈ t.universes ∧ names[i]? = some a.1.2 ∧ x = variableFor p a.1.1 i

theorem IsVarOf.sort_eq (h : IsVarOf p t a x) : x.sort = t.domain.sort a := by
  obtain ⟨_, _, -, -, rfl⟩ := h
  rfl

theorem IsVarOf.name_ne (h : IsVarOf p t a y) {x : Symbol} (hx : x ∈ p.symbols) :
    y.name ≠ x.name := by
  obtain ⟨_, i, -, -, rfl⟩ := h
  exact variableFor_name_ne _ i hx

theorem mem_elementVars_iff {name : String} (h : t.ListsOnce) :
    (name, x) ∈ elementVars p t ↔ ∃ a : t.domain.Element, a.1.2 = name ∧ IsVarOf p t a x := by
  simp only [elementVars, mem_flatten, mem_map, Prod.exists]
  constructor
  · rintro ⟨_, ⟨sort, names, hEntry, rfl⟩, hIn⟩
    obtain ⟨i, hi, hEq⟩ := mem_mapIdx.mp hIn
    obtain ⟨rfl, rfl⟩ := Prod.mk.inj hEq
    exact ⟨⟨(sort, names[i]), h.hasElement_iff.mpr ⟨names, hEntry, getElem_mem hi⟩⟩, rfl,
      names, i, hEntry, getElem?_eq_getElem hi, rfl⟩
  · rintro ⟨a, rfl, names, i, hEntry, hi, rfl⟩
    refine ⟨_, ⟨a.1.1, names, hEntry, rfl⟩, mem_of_getElem? (i := i) ?_⟩
    rw [variablesFor, getElem?_mapIdx, hi, Option.map_some]

theorem exists_isVarOf (p : Program) (h : t.ListsOnce) (a : t.domain.Element) :
    ∃ x, IsVarOf p t a x := by
  obtain ⟨names, hEntry, hName⟩ := h.hasElement_iff.mp a.2
  obtain ⟨i, hi⟩ := getElem?_of_mem hName
  exact ⟨_, names, i, hEntry, hi, rfl⟩

theorem IsVarOf.element_eq (h : t.ListsOnce) {b : t.domain.Element} (ha : IsVarOf p t a x)
    (hb : IsVarOf p t b y) (hName : x.name = y.name) : a = b := by
  obtain ⟨names, i, hEntry, hi, rfl⟩ := ha
  obtain ⟨names', j, hEntry', hj, rfl⟩ := hb
  obtain ⟨hSort, rfl⟩ := variableFor_injective hName
  obtain rfl : names = names' :=
    congrArg Prod.snd (inj_on_of_nodup_map h.sorts hEntry hEntry' hSort)
  exact h.eq_of_name (Option.some.inj (hi.symm.trans hj))

theorem IsVarOf.unique (h : t.ListsOnce) (hx : IsVarOf p t a x) (hy : IsVarOf p t a y) : x = y := by
  obtain ⟨names, i, hEntry, hi, rfl⟩ := hx
  obtain ⟨names', j, hEntry', hj, rfl⟩ := hy
  obtain rfl : names = names' :=
    congrArg Prod.snd (inj_on_of_nodup_map h.sorts hEntry hEntry' rfl)
  have hNodup : names.Nodup := (List.nodup_flatMap.mp h.names).1 _ hEntry
  rw [(List.getElem?_inj (List.getElem?_eq_some_iff.mp hi).1 hNodup).mp (hi.trans hj.symm)]

theorem IsVarOf.elementVar_eq (h : t.ListsOnce) (hx : IsVarOf p t a x) :
    elementVar (elementVars p t) a.1.2 = .ok (.id x.name) := by
  have hLookup : (elementVars p t).reverse.lookup a.1.2 = some x := by
    refine lookup_eq_some_of_forall
      ⟨(a.1.2, x), mem_reverse.mpr ((mem_elementVars_iff h).mpr ⟨a, rfl, hx⟩), rfl⟩ ?_
    rintro ⟨name, y⟩ hEntry rfl
    obtain ⟨b, hName, hy⟩ := (mem_elementVars_iff h).mp (mem_reverse.mp hEntry)
    obtain rfl := h.eq_of_name hName
    exact hy.unique h hx
  rw [elementVar, hLookup]

theorem exists_mapM_elementVar (h : t.ListsOnce) (as : List t.domain.Element) :
    ∃ xs, Forall₂ (IsVarOf p t) as xs ∧
      (as.map fun a => a.1.2).mapM (elementVar (elementVars p t)) =
        .ok (xs.map fun x => .id x.name) := by
  induction as with
  | nil => exact ⟨[], .nil, rfl⟩
  | cons a as ih =>
    obtain ⟨x, hx⟩ := exists_isVarOf p h a
    obtain ⟨xs, hxs, hMap⟩ := ih
    refine ⟨x :: xs, .cons hx hxs, ?_⟩
    rw [map_cons, mapM_cons, hx.elementVar_eq h, hMap]
    rfl

end Diagram

end InvariantSearch
