import InvariantSearch.Proofs.Meaning.Constants

/-!
# Extensions of a state

The diagram of a finite state holds exactly in the extensions of the state: in the
structures that it can be embedded in.

A diagram names an element by a variable. Putting constants for some of them changes nothing
(`Flat.holdsIn_simplifyConstants`).

* `Diagram.Names` — the variables stand for the images of the elements under a map.
* `Diagram.Honours` — a map goes along with an entry of the trace.

With such names, each literal says that the map goes along with one entry
(`Names.holds_literal`), and the inequations that it keeps elements of a sort apart
(`Names.holds_differences`).

Main result: `holdsIn_ofTrace_iff` says that the diagram of a state that is told completely
holds exactly where there is an embedding.
-/

namespace InvariantSearch

open List Formula Trace

open Symbol hiding kind name

variable {entry : List String × String} {cs : List Conjunct} {x : Symbol} {c : Conjunct}
  {i : Interpretation}

namespace Diagram

variable {p : Program} {t : Trace} {index : Nat}

/-! ## Literals and entries -/

/-- A map of elements goes along with an entry of a symbol. -/
def Honours (t : Trace) (x : Symbol) {D : Domain} (h : t.domain.Element → D.Element) (s : State D)
    (entry : List String × String) : Prop :=
  ∀ as : List t.domain.Element, as.map (fun a => a.1.2) = entry.1 →
    if x.isRelation then
      (s x.name (as.map fun a => .element (h a))).Holds ↔ entry.2 = "true"
    else
      ∀ b : t.domain.Element, b.1.2 = entry.2 →
        s x.name (as.map fun a => .element (h a)) = .element (h b)

/-- The variables of elements stand for the images of the elements. -/
structure Names (p : Program) (t : Trace) {D : Domain} (w : Valuation D)
    (h : t.domain.Element → D.Element) : Prop where
  value : ∀ a x, IsVarOf p t a x → w x.name = some (.element (h a))
  free : ∀ x ∈ p.symbols, w x.name = none

theorem Names.value_apply {D : Domain} {s : State D} {w : Valuation D}
    {h : t.domain.Element → D.Element} (hNames : Names p t w h) (hx : x ∈ p.symbols)
    {as : List t.domain.Element} {xs : List Var} (hxs : Forall₂ (IsVarOf p t) as xs) :
    (Formula.apply x.name (xs.map fun y => .id y.name)).value (fun _ => s) 0 w =
      s x.name (as.map fun a => .element (h a)) := by
  have hValues : (xs.map fun y => Formula.id y.name).map (Formula.value (fun _ => s) 0 w) =
      as.map fun a => .element (h a) := by
    induction hxs with
    | nil => rfl
    | cons hHead _ ih =>
      rw [map_cons, map_cons, map_cons, value_id_of_some (hNames.value _ _ hHead), ih]
  cases hxs with
  | nil => exact value_id_of_none (hNames.free x hx)
  | cons hHead hTail =>
    rw [← hValues, ← values_eq_map]
    rfl

/-- The formula of a literal about a symbol: the symbol is applied to the variables of some
elements, and related to the value. -/
inductive IsLiteralOf (p : Program) (t : Trace) (x : Symbol) (entry : List String × String) :
    Conjunct → Prop
  | relation {as : List t.domain.Element} {xs : List Var} (hAs : as.map (fun a => a.1.2) = entry.1)
      (hxs : Forall₂ (IsVarOf p t) as xs) (hKind : x.isRelation = true) :
      IsLiteralOf p t x entry ⟨.relation, true,
        if entry.2 = "true" then .apply x.name (xs.map fun y => .id y.name)
        else .not (.apply x.name (xs.map fun y => .id y.name))⟩
  | equation {as : List t.domain.Element} {xs : List Var} {b : t.domain.Element} {y : Var}
      {kind : ConjunctKind} (hAs : as.map (fun a => a.1.2) = entry.1)
      (hxs : Forall₂ (IsVarOf p t) as xs) (hKind : x.isRelation = false)
      (hConstant : kind = .constant → x.args = [] ∧ xs = [])
      (hb : b.1 = (x.result, entry.2)) (hy : IsVarOf p t b y) :
      IsLiteralOf p t x entry ⟨kind, true,
        .eq (.apply x.name (xs.map fun y => .id y.name)) (.id y.name)⟩

/-- **Every entry has a literal.** -/
theorem exists_literal (h : t.ListsOnce) (hCovers : t.Covers x i) (hEntry : entry ∈ i.entries) :
    ∃ c, literal (elementVars p t) x entry = .ok c ∧ IsLiteralOf p t x entry c := by
  obtain ⟨as, hSorts, hAs⟩ := exists_elements
    ((hCovers.total entry.1).mp (mem_map_of_mem hEntry))
  obtain ⟨xs, hxs, hMap⟩ := exists_mapM_elementVar (p := p) h as
  rw [hAs] at hMap
  have hValue : x.isRelation = false → ∃ (b : t.domain.Element) (y : Var),
      b.1 = (x.result, entry.2) ∧ IsVarOf p t b y ∧
        elementVar (elementVars p t) entry.2 = .ok (.id y.name) := by
    intro hRelation
    have hElement := hCovers.values hRelation entry hEntry
    obtain ⟨y, hy⟩ := exists_isVarOf p h (⟨(x.result, entry.2), hElement⟩ : t.domain.Element)
    exact ⟨_, y, rfl, hy, hy.elementVar_eq h⟩
  rw [literal, hMap]
  cases hKind : x.kind with
  | relation => exact ⟨_, rfl, .relation hAs hxs (by simp [isRelation, hKind])⟩
  | constant =>
    have hRelation : x.isRelation = false := by simp [isRelation, hKind]
    have hArgs : x.args = [] := by
      cases hSignature : x.signature <;> simp_all [Symbol.kind, args]
    have hNone : xs = [] := by
      rw [hArgs, forall₂_nil_right_iff, map_eq_nil_iff] at hSorts
      subst hSorts
      exact forall₂_nil_left_iff.mp hxs
    obtain ⟨b, y, hb, hy, hVar⟩ := hValue hRelation
    rw [hVar]
    exact ⟨_, rfl, .equation hAs hxs hRelation (fun _ => ⟨hArgs, hNone⟩) hb hy⟩
  | function =>
    have hRelation : x.isRelation = false := by simp [isRelation, hKind]
    obtain ⟨b, y, hb, hy, hVar⟩ := hValue hRelation
    rw [hVar]
    exact ⟨_, rfl, .equation hAs hxs hRelation (by simp) hb hy⟩

section Literals

variable {D : Domain} {s : State D} {w : Valuation D} {h : t.domain.Element → D.Element}

/-- **A literal says that its entry goes along.** -/
theorem Names.holds_literal (hNames : Names p t w h) (hLists : t.ListsOnce) (hx : x ∈ p.symbols)
    (hc : IsLiteralOf p t x entry c) :
    c.formula.Holds (fun _ => s) 0 w ↔ Honours t x h s entry := by
  have hOnly : ∀ as bs : List t.domain.Element, as.map (fun a => a.1.2) = entry.1 →
      bs.map (fun a => a.1.2) = entry.1 → as = bs := fun as bs hAs hBs =>
    map_injective_iff.mpr (fun a b => hLists.eq_of_name) (hAs.trans hBs.symm)
  cases hc with
  | @relation as xs hAs hxs hKind =>
    have hHonours : Honours t x h s entry ↔
        ((s x.name (as.map fun a => .element (h a))).Holds ↔ entry.2 = "true") := by
      simp only [Honours, hKind, if_true]
      exact ⟨fun hAll => hAll as hAs, fun hOne bs hBs => hOnly as bs hAs hBs ▸ hOne⟩
    have hApply := hNames.value_apply (s := s) hx hxs
    rw [hHonours]
    dsimp only
    split
    · rename_i hTrue
      simp only [Holds, hApply, hTrue, iff_true]
    · rename_i hFalse
      rw [holds_not, Holds, hApply]
      simp only [hFalse, iff_false]
  | @equation as xs b y kind hAs hxs hKind hConstant hb hy =>
    have hName : b.1.2 = entry.2 := congrArg Prod.snd hb
    have hHonours : Honours t x h s entry ↔
        s x.name (as.map fun a => .element (h a)) = .element (h b) := by
      simp only [Honours, hKind, if_false, Bool.false_eq_true]
      refine ⟨fun hAll => hAll as hAs b hName, fun hOne bs hBs b' hName' => ?_⟩
      rw [← hOnly as bs hAs hBs, ← hLists.eq_of_name (hName.trans hName'.symm)]
      exact hOne
    rw [hHonours, Holds, Formula.value, hNames.value_apply hx hxs,
      value_id_of_some (hNames.value b y hy)]
    exact Iff.rfl

theorem mem_distinctness_iff {xs : List Var} :
    c ∈ distinctness xs ↔ ∃ (i j : Nat) (x y : Var), i < j ∧ xs[i]? = some x ∧ xs[j]? = some y ∧
      c = ⟨.distinct, true, .ne (.id x.name) (.id y.name)⟩ := by
  refine ⟨mem_distinctness, ?_⟩
  rintro ⟨i, j, x, y, hLt, hi, hj, rfl⟩
  induction xs generalizing i j with
  | nil => cases hi
  | cons z xs ih =>
    obtain ⟨j, rfl⟩ : ∃ k, j = k + 1 := ⟨j - 1, by omega⟩
    rw [getElem?_cons_succ] at hj
    rw [distinctness, mem_append]
    cases i with
    | zero =>
      obtain rfl : z = x := Option.some.inj hi
      exact Or.inl (mem_map.mpr ⟨y, mem_of_getElem? hj, rfl⟩)
    | succ i => exact Or.inr (ih i j (by omega) hi hj)

/-- The inequations of a diagram, universe by universe. -/
def differences (p : Program) (t : Trace) : List Conjunct :=
  (t.universes.map fun entry => variablesFor p entry.1 entry.2).flatMap
    fun vars => distinctness (vars.map Prod.snd)

theorem mem_differences (hLists : t.ListsOnce) (hc : c ∈ differences p t) :
    ∃ a b x y, a ≠ b ∧ t.domain.sort a = t.domain.sort b ∧ IsVarOf p t a x ∧ IsVarOf p t b y ∧
      c = ⟨.distinct, true, .ne (.id x.name) (.id y.name)⟩ := by
  rw [differences, mem_flatMap] at hc
  obtain ⟨_, hUniverse, hc⟩ := hc
  obtain ⟨⟨sort, names⟩, hEntry, rfl⟩ := mem_map.mp hUniverse
  obtain ⟨i, j, x, y, hLt, hi, hj, rfl⟩ := mem_distinctness_iff.mp hc
  have hElement : ∀ {k : Nat} {z : Var},
      ((variablesFor p sort names).map Prod.snd)[k]? = some z →
      ∃ a : t.domain.Element, a.1.1 = sort ∧ names[k]? = some a.1.2 ∧ z = variableFor p sort k := by
    intro k z hz
    rw [variablesFor, getElem?_map, getElem?_mapIdx, Option.map_map,
      Option.map_eq_some_iff] at hz
    obtain ⟨name, hName, rfl⟩ := hz
    exact ⟨⟨(sort, name), hLists.hasElement_iff.mpr ⟨names, hEntry, mem_of_getElem? hName⟩⟩,
      rfl, hName, rfl⟩
  obtain ⟨a, ha, hai, rfl⟩ := hElement hi
  obtain ⟨b, hb, hbj, rfl⟩ := hElement hj
  refine ⟨a, b, _, _, ?_, ha.trans hb.symm, ⟨names, i, ha ▸ hEntry, hai, by rw [ha]⟩,
    ⟨names, j, hb ▸ hEntry, hbj, by rw [hb]⟩, rfl⟩
  rintro rfl
  have hNodup : names.Nodup := (List.nodup_flatMap.mp hLists.names).1 _ hEntry
  have hSame := (List.getElem?_inj (List.getElem?_eq_some_iff.mp hai).1 hNodup).mp
    (hai.trans hbj.symm)
  omega

theorem exists_difference (hLists : t.ListsOnce) {a b : t.domain.Element} (hNe : a ≠ b)
    (hSort : t.domain.sort a = t.domain.sort b) :
    ∃ c ∈ differences p t, ∃ x y, ((IsVarOf p t a x ∧ IsVarOf p t b y) ∨
      (IsVarOf p t b x ∧ IsVarOf p t a y)) ∧ c.formula = .ne (.id x.name) (.id y.name) := by
  obtain ⟨x, names, i, hEntry, hi, rfl⟩ := exists_isVarOf p hLists a
  obtain ⟨y, names', j, hEntry', hj, rfl⟩ := exists_isVarOf p hLists b
  have hSort : a.1.1 = b.1.1 := hSort
  obtain rfl : names = names' :=
    congrArg Prod.snd (inj_on_of_nodup_map hLists.sorts hEntry hEntry' hSort)
  have hVar : ∀ k name, names[k]? = some name →
      ((variablesFor p a.1.1 names).map Prod.snd)[k]? = some (variableFor p a.1.1 k) := by
    intro k name hk
    rw [variablesFor, getElem?_map, getElem?_mapIdx, hk]
    rfl
  have hMem : ∀ (k l : Nat) (x y : Var), k < l →
      ((variablesFor p a.1.1 names).map Prod.snd)[k]? = some x →
      ((variablesFor p a.1.1 names).map Prod.snd)[l]? = some y →
      (⟨.distinct, true, .ne (.id x.name) (.id y.name)⟩ : Conjunct) ∈ differences p t := by
    intro k l x y hLt hk hl
    exact mem_flatMap.mpr ⟨_, mem_map.mpr ⟨_, hEntry, rfl⟩,
      mem_distinctness_iff.mpr ⟨k, l, x, y, hLt, hk, hl, rfl⟩⟩
  have hi' : IsVarOf p t a (variableFor p a.1.1 i) := ⟨names, i, hEntry, hi, rfl⟩
  have hj' : IsVarOf p t b (variableFor p a.1.1 j) := ⟨names, j, hEntry', hj, by rw [hSort]⟩
  rcases Nat.lt_trichotomy i j with hLt | rfl | hLt
  · exact ⟨_, hMem i j _ _ hLt (hVar i _ hi) (hVar j _ hj), _, _, Or.inl ⟨hi', hj'⟩, rfl⟩
  · exact absurd (hLists.eq_of_name (Option.some.inj (hi.symm.trans hj))) hNe
  · exact ⟨_, hMem j i _ _ hLt (hVar j _ hj) (hVar i _ hi), _, _, Or.inr ⟨hj', hi'⟩, rfl⟩

/-- **The inequations say that elements of a sort are kept apart.** -/
theorem Names.holds_differences (hNames : Names p t w h) (hLists : t.ListsOnce) :
    (∀ c ∈ differences p t, c.formula.Holds (fun _ => s) 0 w) ↔
      ∀ a b, t.domain.sort a = t.domain.sort b → h a = h b → a = b := by
  have hHolds : ∀ {a b x y}, IsVarOf p t a x → IsVarOf p t b y →
      ((ne (.id x.name) (.id y.name)).Holds (fun _ => s) 0 w ↔ h a ≠ h b) := by
    intro a b x y hx hy
    rw [Holds, Formula.value, value_id_of_some (hNames.value a x hx),
      value_id_of_some (hNames.value b y hy)]
    exact not_congr ⟨Value.element.inj, congrArg _⟩
  constructor
  · intro hAll a b hSort hEq
    by_contra hNe
    obtain ⟨c, hc, x, y, hVars, hFormula⟩ := exists_difference (p := p) hLists hNe hSort
    have hDiffer := hAll c hc
    rw [hFormula] at hDiffer
    rcases hVars with ⟨hx, hy⟩ | ⟨hx, hy⟩
    · exact (hHolds hx hy).mp hDiffer hEq
    · exact (hHolds hx hy).mp hDiffer hEq.symm
  · intro hInjective c hc
    obtain ⟨a, b, x, y, hNe, hSort, hx, hy, rfl⟩ := mem_differences hLists hc
    exact (hHolds hx hy).mpr fun hEq => hNe (hInjective a b hSort hEq)

end Literals

/-- **A map is an embedding when it goes along with all entries.** -/
theorem embeds_iff (hTold : t.Tabulates p index) (hNodup : (p.symbols.map Symbol.name).Nodup)
    {D : Domain} {s : State D} {h : t.domain.Element → D.Element} :
    t.Embeds p index h s ↔ (∀ a, D.sort (h a) = t.domain.sort a) ∧
      (∀ a b, t.domain.sort a = t.domain.sort b → h a = h b → a = b) ∧
      ∀ i ∈ t.interpretations index, ∀ x ∈ p.symbols, t.Covers x i → x.isDerived = false →
        ∀ entry ∈ i.entries, Honours t x h s entry := by
  constructor
  · intro hEmbeds
    refine ⟨hEmbeds.sort, hEmbeds.injective, fun i hi x hx hCovers hDerived entry hEntry as hAs => ?_⟩
    obtain ⟨hSorts, hMeaning⟩ := hTold.meaning_eq hNodup hi hx hCovers hEntry hAs
    have hInterprets : t.Interprets index x.name := ⟨i, hi, hCovers.symbol⟩
    split
    · rename_i hRelation
      rw [hEmbeds.relations x hx hInterprets hRelation hDerived as hSorts, hMeaning, valueOf,
        if_pos hRelation]
      exact Iff.rfl
    · rename_i hRelation
      intro b hName
      have hElement := hCovers.values (by simpa using hRelation) entry hEntry
      rw [valueOf, if_neg hRelation, elementOf_eq hElement] at hMeaning
      obtain rfl : b = ⟨(x.result, entry.2), hElement⟩ := hTold.lists.eq_of_name hName
      exact hEmbeds.functions x hx hInterprets (by simpa using hRelation) as _ hSorts hMeaning
  · rintro ⟨hSort, hInjective, hHonours⟩
    refine ⟨hSort, hInjective, fun x hx hInterprets hRelation hDerived as hSorts => ?_,
      fun x hx hInterprets hRelation as a hSorts hValue => ?_⟩
    · obtain ⟨i, hi, hCovers, entry, hEntry, hAs, hMeaning⟩ :=
        hTold.exists_entry hNodup hx hInterprets hSorts
      have hHonour := hHonours i hi x hx hCovers hDerived entry hEntry as hAs
      rw [if_pos hRelation] at hHonour
      rw [hHonour, hMeaning, valueOf, if_pos hRelation]
      exact Iff.rfl
    · obtain ⟨i, hi, hCovers, entry, hEntry, hAs, hMeaning⟩ :=
        hTold.exists_entry hNodup hx hInterprets hSorts
      have hDerived : x.isDerived = false := by
        cases hSignature : x.signature <;>
          simp_all [isRelation, Symbol.kind, isDerived, definition?]
      have hHonour := hHonours i hi x hx hCovers hDerived entry hEntry as hAs
      rw [if_neg (by simp [hRelation])] at hHonour
      rw [valueOf, if_neg (by simp [hRelation]),
        elementOf_eq (hCovers.values hRelation entry hEntry), hValue] at hMeaning
      refine hHonour a ?_
      rw [Value.element.inj hMeaning]

/-! ## The diagram of a state -/

theorem exists_literals (h : t.Tabulates p index) (hNodup : (p.symbols.map Symbol.name).Nodup)
    (hx : x ∈ p.symbols) (hCovers : t.Covers x i) :
    ∃ cs, literals p (elementVars p t) i = .ok cs ∧
      (∀ c ∈ cs, x.isDerived = false ∧ ∃ entry ∈ i.entries, IsLiteralOf p t x entry c) ∧
      (x.isDerived = false → ∀ entry ∈ i.entries, ∃ c ∈ cs, IsLiteralOf p t x entry c) := by
  have hSymbol : p.symbol? i.symbol = some x := by
    rw [hCovers.symbol]
    exact Program.find?_of_nodup hNodup hx
  rw [literals, hSymbol]
  dsimp only
  split
  · rename_i hDerived
    exact ⟨[], rfl, by simp, by simp [hDerived]⟩
  · rename_i hDerived
    have hEach : ∀ entry ∈ i.entries, ∃ c, literal (elementVars p t) x entry = .ok c ∧
        IsLiteralOf p t x entry c := fun entry hEntry => exists_literal h.lists hCovers hEntry
    obtain ⟨cs, hcs⟩ := exists_mapM_eq_ok fun entry hEntry =>
      (hEach entry hEntry).imp fun _ hc => hc.1
    have hAll := mapM_eq_ok.mp hcs
    refine ⟨cs, hcs, fun c hc => ⟨by simpa using hDerived, ?_⟩, fun _ entry hEntry => ?_⟩
    · obtain ⟨entry, hEntry, hLiteral⟩ := exists_left_of_forall₂ hAll hc
      obtain ⟨c', hLiteral', hIs⟩ := hEach entry hEntry
      obtain rfl := Except.ok.inj (hLiteral.symm.trans hLiteral')
      exact ⟨entry, hEntry, hIs⟩
    · obtain ⟨c, hc, hLiteral⟩ := exists_right_of_forall₂ hAll hEntry
      obtain ⟨c', hLiteral', hIs⟩ := hEach entry hEntry
      obtain rfl := Except.ok.inj (hLiteral.symm.trans hLiteral')
      exact ⟨c, hc, hIs⟩

/-- The literals of a diagram: the inequations, and one literal for each entry of a symbol that
is not derived. -/
structure Lists (p : Program) (t : Trace) (index : Nat) (cs : List Conjunct) : Prop where
  origin : ∀ c ∈ cs, ∃ i ∈ t.interpretations index, ∃ x ∈ p.symbols, t.Covers x i ∧
    x.isDerived = false ∧ ∃ entry ∈ i.entries, IsLiteralOf p t x entry c
  entries : ∀ i ∈ t.interpretations index, ∀ x ∈ p.symbols, t.Covers x i → x.isDerived = false →
    ∀ entry ∈ i.entries, ∃ c ∈ cs, IsLiteralOf p t x entry c

/-- The diagram of a state before constants are put in. -/
def plain (p : Program) (t : Trace) (cs : List Conjunct) : Diagram :=
  ⟨(elementVars p t).map Prod.snd, differences p t ++ cs⟩

/-- **The diagram of a state that is told completely can be made.** -/
theorem exists_ofTrace (h : t.Tabulates p index) (hNodup : (p.symbols.map Symbol.name).Nodup) :
    ∃ cs, Lists p t index cs ∧ ∀ simplify, ofTrace p t index simplify = .ok
      (if simplify then (plain p t cs).simplifyConstants else plain p t cs) := by
  obtain ⟨state, hState⟩ : ∃ state, t.states[index]? = some state :=
    ⟨_, getElem?_eq_getElem h.inRange⟩
  have hAll : t.interpretations index = t.immutable ++ state := by
    rw [interpretations, hState, Option.getD_some]
  have hOnly : ∀ {i : Interpretation} {x y : Symbol}, x ∈ p.symbols → y ∈ p.symbols →
      t.Covers x i → t.Covers y i → x = y := fun hx hy hCovers hCovers' =>
    inj_on_of_nodup_map hNodup hx hy (hCovers.symbol.symm.trans hCovers'.symbol)
  have hEach : ∀ i ∈ t.interpretations index, ∃ cs, literals p (elementVars p t) i = .ok cs := by
    intro i hi
    obtain ⟨x, hx, hCovers⟩ := h.covers i hi
    exact (exists_literals h hNodup hx hCovers).imp fun _ hcs => hcs.1
  rw [hAll] at hEach
  obtain ⟨immutable, hImmutable⟩ := exists_mapM_eq_ok fun i hi =>
    hEach i (mem_append_left _ hi)
  obtain ⟨mutables, hMutables⟩ := exists_mapM_eq_ok fun i hi =>
    hEach i (mem_append_right _ hi)
  have hBoth : Forall₂ (fun i cs => literals p (elementVars p t) i = .ok cs)
      (t.interpretations index) (immutable ++ mutables) := by
    rw [hAll]
    exact rel_append (mapM_eq_ok.mp hImmutable) (mapM_eq_ok.mp hMutables)
  refine ⟨(immutable ++ mutables).flatten, ⟨fun c hc => ?_, fun i hi x hx hCovers hDerived entry
    hEntry => ?_⟩, fun simplify => ?_⟩
  · obtain ⟨cs, hcs, hc⟩ := mem_flatten.mp hc
    obtain ⟨i, hi, hLiterals⟩ := exists_left_of_forall₂ hBoth hcs
    obtain ⟨x, hx, hCovers⟩ := h.covers i hi
    obtain ⟨cs', hLiterals', hOrigin, -⟩ := exists_literals h hNodup hx hCovers
    obtain rfl := Except.ok.inj (hLiterals.symm.trans hLiterals')
    exact ⟨i, hi, x, hx, hCovers, hOrigin c hc⟩
  · obtain ⟨cs, hcs, hLiterals⟩ := exists_right_of_forall₂ hBoth hi
    obtain ⟨cs', hLiterals', -, hEntries⟩ := exists_literals h hNodup hx hCovers
    obtain rfl := Except.ok.inj (hLiterals.symm.trans hLiterals')
    obtain ⟨c, hc, hIs⟩ := hEntries hDerived entry hEntry
    exact ⟨c, mem_flatten.mpr ⟨cs, hcs, hc⟩, hIs⟩
  · rw [elementVars] at hImmutable hMutables
    simp only [ofTrace, hImmutable, Trace.state, hState, Except.mapError, hMutables, bind,
      Except.bind, pure, Except.pure, plain, differences, elementVars, flatten_append,
      append_assoc]

theorem mem_vars_plain (hLists : t.ListsOnce) {x : Var} :
    x ∈ (plain p t cs).vars ↔ ∃ a : t.domain.Element, IsVarOf p t a x := by
  simp only [plain, mem_map, Prod.exists, exists_eq_right, mem_elementVars_iff hLists]
  exact ⟨fun ⟨_, a, _, ha⟩ => ⟨a, ha⟩, fun ⟨a, ha⟩ => ⟨_, a, rfl, ha⟩⟩

theorem Lists.flat (hTold : t.Tabulates p index) (hcs : Lists p t index cs) :
    (plain p t cs).Flat p ((plain p t cs).vars.map Var.sort) ∧
      ∀ c ∈ (plain p t cs).conjuncts, c.enabled = true ∧ (c.kind = .constant →
        ∃ x ∈ p.symbols, t.Interprets index x.name ∧ ∃ a y, IsVarOf p t a y ∧
          c.formula = .eq (.id x.name) (.id y.name)) := by
  have hFlat : ∀ c ∈ differences p t ++ cs, IsFlat p c.formula ∧ c.enabled = true ∧
      (c.kind = .constant → ∃ x ∈ p.symbols, t.Interprets index x.name ∧ x.isRelation = false ∧
        x.args = [] ∧ ∃ a y, t.domain.sort a = x.result ∧ IsVarOf p t a y ∧
          c.formula = .eq (.id x.name) (.id y.name)) := by
    intro c hc
    rcases mem_append.mp hc with hc | hc
    · obtain ⟨_, _, _, _, -, -, -, -, rfl⟩ := mem_differences hTold.lists hc
      exact ⟨.ne _ _, rfl, fun hKind => by cases hKind⟩
    · obtain ⟨i, hi, x, hx, hCovers, -, entry, -, hIs⟩ := hcs.origin c hc
      have hIds : ∀ xs : List Var, (xs.map fun x => Formula.id x.name) =
          (xs.map Var.name).map .id := fun xs => by rw [map_map]; rfl
      cases hIs with
      | relation =>
        refine ⟨?_, rfl, fun hKind => by cases hKind⟩
        dsimp only
        rw [hIds]
        split
        · exact .apply hx _
        · exact .not hx _
      | @equation as xs b y kind hAs hxs hRelation hConstant hb hy =>
        refine ⟨hIds xs ▸ .eq hx _ _, rfl, fun hKind => ?_⟩
        obtain ⟨hArgs, rfl⟩ := hConstant hKind
        exact ⟨x, hx, ⟨i, hi, hCovers.symbol⟩, hRelation, hArgs, b, y, congrArg Prod.fst hb, hy, rfl⟩
  refine ⟨⟨fun x hx => ?_, fun c hc => (hFlat c hc).1, fun c hc hKind => ?_⟩, fun c hc =>
    ⟨(hFlat c hc).2.1, fun hKind => ?_⟩⟩
  · obtain ⟨a, names, i, -, -, rfl⟩ := (mem_vars_plain hTold.lists).mp hx
    exact ⟨a.1.1, mem_map.mpr ⟨_, hx, rfl⟩, i, rfl⟩
  · obtain ⟨x, hx, -, hRelation, hArgs, a, y, hSort, hy, hFormula⟩ := (hFlat c hc).2.2 hKind
    exact ⟨x, x.result, y.name, ⟨hx, hRelation, hArgs, rfl⟩,
      .var ((mem_vars_plain hTold.lists).mpr ⟨a, hy⟩) rfl (hy.sort_eq.trans hSort), hFormula⟩
  · obtain ⟨x, hx, hInterprets, -, -, a, y, -, hy, hFormula⟩ := (hFlat c hc).2.2 hKind
    exact ⟨x, hx, hInterprets, a, y, hy, hFormula⟩

section Extensions

variable {D : Domain} {s : State D}

open Classical in
/-- The variables stand for the images of their elements. -/
noncomputable def valuationBy (p : Program) (t : Trace) {D : Domain}
    (h : t.domain.Element → D.Element) : Valuation D :=
  fun n =>
    if hVar : ∃ a : t.domain.Element, ∃ x, IsVarOf p t a x ∧ x.name = n then
      some (.element (h (choose hVar)))
    else none

theorem names_valuationBy (hLists : t.ListsOnce) (h : t.domain.Element → D.Element) :
    Names p t (valuationBy p t h) h where
  free _ hx := dif_neg fun ⟨_, _, hy, hName⟩ => hy.name_ne hx hName
  value a x hx := by
    have hVar : ∃ a : t.domain.Element, ∃ y, IsVarOf p t a y ∧ y.name = x.name := ⟨a, x, hx, rfl⟩
    obtain ⟨y, hy, hName⟩ := Classical.choose_spec hVar
    rw [valuationBy, dif_pos hVar, hy.element_eq hLists hx hName]

theorem Names.holds_all (hTold : t.Tabulates p index) (hNodup : (p.symbols.map Symbol.name).Nodup)
    (hcs : Lists p t index cs) {w : Valuation D} {h : t.domain.Element → D.Element}
    (hNames : Names p t w h) (hSort : ∀ a, D.sort (h a) = t.domain.sort a) :
    (∀ c ∈ differences p t ++ cs, c.formula.Holds (fun _ => s) 0 w) ↔ t.Embeds p index h s := by
  rw [forall_mem_append, hNames.holds_differences hTold.lists, embeds_iff hTold hNodup]
  constructor
  · rintro ⟨hInjective, hAll⟩
    refine ⟨hSort, hInjective, fun i hi x hx hCovers hDerived entry hEntry => ?_⟩
    obtain ⟨c, hc, hIs⟩ := hcs.entries i hi x hx hCovers hDerived entry hEntry
    exact (hNames.holds_literal hTold.lists hx hIs).mp (hAll c hc)
  · rintro ⟨-, hInjective, hHonours⟩
    refine ⟨hInjective, fun c hc => ?_⟩
    obtain ⟨i, hi, x, hx, hCovers, hDerived, entry, hEntry, hIs⟩ := hcs.origin c hc
    exact (hNames.holds_literal hTold.lists hx hIs).mpr
      (hHonours i hi x hx hCovers hDerived entry hEntry)

/-- **A diagram holds exactly in the extensions of its state**, where the symbols of the state
are used as they are declared. -/
theorem holdsIn_iff_embeds (hTold : t.Tabulates p index)
    (hNodup : (p.symbols.map Symbol.name).Nodup) (hFitting : ∀ x ∈ p.symbols, p.Fitting x)
    {simplify : Bool} {d : Diagram} (hd : ofTrace p t index simplify = .ok d)
    (hSorts : ∀ a : t.domain.Element, ∃ b, D.sort b = t.domain.sort a)
    (hFits : ∀ x ∈ p.symbols, t.Interprets index x.name → x.Fits s) :
    d.toFormula.HoldsIn s ↔ ∃ h, t.Embeds p index h s := by
  obtain ⟨cs, hcs, hOf⟩ := exists_ofTrace hTold hNodup
  obtain ⟨hFlat, hLiterals⟩ := hcs.flat hTold
  obtain rfl := Except.ok.inj (hd.symm.trans (hOf simplify))
  have hVarSorts : ∀ x ∈ (plain p t cs).vars, ∃ b, D.sort b = x.sort := by
    intro x hx
    obtain ⟨a, ha⟩ := (mem_vars_plain hTold.lists).mp hx
    rw [ha.sort_eq]
    exact hSorts a
  -- with constants put in, it says the same: it equates none
  have hSame : (if simplify then (plain p t cs).simplifyConstants
      else plain p t cs).toFormula.HoldsIn s ↔ (plain p t cs).toFormula.HoldsIn s := by
    cases simplify with
    | false => exact Iff.rfl
    | true =>
      refine ((hFlat.holdsIn_simplifyConstants hNodup hFitting (fun c hc hKind k hk n hFormula => ?_)
        (forall_mem_map.mpr hVarSorts)).trans (and_iff_left fun c hc hEquates => ?_)).symm
      · obtain ⟨x, hx, hInterprets, _, _, _, hEq⟩ := (hLiterals c (mem_filter.mp hc).1).2 hKind
        obtain ⟨hEq, -⟩ := Formula.eq.inj (hFormula.symm.trans hEq)
        exact hFits k hk (Formula.id.inj hEq ▸ hInterprets)
      · obtain ⟨hKind, _, -, k, hk, hFormula⟩ := hEquates
        obtain ⟨_, -, -, _, y, hy, hEq⟩ := (hLiterals c (mem_filter.mp hc).1).2 hKind
        obtain ⟨-, hEq⟩ := Formula.eq.inj (hFormula.symm.trans hEq)
        exact absurd (Formula.id.inj hEq).symm (hy.name_ne hk)
  have hMatches : ∀ w, (plain p t cs).Matches s w ↔
      ∀ c ∈ differences p t ++ cs, c.formula.Holds (fun _ => s) 0 w := by
    intro w
    rw [Matches, enabled, filter_eq_self.mpr fun c hc => (hLiterals c hc).1, forall_mem_map]
    exact Iff.rfl
  rw [hSame, holdsIn_toFormula hVarSorts]
  constructor
  · intro hHolds
    obtain ⟨w, hBound, hFree, hw⟩ := hHolds.exists_bound fun x hx y hy => hFlat.sort_eq hx hy
    have hEach : ∀ a : t.domain.Element, ∃ b, D.sort b = t.domain.sort a ∧
        ∀ x, IsVarOf p t a x → w x.name = some (.element b) := by
      intro a
      obtain ⟨x, hx⟩ := exists_isVarOf p hTold.lists a
      obtain ⟨b, hb, hSort⟩ := hBound x ((mem_vars_plain hTold.lists).mpr ⟨a, hx⟩)
      exact ⟨b, hSort.trans hx.sort_eq, fun y hy => hx.unique hTold.lists hy ▸ hb⟩
    choose h hSort hValue using hEach
    have hNames : Names p t w h := ⟨hValue, fun k hk => hFlat.free hFree hk⟩
    exact ⟨h, (hNames.holds_all hTold hNodup hcs hSort).mp ((hMatches w).mp hw)⟩
  · rintro ⟨h, hEmbeds⟩
    have hNames := names_valuationBy (p := p) hTold.lists h
    refine existsOf_of_bound (w := valuationBy p t h) (fun x hx => ?_) (fun n hn => ?_)
      ((hMatches _).mpr ((hNames.holds_all hTold hNodup hcs hEmbeds.sort).mpr hEmbeds))
    · obtain ⟨a, ha⟩ := (mem_vars_plain hTold.lists).mp hx
      exact ⟨h a, hNames.value a x ha, (hEmbeds.sort a).trans ha.sort_eq.symm⟩
    · refine dif_neg ?_
      rintro ⟨a, x, hx, hName⟩
      exact hn x ((mem_vars_plain hTold.lists).mpr ⟨a, hx⟩) hName

end Extensions

/-- **The diagram of a state describes exactly its extensions.** For every state that is told
completely there is a diagram, simplified or not, and it holds in a structure when the elements
of the state can be mapped into it such that elements of a sort stay different, relations that are
not derived hold of the same elements, and constants and functions have the same values. So it
holds in the state itself. -/
theorem holdsIn_ofTrace_iff (hDeclared : p.Declared) (hValidated : p.validated = true)
    (hTold : t.Tabulates p index) (simplify : Bool) :
    ∃ d, ofTrace p t index simplify = .ok d ∧
      (∀ {D : Domain} (s : State D), (∀ a : t.domain.Element, ∃ b, D.sort b = t.domain.sort a) →
        (∀ x ∈ p.symbols, x.Fits s) →
        (d.toFormula.HoldsIn s ↔ ∃ h : t.domain.Element → D.Element, t.Embeds p index h s)) ∧
      d.toFormula.HoldsIn (t.meaning p index) := by
  have hNodup := hDeclared.nodup_names
  have hFitting := (Program.checked_of_checkAll (hDeclared.checkAll_eq_ok hValidated)).symbols
  obtain ⟨cs, -, hOf⟩ := exists_ofTrace hTold hNodup
  refine ⟨_, hOf simplify, fun s hSorts hFits => ?_, ?_⟩
  · exact holdsIn_iff_embeds hTold hNodup hFitting (hOf simplify) hSorts fun x hx _ => hFits x hx
  · refine (holdsIn_iff_embeds hTold hNodup hFitting (hOf simplify) (fun a => ⟨a, rfl⟩)
      fun x hx hInterprets => hTold.fits hNodup hx (hFitting x hx) hInterprets).mpr
        ⟨id, t.embeds_self p index⟩

/-! ## Samples -/

/-- Nodes, one of which leads, and some of which are awake. -/
def guards : Program :=
  { Program.empty with
    sorts := ["node"]
    symbols := [⟨"leader", .constant "node", false⟩, ⟨"awake", .relation ["node"] none, true⟩]
    validated := true }

theorem guards_declared : guards.Declared := by
  have hSort := @Program.Declared.sort _ _ "node" .empty rfl
  have hLeader := hSort.symbol (s := ⟨"leader", .constant "node", false⟩) rfl
  have hAwake := hLeader.symbol (s := ⟨"awake", .relation ["node"] none, true⟩) rfl
  exact hAwake.validate rfl

/-- Of two nodes the second leads, and the first is awake. -/
def nightWatch : Trace :=
  ⟨[("node", ["m", "n"])], [⟨"leader", .constant, [([], "n")]⟩],
    [[⟨"awake", .relation, [(["m"], "true"), (["n"], "false")]⟩]], []⟩

theorem tabulates_nightWatch : nightWatch.Tabulates guards 0 := by
  have hElement : ∀ name, nightWatch.HasElement "node" name ↔ name = "m" ∨ name = "n" := by
    intro name
    simp [Trace.HasElement, elements, nightWatch, boolSort]
  refine ⟨⟨by decide, by decide, by decide⟩, by decide, by decide, fun i hi => ?_⟩
  rw [show nightWatch.interpretations 0 = [⟨"leader", .constant, [([], "n")]⟩,
    ⟨"awake", .relation, [(["m"], "true"), (["n"], "false")]⟩] from rfl, mem_pair] at hi
  rcases hi with rfl | rfl
  · refine ⟨⟨"leader", .constant "node", false⟩, by decide, rfl, by decide, fun names => ?_, ?_⟩
    · rw [show args ⟨"leader", .constant "node", false⟩ = [] from rfl,
        forall₂_nil_left_iff]
      simp
    · intro _ entry hEntry
      rw [mem_singleton.mp hEntry]
      exact (hElement "n").mpr (Or.inr rfl)
  · refine ⟨⟨"awake", .relation ["node"] none, true⟩, by decide, rfl, by decide, fun names => ?_,
      fun hRelation => by cases hRelation⟩
    rw [show args ⟨"awake", .relation ["node"] none, true⟩ = ["node"] from rfl,
      forall₂_cons_left_iff]
    simp only [hElement, forall₂_nil_left_iff]
    constructor
    · intro hIn
      rcases mem_pair.mp hIn with rfl | rfl
      · exact ⟨"m", [], Or.inl rfl, rfl, rfl⟩
      · exact ⟨"n", [], Or.inr rfl, rfl, rfl⟩
    · rintro ⟨name, _, rfl | rfl, rfl, rfl⟩
      · exact mem_pair.mpr (Or.inl rfl)
      · exact mem_pair.mpr (Or.inr rfl)

/-- The simplified diagram of the night watch names the leader by its constant, and holds in the
night watch. -/
theorem holdsIn_ofTrace_nightWatch :
    nightWatch.Tabulates guards 0 ∧ ∃ d, ofTrace guards nightWatch 0 true = .ok d ∧
      d.toFormula = .ex [⟨"V_node_0", "node"⟩] (.and
        [.ne (.id "V_node_0") (.id "leader"), .app "awake" [.id "V_node_0"],
          .not (.app "awake" [.id "leader"])]) ∧
      d.toFormula.HoldsIn (nightWatch.meaning guards 0) := by
  obtain ⟨d, hd, -, hHolds⟩ := holdsIn_ofTrace_iff guards_declared rfl tabulates_nightWatch true
  refine ⟨tabulates_nightWatch, d, hd, ?_, hHolds⟩
  have hSame : ∀ d', ofTrace guards nightWatch 0 true = .ok d' → d.toFormula = d'.toFormula :=
    fun d' hd' => congrArg toFormula (Except.ok.inj (hd.symm.trans hd'))
  exact hSame _ (by rfl)

/-- Nodes, and nothing to say of them. -/
def bareNodes : Program := { Program.empty with sorts := ["node"], validated := true }

/-- One node, and then two more. -/
def splitNodes : Trace := ⟨[("node", ["a"]), ("node", ["b", "c"])], [], [[]], []⟩

/-- **A sort that is listed twice has too few variables.** The first nodes of both lists have one
variable, so the diagram asks for two nodes: too many for the universe that the trace has for the
sort, and too few for all three. -/
theorem repeated_sort_not_described :
    bareNodes.Declared ∧ (splitNodes.universes.flatMap Prod.snd).Nodup ∧
      splitNodes.interpretations 0 = [] ∧
      ∃ d, ofTrace bareNodes splitNodes 0 false = .ok d ∧
        ¬ d.toFormula.HoldsIn (splitNodes.meaning bareNodes 0) ∧
        ∀ s : State Encoding.twoNodes, d.toFormula.HoldsIn s := by
  have hFormula : ∃ d, ofTrace bareNodes splitNodes 0 false = .ok d ∧ d.toFormula =
      .ex [⟨"V_node_0", "node"⟩, ⟨"V_node_0", "node"⟩, ⟨"V_node_1", "node"⟩]
        (.ne (.id "V_node_0") (.id "V_node_1")) := ⟨_, rfl, by rfl⟩
  have hHolds : ∀ {D : Domain} (s : State D), (ex [⟨"V_node_0", "node"⟩,
      ⟨"V_node_0", "node"⟩, ⟨"V_node_1", "node"⟩]
        (.ne (.id "V_node_0") (.id "V_node_1"))).HoldsIn s ↔
      ∃ a b, D.sort a = "node" ∧ D.sort b = "node" ∧ a ≠ b := by
    intro D s
    simp only [HoldsIn, ExistsOf, Holds, value,
      Valuation.bind, Value.holds_truth]
    constructor
    · rintro ⟨_, -, a, ha, b, hb, hNe⟩
      exact ⟨a, b, ha, hb, fun hEq => by simp [hEq] at hNe⟩
    · rintro ⟨a, b, ha, hb, hNe⟩
      exact ⟨a, ha, a, ha, b, hb, by simpa using hNe⟩
  refine ⟨(@Program.Declared.sort _ _ "node" .empty rfl).validate rfl, by decide, rfl, ?_⟩
  obtain ⟨d, hd, hEq⟩ := hFormula
  refine ⟨d, hd, ?_, fun s => ?_⟩
  · rw [hEq, hHolds]
    rintro ⟨a, b, -, -, hNe⟩
    have hOnly : ∀ sort name, splitNodes.HasElement sort name → sort = "node" ∧ name = "a" := by
      rintro sort name ⟨-, names, hNames, hName⟩
      by_cases hSort : sort = "node"
      · subst hSort
        obtain rfl : ["a"] = names := Except.ok.inj hNames
        exact ⟨rfl, mem_singleton.mp hName⟩
      · simp [Trace.elements, splitNodes, lookup_cons, beq_eq_false_iff_ne.mpr hSort] at hNames
    obtain ⟨hSort, hName⟩ := hOnly _ _ a.2
    obtain ⟨hSort', hName'⟩ := hOnly _ _ b.2
    exact hNe (Subtype.ext (Prod.ext (hSort.trans hSort'.symm) (hName.trans hName'.symm)))
  · rw [hEq, hHolds]
    exact ⟨false, true, rfl, rfl, Bool.false_ne_true⟩

end Diagram

end InvariantSearch
