import InvariantSearch.Proofs.Formula.Notation
import InvariantSearch.Proofs.Meaning.Formula
import InvariantSearch.Proofs.Program.Declarations
import Mathlib.Data.String.Basic

/-!
# Declarations and their notation

Which declarations come from a text, and which can be read back from their own.

* `Declaration.toSexpr` is what a declaration is written as. Its text spells the tokens of that, in
  both layouts (`Declaration.Formed.spells_render`).
* `Declaration.Formed` — a declaration as reading leaves it: its names can be written as they are,
  and its formulas are formed.

* `Declaration.Reads` — what a list is read as, lines apart. Reading is just that
  (`Declaration.ofSexpr_eq_ok`).

Main results: what is read is formed (`Declaration.Formed.of_ofSexpr`), and a formed declaration is
read back from what it is written as, unless an identifier in it is spelt like a truth value
(`Declaration.ofSexpr_of_strip`).
-/

namespace InvariantSearch

open List Sexpr Symbol

open Sexpr (IsAtom Spells SpellsOut Separates spellsOut_opening spellsOut_closing
  separates_closing separates_blank separates_of_head spellsOut_blanks spells_renderItems)

variable {e : Sexpr} {name keyword : String} {names sorts : List String}

/-! ## Sets of names -/

namespace NameSet

/-- The names of a set stand in increasing order. -/
def Sorted (s : NameSet) : Prop := s.toList.Pairwise (· < ·)

theorem pairwise_insertSorted (h : names.Pairwise (· < ·)) :
    (insertSorted name names).Pairwise (· < ·) := by
  induction names with
  | nil => exact pairwise_singleton _ _
  | cons first rest ih =>
    obtain ⟨hFirst, hRest⟩ := pairwise_cons.mp h
    unfold insertSorted
    split_ifs with hLess hSame
    · refine pairwise_cons.mpr ⟨fun n hn => ?_, h⟩
      rcases mem_cons.mp hn with rfl | hn
      · exact hLess
      · exact lt_trans hLess (hFirst n hn)
    · exact h
    · have hGreater : first < name := lt_of_le_of_ne (not_lt.mp hLess) (Ne.symm hSame)
      refine pairwise_cons.mpr ⟨fun n hn => ?_, ih hRest⟩
      rcases mem_insertSorted.mp hn with rfl | hn
      · exact hGreater
      · exact hFirst n hn

theorem sorted_ofList (names : List String) : (ofList names).Sorted := by
  have hFold : ∀ (names : List String) (s : NameSet), s.Sorted →
      (names.foldl (fun s name => s.insert name) s).Sorted := by
    intro names
    induction names with
    | nil => exact fun s hs => hs
    | cons name names ih => exact fun s hs => ih _ (pairwise_insertSorted hs)
  exact hFold names empty .nil

theorem mem_of_mem_ofList {n : String} (h : n ∈ (ofList names).toList) : n ∈ names := by
  have hFold : ∀ (names : List String) (s : NameSet),
      n ∈ (names.foldl (fun s name => s.insert name) s).toList → n ∈ s.toList ∨ n ∈ names := by
    intro names
    induction names with
    | nil => exact fun s hs => Or.inl hs
    | cons name names ih =>
      intro s hs
      rcases ih _ hs with hs | hs
      · rcases mem_insert.mp hs with rfl | hs
        · exact Or.inr mem_cons_self
        · exact Or.inl hs
      · exact Or.inr (mem_cons_of_mem _ hs)
  exact (hFold names empty h).resolve_left (by simp [empty])

theorem insertSorted_of_lt (h : ∀ n ∈ names, n < name) :
    insertSorted name names = names ++ [name] := by
  induction names with
  | nil => rfl
  | cons first rest ih =>
    rw [forall_mem_cons] at h
    rw [insertSorted, if_neg (lt_asymm h.1), if_neg (ne_of_gt h.1), ih h.2, cons_append]

theorem Sorted.ofList_toList {s : NameSet} (h : s.Sorted) : ofList s.toList = s := by
  have hFold : ∀ (before rest : List String), (before ++ rest).Pairwise (· < ·) →
      rest.foldl (fun s name => s.insert name) (⟨before⟩ : NameSet) = ⟨before ++ rest⟩ := by
    intro before rest
    induction rest generalizing before with
    | nil =>
      intro _
      simp
    | cons name rest ih =>
      intro h
      have hLess : ∀ n ∈ before, n < name := fun n hn =>
        (pairwise_append.mp h).2.2 n hn name mem_cons_self
      rw [foldl_cons, insert, insertSorted_of_lt hLess, ih _ (by simpa using h)]
      simp
  exact hFold [] s.toList h

end NameSet

/-! ## Reading parts of declarations -/

theorem expectAtom_mapM_eq_ok {what : String} {items : List Sexpr} :
    items.mapM (expectAtom what) = .ok names ↔ items.map strip = names.map ofName := by
  simp only [mapM_eq_ok, expectAtom_eq_ok]
  induction items generalizing names with
  | nil => simp [eq_comm]
  | cons e items ih =>
    cases names with
    | nil => simp
    | cons name names => simp [ih]

namespace Program

theorem sortsOfSexpr_eq_ok : sortsOfSexpr e = .ok sorts ↔ e.strip = sortsToSexpr sorts := by
  unfold sortsOfSexpr
  simp only [bind_eq_ok, expectList_eq_ok, expectAtom_mapM_eq_ok, sortsToSexpr, strip_eq_ofItems]
  constructor
  · rintro ⟨items, ⟨line, rfl⟩, hItems⟩
    exact ⟨line, items, rfl, hItems⟩
  · rintro ⟨line, items, rfl, hItems⟩
    exact ⟨items, ⟨line, rfl⟩, hItems⟩

theorem mutabilityOfSexpr_eq_ok {isMutable : Bool} :
    mutabilityOfSexpr e = .ok isMutable ↔ e.strip = .ofName (mutabilityWord isMutable) := by
  unfold mutabilityOfSexpr
  simp only [bind_eq_ok, expectAtom_eq_ok]
  constructor
  · rintro ⟨text, hText, h⟩
    split_ifs at h with hMutable hImmutable
    · obtain rfl := pure_eq_ok.mp h
      rw [hText, hMutable]
      rfl
    · obtain rfl := pure_eq_ok.mp h
      rw [hText, hImmutable]
      rfl
  · intro h
    refine ⟨_, h, ?_⟩
    cases isMutable <;> rfl

namespace Declaration

variable {e : Sexpr} {line : Nat} {items : List Sexpr} {s : Symbol} {t : Transition}
  {f : NamedFormula} {d : Declaration}

/-! ## Formed declarations -/

/-- The formulas of a declaration. -/
def formulas : Declaration → List Formula
  | .ofSort _ => []
  | .ofSymbol s => s.definition?.toList
  | .ofAxiom f => [f.formula]
  | .ofInit f => [f.formula]
  | .ofTransition t => [t.body]
  | .ofInvariant i => [i.formula]
  | .ofTheorem t => [t.formula]

/-- The names of a declaration can be written as they are: they are atoms, a formula may have none,
and modified symbols stand in their order. -/
def Spelt : Declaration → Prop
  | .ofSort name => IsAtom name
  | .ofSymbol s => IsAtom s.name ∧ (∀ sort ∈ s.args, IsAtom sort) ∧ IsAtom s.result
  | .ofTransition t =>
    IsAtom t.name ∧ (∀ v ∈ t.params, v.Spelt) ∧ (∀ name ∈ t.mods.toList, IsAtom name) ∧
      t.mods.Sorted
  | .ofAxiom f | .ofInit f => f.name = "" ∨ IsAtom f.name
  | .ofInvariant i => i.name = "" ∨ IsAtom i.name
  | .ofTheorem t => t.name = "" ∨ IsAtom t.name

/-- A declaration as reading leaves it. -/
structure Formed (d : Declaration) : Prop where
  spelt : d.Spelt
  formulas : ∀ f ∈ d.formulas, f.Formed

/-! ## What is read -/

/-- The formulas that have names of their own, each kind with its keyword. -/
inductive Wraps : String → (NamedFormula → Declaration) → Prop
  | ofAxiom : Wraps "axiom" .ofAxiom
  | ofInit : Wraps "init" .ofInit
  | safety : Wraps "safety" fun f => .ofInvariant ⟨f, true⟩
  | ofInvariant : Wraps "invariant" fun f => .ofInvariant ⟨f, false⟩
  | ofTheorem : Wraps "theorem" fun f => .ofTheorem ⟨f, false⟩
  | twoState : Wraps "twostate-theorem" fun f => .ofTheorem ⟨f, true⟩

/-- What s-expressions are read as, lines apart. -/
inductive Reads : Sexpr → Declaration → Prop
  | sort (name : String) : Reads (.ofItems [.ofName "sort", .ofName name]) (.ofSort name)
  | relation (name : String) (sorts : List String) (isMutable : Bool) :
      Reads (.ofItems [.ofName "relation", .ofName name, sortsToSexpr sorts,
          .ofName (mutabilityWord isMutable)])
        (.ofSymbol ⟨name, .relation sorts none, isMutable⟩)
  | derived (name : String) (sorts : List String) (isMutable : Bool) {g : Sexpr} {f : Formula}
      (h : Formula.ofSexpr g = .ok f) :
      Reads (.ofItems [.ofName "relation", .ofName name, sortsToSexpr sorts,
          .ofName (mutabilityWord isMutable), .ofItems [.ofName "derived", g.strip]])
        (.ofSymbol ⟨name, .relation sorts (some f), isMutable⟩)
  | constant (name sort : String) (isMutable : Bool) :
      Reads (.ofItems [.ofName "constant", .ofName name, .ofName sort,
          .ofName (mutabilityWord isMutable)])
        (.ofSymbol ⟨name, .constant sort, isMutable⟩)
  | function (name : String) (sorts : List String) (result : String) (isMutable : Bool) :
      Reads (.ofItems [.ofName "function", .ofName name, sortsToSexpr sorts, .ofName result,
          .ofName (mutabilityWord isMutable)])
        (.ofSymbol ⟨name, .function sorts result, isMutable⟩)
  | transition (name : String) (params : List Var) (names : List String) {g : Sexpr} {f : Formula}
      (h : Formula.ofSexpr g = .ok f) :
      Reads (.ofItems [.ofName "transition", .ofName name, binderToSexpr params,
          .ofItems (.ofName "mods" :: names.map .ofName), g.strip])
        (.ofTransition ⟨name, params, .ofList names, f⟩)
  | unnamed {word : String} {wrap : NamedFormula → Declaration} (hKind : Wraps word wrap)
      {g : Sexpr} {f : Formula} (h : Formula.ofSexpr g = .ok f) :
      Reads (.ofItems [.ofName word, g.strip]) (wrap ⟨"", f⟩)
  | named {word : String} {wrap : NamedFormula → Declaration} (hKind : Wraps word wrap)
      (name : String) {g : Sexpr} {f : Formula} (h : Formula.ofSexpr g = .ok f) :
      Reads (.ofItems [.ofName word, .ofName name, g.strip]) (wrap ⟨name, f⟩)

theorem definitionOfSexpr_eq_ok {f : Formula} :
    definitionOfSexpr e = .ok f ↔ ∃ g : Sexpr, e.strip = .ofItems [.ofName "derived", g.strip] ∧
      Formula.ofSexpr g = .ok f := by
  constructor
  · intro h
    obtain ⟨items, hItems, h⟩ := bind_eq_ok.mp h
    obtain ⟨line, rfl⟩ := expectList_eq_ok.mp hItems
    match items with
    | [] | [_] | _ :: _ :: _ :: _ => cases h
    | [word, g] =>
      obtain ⟨text, hText, h⟩ := bind_eq_ok.mp h
      obtain ⟨hWord, h⟩ := guard_eq_ok.mp h
      refine ⟨g, ?_, h⟩
      rw [strip_list, map_cons, expectAtom_eq_ok.mp hText, not_not.mp hWord]
      rfl
  · rintro ⟨g, hStrip, hg⟩
    obtain ⟨line, items, rfl, hItems⟩ := strip_eq_ofItems.mp hStrip
    simp only [map_eq_cons_iff, map_eq_nil_iff] at hItems
    obtain ⟨word, _, rfl, hWord, g', _, rfl, hg', rfl⟩ := hItems
    exact bind_eq_ok.mpr ⟨_, rfl, bind_eq_ok.mpr ⟨"derived", expectAtom_eq_ok.mpr hWord,
      guard_eq_ok.mpr ⟨by simp, Formula.ofSexpr_congr hg' hg⟩⟩⟩

theorem reads_relation (h : relationOfSexprs line items = .ok s) :
    Reads (.ofItems (.ofName "relation" :: items.map strip)) (.ofSymbol s) := by
  unfold relationOfSexprs at h
  dsimp only at h
  split at h
  · simp only [bind_eq_ok, expectAtom_eq_ok, sortsOfSexpr_eq_ok, mutabilityOfSexpr_eq_ok,
      pure_eq_ok] at h
    obtain ⟨name, hName, sorts, hSorts, isMutable, hMutable, rfl⟩ := h
    rw [map_cons, map_cons, map_cons, hName, hSorts, hMutable]
    exact .relation name sorts isMutable
  · simp only [bind_eq_ok, expectAtom_eq_ok, sortsOfSexpr_eq_ok, mutabilityOfSexpr_eq_ok,
      pure_eq_ok] at h
    obtain ⟨definition, hDefinition, name, hName, sorts, hSorts, isMutable, hMutable, rfl⟩ := h
    obtain ⟨g, hStrip, hg⟩ := definitionOfSexpr_eq_ok.mp hDefinition
    rw [map_cons, map_cons, map_cons, map_cons, hName, hSorts, hMutable, hStrip]
    exact .derived name sorts isMutable hg
  · cases h

theorem reads_constant (h : constantOfSexprs line items = .ok s) :
    Reads (.ofItems (.ofName "constant" :: items.map strip)) (.ofSymbol s) := by
  unfold constantOfSexprs at h
  split at h
  · simp only [bind_eq_ok, expectAtom_eq_ok, mutabilityOfSexpr_eq_ok, pure_eq_ok] at h
    obtain ⟨name, hName, sort, hSort, isMutable, hMutable, rfl⟩ := h
    rw [map_cons, map_cons, map_cons, hName, hSort, hMutable]
    exact .constant name sort isMutable
  · cases h

theorem reads_function (h : functionOfSexprs line items = .ok s) :
    Reads (.ofItems (.ofName "function" :: items.map strip)) (.ofSymbol s) := by
  unfold functionOfSexprs at h
  split at h
  · simp only [bind_eq_ok, expectAtom_eq_ok, sortsOfSexpr_eq_ok, mutabilityOfSexpr_eq_ok,
      pure_eq_ok] at h
    obtain ⟨name, hName, sorts, hSorts, result, hResult, isMutable, hMutable, rfl⟩ := h
    rw [map_cons, map_cons, map_cons, map_cons, hName, hSorts, hResult, hMutable]
    exact .function name sorts result isMutable
  · cases h

theorem modsOfSexpr_eq_ok {mods : NameSet} :
    modsOfSexpr e = .ok mods ↔
      ∃ names : List String, e.strip = .ofItems (.ofName "mods" :: names.map .ofName) ∧
        NameSet.ofList names = mods := by
  unfold modsOfSexpr
  constructor
  · intro h
    obtain ⟨items, hItems, h⟩ := bind_eq_ok.mp h
    obtain ⟨line, rfl⟩ := expectList_eq_ok.mp hItems
    split at h
    · cases h
    · obtain ⟨text, hText, h⟩ := bind_eq_ok.mp h
      obtain ⟨hWord, h⟩ := guard_eq_ok.mp h
      obtain ⟨names, hNames, h⟩ := bind_eq_ok.mp h
      refine ⟨names, ?_, pure_eq_ok.mp h⟩
      rw [strip_list, map_cons, expectAtom_eq_ok.mp hText, not_not.mp hWord,
        expectAtom_mapM_eq_ok.mp hNames]
  · rintro ⟨names, hStrip, hMods⟩
    obtain ⟨line, items, rfl, hItems⟩ := strip_eq_ofItems.mp hStrip
    obtain ⟨word, symbols, rfl, hWord, hSymbols⟩ := map_eq_cons_iff.mp hItems
    refine bind_eq_ok.mpr ⟨_, expectList_eq_ok.mpr ⟨line, rfl⟩, ?_⟩
    refine bind_eq_ok.mpr ⟨"mods", expectAtom_eq_ok.mpr hWord, ?_⟩
    refine guard_eq_ok.mpr ⟨by simp, ?_⟩
    exact bind_eq_ok.mpr ⟨names, expectAtom_mapM_eq_ok.mpr hSymbols, pure_eq_ok.mpr hMods⟩

theorem reads_transition (h : transitionOfSexprs line items = .ok t) :
    Reads (.ofItems (.ofName "transition" :: items.map strip)) (.ofTransition t) := by
  unfold transitionOfSexprs at h
  split at h
  · simp only [bind_eq_ok, modsOfSexpr_eq_ok, expectAtom_eq_ok, binderOfSexpr_eq_ok,
      pure_eq_ok] at h
    obtain ⟨_, ⟨names, hNames, rfl⟩, name, hName, params, hParams, body, hBody, rfl⟩ := h
    rw [map_cons, map_cons, map_cons, hName, hParams, hNames]
    exact .transition name params names hBody
  · cases h

theorem reads_namedFormula {wrap : NamedFormula → Declaration} (hKind : Wraps keyword wrap)
    (h : namedFormulaOfSexprs line keyword items = .ok f) :
    Reads (.ofItems (.ofName keyword :: items.map strip)) (wrap f) := by
  unfold namedFormulaOfSexprs at h
  split at h
  · obtain ⟨g, hg, h⟩ := bind_eq_ok.mp h
    exact pure_eq_ok.mp h ▸ .unnamed hKind hg
  · obtain ⟨name, hName, h⟩ := bind_eq_ok.mp h
    obtain ⟨g, hg, h⟩ := bind_eq_ok.mp h
    rw [map_cons, expectAtom_eq_ok.mp hName]
    exact pure_eq_ok.mp h ▸ .named hKind name hg
  · cases h

theorem Reads.of_ofSexpr (h : ofSexpr e = .ok d) : Reads e.strip d := by
  obtain ⟨all, hAll, h⟩ := bind_eq_ok.mp h
  obtain ⟨line, rfl⟩ := expectList_eq_ok.mp hAll
  obtain _ | ⟨word, items⟩ := all
  · cases h
  obtain ⟨keyword, hWord, h⟩ := bind_eq_ok.mp h
  rw [strip_list, map_cons, expectAtom_eq_ok.mp hWord]
  split at h
  · split at h
    · obtain ⟨name, hName, h⟩ := bind_eq_ok.mp h
      obtain rfl := pure_eq_ok.mp h
      rw [map_cons, expectAtom_eq_ok.mp hName]
      exact .sort name
    · cases h
  · obtain ⟨s, hs, h⟩ := bind_eq_ok.mp h
    exact pure_eq_ok.mp h ▸ reads_relation hs
  · obtain ⟨s, hs, h⟩ := bind_eq_ok.mp h
    exact pure_eq_ok.mp h ▸ reads_constant hs
  · obtain ⟨s, hs, h⟩ := bind_eq_ok.mp h
    exact pure_eq_ok.mp h ▸ reads_function hs
  · obtain ⟨t, ht, h⟩ := bind_eq_ok.mp h
    exact pure_eq_ok.mp h ▸ reads_transition ht
  -- What is left is the keywords of named formulas.
  case h_12 => cases h
  all_goals
    obtain ⟨f, hf, h⟩ := bind_eq_ok.mp h
    obtain rfl := pure_eq_ok.mp h
  · exact reads_namedFormula .ofAxiom hf
  · exact reads_namedFormula .ofInit hf
  · exact reads_namedFormula .safety hf
  · exact reads_namedFormula .ofInvariant hf
  · exact reads_namedFormula .ofTheorem hf
  · exact reads_namedFormula .twoState hf

theorem Wraps.ofSexpr_eq {wrap : NamedFormula → Declaration} (h : Wraps keyword wrap) :
    ofSexpr (.list line (.ofName keyword :: items)) =
      namedFormulaOfSexprs line keyword items >>= fun f => pure (wrap f) := by
  cases h <;> rfl

theorem ofSexpr_of_kind {α : Type} (part : Nat → List Sexpr → Except (Located Fault) α)
    (wrap : α → Declaration) {rest : List Sexpr} (h : e.strip = .ofItems (.ofName keyword :: rest))
    (hKind : ∀ line items, ofSexpr (.list line (.ofName keyword :: items)) =
      part line items >>= fun a => pure (wrap a))
    {a : α} (hPart : ∀ line items, items.map strip = rest → part line items = .ok a) :
    ofSexpr e = .ok (wrap a) := by
  obtain ⟨line, _, rfl, hAll⟩ := strip_eq_ofItems.mp h
  obtain ⟨word, items, rfl, hWord, hItems⟩ := map_eq_cons_iff.mp hAll
  obtain ⟨wordLine, rfl⟩ := strip_eq_ofName.mp hWord
  refine (hKind line items).trans ?_
  rw [hPart line items hItems]
  rfl

/-- **Reading is by what stands there**, whatever the lines are. -/
theorem ofSexpr_eq_ok : ofSexpr e = .ok d ↔ Reads e.strip d := by
  refine ⟨.of_ofSexpr, fun h => ?_⟩
  generalize hStrip : e.strip = stripped at h
  cases h with
  | sort name =>
    obtain ⟨line, items, rfl, hItems⟩ := strip_eq_ofItems.mp hStrip
    simp only [map_eq_cons_iff, map_eq_nil_iff] at hItems
    obtain ⟨word, _, rfl, hWord, e₁, _, rfl, h₁, rfl⟩ := hItems
    obtain ⟨wordLine, rfl⟩ := strip_eq_ofName.mp hWord
    exact bind_eq_ok.mpr ⟨_, rfl, bind_eq_ok.mpr ⟨"sort", rfl, bind_eq_ok.mpr
      ⟨name, expectAtom_eq_ok.mpr h₁, rfl⟩⟩⟩
  | relation name sorts isMutable =>
    refine ofSexpr_of_kind relationOfSexprs .ofSymbol hStrip (fun _ _ => rfl) fun line items h => ?_
    simp only [map_eq_cons_iff, map_eq_nil_iff] at h
    obtain ⟨e₁, _, rfl, h₁, e₂, _, rfl, h₂, e₃, _, rfl, h₃, rfl⟩ := h
    simp only [relationOfSexprs, bind_eq_ok, expectAtom_eq_ok, sortsOfSexpr_eq_ok,
      mutabilityOfSexpr_eq_ok, pure_eq_ok]
    exact ⟨name, h₁, sorts, h₂, isMutable, h₃, rfl⟩
  | derived name sorts isMutable hf =>
    refine ofSexpr_of_kind relationOfSexprs .ofSymbol hStrip (fun _ _ => rfl) fun line items h => ?_
    simp only [map_eq_cons_iff, map_eq_nil_iff] at h
    obtain ⟨e₁, _, rfl, h₁, e₂, _, rfl, h₂, e₃, _, rfl, h₃, e₄, _, rfl, h₄, rfl⟩ := h
    simp only [relationOfSexprs, bind_eq_ok, expectAtom_eq_ok, sortsOfSexpr_eq_ok,
      mutabilityOfSexpr_eq_ok, pure_eq_ok]
    exact ⟨_, definitionOfSexpr_eq_ok.mpr ⟨_, h₄, hf⟩, name, h₁, sorts, h₂, isMutable, h₃, rfl⟩
  | constant name sort isMutable =>
    refine ofSexpr_of_kind constantOfSexprs .ofSymbol hStrip (fun _ _ => rfl) fun line items h => ?_
    simp only [map_eq_cons_iff, map_eq_nil_iff] at h
    obtain ⟨e₁, _, rfl, h₁, e₂, _, rfl, h₂, e₃, _, rfl, h₃, rfl⟩ := h
    simp only [constantOfSexprs, bind_eq_ok, expectAtom_eq_ok, mutabilityOfSexpr_eq_ok, pure_eq_ok]
    exact ⟨name, h₁, sort, h₂, isMutable, h₃, rfl⟩
  | function name sorts result isMutable =>
    refine ofSexpr_of_kind functionOfSexprs .ofSymbol hStrip (fun _ _ => rfl) fun line items h => ?_
    simp only [map_eq_cons_iff, map_eq_nil_iff] at h
    obtain ⟨e₁, _, rfl, h₁, e₂, _, rfl, h₂, e₃, _, rfl, h₃, e₄, _, rfl, h₄, rfl⟩ := h
    simp only [functionOfSexprs, bind_eq_ok, expectAtom_eq_ok, sortsOfSexpr_eq_ok,
      mutabilityOfSexpr_eq_ok, pure_eq_ok]
    exact ⟨name, h₁, sorts, h₂, result, h₃, isMutable, h₄, rfl⟩
  | transition name params names hf =>
    refine ofSexpr_of_kind transitionOfSexprs .ofTransition hStrip (fun _ _ => rfl)
      fun line items h => ?_
    simp only [map_eq_cons_iff, map_eq_nil_iff] at h
    obtain ⟨e₁, _, rfl, h₁, e₂, _, rfl, h₂, e₃, _, rfl, h₃, e₄, _, rfl, h₄, rfl⟩ := h
    simp only [transitionOfSexprs, bind_eq_ok, modsOfSexpr_eq_ok, expectAtom_eq_ok,
      binderOfSexpr_eq_ok, pure_eq_ok]
    exact ⟨_, ⟨names, h₃, rfl⟩, name, h₁, params, h₂, _, Formula.ofSexpr_congr h₄ hf, rfl⟩
  | unnamed hKind hf =>
    refine ofSexpr_of_kind (namedFormulaOfSexprs · _) _ hStrip (fun _ _ => hKind.ofSexpr_eq)
      fun line items h => ?_
    obtain ⟨g, rfl, hg⟩ := map_eq_singleton_iff.mp h
    exact bind_eq_ok.mpr ⟨_, Formula.ofSexpr_congr hg hf, rfl⟩
  | named hKind name hf =>
    refine ofSexpr_of_kind (namedFormulaOfSexprs · _) _ hStrip (fun _ _ => hKind.ofSexpr_eq)
      fun line items h => ?_
    simp only [map_eq_cons_iff, map_eq_nil_iff] at h
    obtain ⟨e₁, _, rfl, h₁, g, _, rfl, hg, rfl⟩ := h
    exact bind_eq_ok.mpr ⟨name, expectAtom_eq_ok.mpr h₁, bind_eq_ok.mpr
      ⟨_, Formula.ofSexpr_congr hg hf, rfl⟩⟩

/-- **A declaration that was read is formed.** -/
theorem Formed.of_ofSexpr (h : ofSexpr e = .ok d) (hSpelt : e.Spelt) : d.Formed := by
  rw [← spelt_strip] at hSpelt
  have hReads := ofSexpr_eq_ok.mp h
  generalize e.strip = stripped at hSpelt hReads
  have hBool : IsAtom boolSort := by decide
  cases hReads <;> simp only [spelt_ofItems, forall_mem_cons, forall_mem_map, spelt_ofName,
    spelt_strip, spelt_binderToSexpr, sortsToSexpr] at hSpelt
  case sort => exact ⟨hSpelt.2.1, by simp [Declaration.formulas]⟩
  case relation =>
    exact ⟨⟨hSpelt.2.1, hSpelt.2.2.1, hBool⟩, by simp [Declaration.formulas, definition?]⟩
  case derived hf =>
    refine ⟨⟨hSpelt.2.1, hSpelt.2.2.1, hBool⟩, ?_⟩
    simpa [Declaration.formulas, definition?] using .of_ofSexpr hf hSpelt.2.2.2.2.1.2.1
  case constant =>
    exact ⟨⟨hSpelt.2.1, by simp [args], hSpelt.2.2.1⟩, by simp [Declaration.formulas, definition?]⟩
  case function =>
    exact ⟨⟨hSpelt.2.1, hSpelt.2.2.1, hSpelt.2.2.2.1⟩, by simp [Declaration.formulas, definition?]⟩
  case transition names _ _ hf =>
    refine ⟨⟨hSpelt.2.1, hSpelt.2.2.1, fun n hn => hSpelt.2.2.2.1.2 n
      (NameSet.mem_of_mem_ofList hn), NameSet.sorted_ofList names⟩, ?_⟩
    simpa [Declaration.formulas] using Formula.Formed.of_ofSexpr hf hSpelt.2.2.2.2.1
  case unnamed hKind _ _ hf =>
    have hFormed := Formula.Formed.of_ofSexpr hf hSpelt.2.1
    cases hKind <;> exact ⟨.inl rfl, by simpa [Declaration.formulas] using hFormed⟩
  case named hKind _ _ _ hf =>
    have hFormed := Formula.Formed.of_ofSexpr hf hSpelt.2.2.1
    cases hKind <;> exact ⟨.inr hSpelt.2.1, by simpa [Declaration.formulas] using hFormed⟩

/-! ## Writing declarations -/

/-- What a named formula is written as under a keyword. -/
def namedToSexpr (keyword : String) (f : NamedFormula) : Sexpr :=
  .ofItems (.ofName keyword ::
    if f.name = "" then [f.formula.toSexpr] else [.ofName f.name, f.formula.toSexpr])

theorem render_namedFormula (keyword : String) (f : NamedFormula) :
    f.render keyword = (namedToSexpr keyword f).render := by
  unfold NamedFormula.render namedToSexpr
  by_cases hName : f.name = ""
  · simp [hName, Sexpr.ofItems, Sexpr.ofName, Sexpr.render, Sexpr.renderItems, Formula.render,
      String.append_assoc]
  · simp [hName, Sexpr.ofItems, Sexpr.ofName, Sexpr.render, Sexpr.renderItems, Formula.render,
      String.append_assoc]

/-- What a declaration is written as. -/
def toSexpr : Declaration → Sexpr
  | .ofSort name => .ofItems [.ofName "sort", .ofName name]
  | .ofSymbol s => s.toSexpr
  | .ofAxiom f => namedToSexpr "axiom" f
  | .ofInit f => namedToSexpr "init" f
  | .ofTransition t => .ofItems (t.head ++ [t.body.toSexpr])
  | .ofInvariant i => namedToSexpr i.keyword i.toNamedFormula
  | .ofTheorem t => namedToSexpr t.keyword t.toNamedFormula

/-- The text of a declaration in a layout. -/
def render (layout : Layout) : Declaration → String
  | .ofTransition t => t.render layout
  | d => d.toSexpr.render

theorem spelt_namedToSexpr (hKeyword : IsAtom keyword) (hName : f.name = "" ∨ IsAtom f.name)
    (hFormula : f.formula.Formed) : (namedToSexpr keyword f).Spelt := by
  rw [namedToSexpr, spelt_ofItems, forall_mem_cons]
  refine ⟨spelt_ofName.mpr hKeyword, ?_⟩
  split_ifs with hEmpty
  · simpa using hFormula.spelt_toSexpr
  · simpa using ⟨hName.resolve_left hEmpty, hFormula.spelt_toSexpr⟩

theorem spelt_head (h : (ofTransition t).Formed) : ∀ e ∈ t.head, e.Spelt := by
  obtain ⟨⟨hName, hParams, hMods, -⟩, -⟩ := h
  have hMods' : ∀ e ∈ ofName "mods" :: t.mods.toList.map .ofName, e.Spelt := by
    rw [forall_mem_cons, forall_mem_map]
    exact ⟨spelt_ofName.mpr (by decide), fun n hn => spelt_ofName.mpr (hMods n hn)⟩
  intro e he
  simp only [Transition.head, mem_cons, not_mem_nil, or_false] at he
  rcases he with rfl | rfl | rfl | rfl
  · exact spelt_ofName.mpr (by decide)
  · exact spelt_ofName.mpr hName
  · exact spelt_binderToSexpr.mpr hParams
  · exact spelt_ofItems.mpr hMods'

theorem spelt_symbol (h : (ofSymbol s).Formed) : s.toSexpr.Spelt := by
  obtain ⟨⟨hName, hArgs, hResult⟩, hFormulas⟩ := h
  have hMutability : IsAtom (mutabilityWord s.isMutable) := by cases s.isMutable <;> decide
  have hKeywords : IsAtom "relation" ∧ IsAtom "constant" ∧ IsAtom "function" ∧
      IsAtom "derived" := by decide
  have hSorts : (sortsToSexpr s.args).Spelt := by
    rw [sortsToSexpr, spelt_ofItems, forall_mem_map]
    exact fun sort hSort => spelt_ofName.mpr (hArgs sort hSort)
  unfold Symbol.toSexpr
  unfold Symbol.args at hSorts
  unfold result at hResult
  simp only [formulas, definition?] at hFormulas
  cases hSignature : s.signature with
  | relation args definition =>
    rw [hSignature] at hSorts hFormulas
    cases definition with
    | none => simp_all
    | some f => simp_all [(hFormulas f (by simp)).spelt_toSexpr]
  | constant sort =>
    rw [hSignature] at hResult
    simp_all
  | function args result =>
    rw [hSignature] at hSorts hResult
    simp_all

/-- The text of a transition spells its tokens in both layouts, which differ in the white space
before the body. -/
theorem spells_transition (h : (ofTransition t).Formed) (layout : Layout) :
    Spells (t.render layout) (ofTransition t).toSexpr.tokens := by
  have hBody : t.body.Formed := h.formulas _ (by simp [formulas])
  have hHead := spellsOut_opening.append_spells (spells_renderItems (spelt_head h))
  have hSpace : ∀ space : String, SpellsOut space [] → Separates space →
      Spells ("(" ++ renderItems t.head ++ space ++ t.body.render ++ ")")
        (ofTransition t).toSexpr.tokens := by
    intro space hBlank hSeparates
    have hBefore := (hHead.append_out hBlank hSeparates).append_spells hBody.spells_render
    have hAll := (hBefore.append_out spellsOut_closing separates_closing).spells
    have hTokens : (ofTransition t).toSexpr.tokens =
        [.opening] ++ tokensOf t.head ++ [] ++ t.body.toSexpr.tokens ++ [.closing] := by
      simp [toSexpr, ofItems, tokens, tokensOf_append, tokensOf]
    rw [hTokens]
    exact hAll
  cases layout with
  | compact => exact hSpace " " (spellsOut_blanks (by decide)) separates_blank
  | spread => exact hSpace "\n    " (spellsOut_blanks (by decide)) (separates_of_head rfl rfl)

/-- **The text of a declaration spells the tokens of what it is written as**, in both layouts. -/
theorem Formed.spells_render (h : d.Formed) (layout : Layout) :
    Spells (d.render layout) d.toSexpr.tokens := by
  have hFormulas := h.formulas
  have hSpelt := h.spelt
  cases d with
  | ofSort name =>
    have hKeyword : IsAtom "sort" := by decide
    have hName : IsAtom name := hSpelt
    have hAll : (ofSort name).toSexpr.Spelt := by simp [toSexpr, hKeyword, hName]
    exact hAll.spells_render
  | ofSymbol s => exact (spelt_symbol h).spells_render
  | ofAxiom f | ofInit f =>
    have hFormula := hFormulas f.formula (by simp [Declaration.formulas])
    exact (spelt_namedToSexpr (by decide) hSpelt hFormula).spells_render
  | ofInvariant i =>
    have hKeyword : IsAtom i.keyword := by
      unfold Invariant.keyword
      split_ifs <;> decide
    have hFormula := hFormulas i.formula (by simp [Declaration.formulas])
    exact (spelt_namedToSexpr hKeyword hSpelt hFormula).spells_render
  | ofTheorem t =>
    have hKeyword : IsAtom t.keyword := by
      unfold Theorem.keyword
      split_ifs <;> decide
    have hFormula := hFormulas t.formula (by simp [Declaration.formulas])
    exact (spelt_namedToSexpr hKeyword hSpelt hFormula).spells_render
  | ofTransition t => exact spells_transition h layout

/-! ## Reading back -/

theorem strip_sortsToSexpr (sorts : List String) :
    (sortsToSexpr sorts).strip = sortsToSexpr sorts := by
  simp [sortsToSexpr, Function.comp_def]

theorem reads_namedToSexpr {wrap : NamedFormula → Declaration} (hKind : Wraps keyword wrap)
    (h : Formula.ofSexpr f.formula.toSexpr = .ok f.formula) :
    Reads (namedToSexpr keyword f).strip (wrap f) := by
  obtain ⟨name, formula⟩ := f
  by_cases hName : name = ""
  · subst hName
    exact .unnamed hKind h
  · simp only [namedToSexpr, hName, if_false, strip_ofItems, map_cons, map_nil, strip_ofName]
    exact .named hKind name h

/-- **A formed declaration is read back from what it is written as**, when no identifier in it is
spelt like a truth value. -/
theorem ofSexpr_of_strip (h : e.strip = d.toSexpr.strip) (hFormed : d.Formed)
    (hPlain : ∀ f ∈ d.formulas, f.Unmistakable) : ofSexpr e = .ok d := by
  have hFormulas : ∀ f ∈ d.formulas, Formula.ofSexpr f.toSexpr = .ok f := fun f hf =>
    Formula.ofSexpr_toSexpr (hFormed.formulas f hf) (hPlain f hf)
  rw [ofSexpr_eq_ok, h]
  cases d with
  | ofSort name => exact .sort name
  | ofSymbol s =>
    obtain ⟨name, signature, isMutable⟩ := s
    rcases signature with ⟨args, _ | definition⟩ | sort | ⟨args, result⟩ <;>
      simp only [toSexpr, Symbol.toSexpr, strip_ofItems, map_cons, map_nil, strip_ofName,
        strip_sortsToSexpr]
    · exact .relation name args isMutable
    · exact .derived name args isMutable (hFormulas definition (by simp [formulas, definition?]))
    · exact .constant name sort isMutable
    · exact .function name args result isMutable
  | ofTransition t =>
    have hReads := Reads.transition t.name t.params t.mods.toList
      (hFormulas t.body (by simp [formulas]))
    rw [hFormed.spelt.2.2.2.ofList_toList] at hReads
    simpa [toSexpr, Transition.head, strip_binderToSexpr, Function.comp_def] using hReads
  | ofAxiom f => exact reads_namedToSexpr .ofAxiom (hFormulas f.formula (by simp [formulas]))
  | ofInit f => exact reads_namedToSexpr .ofInit (hFormulas f.formula (by simp [formulas]))
  | ofInvariant i =>
    obtain ⟨f, _ | _⟩ := i
    · exact reads_namedToSexpr .ofInvariant (hFormulas f.formula (by simp [formulas]))
    · exact reads_namedToSexpr .safety (hFormulas f.formula (by simp [formulas]))
  | ofTheorem t =>
    obtain ⟨f, _ | _⟩ := t
    · exact reads_namedToSexpr .ofTheorem (hFormulas f.formula (by simp [formulas]))
    · exact reads_namedToSexpr .twoState (hFormulas f.formula (by simp [formulas]))

end Declaration

end Program

end InvariantSearch
