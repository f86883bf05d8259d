import InvariantSearch.Program.Notation
import InvariantSearch.Proofs.Computation.Basic
import Mathlib.Data.List.Induction
import Mathlib.Data.List.Nodup

/-!
# Declarations in any order

A program is what its declarations say, in whatever order they are made.

* `Declaration.key?` is the name a declaration takes, with the name space it takes it in, and
  `Declaration.Permitted` says that it may have such a name at all.
* `Program.collect` sorts some declarations by kind.

Main result: `foldlM_add_eq_ok` — declarations are accepted one after the other exactly when each
is permitted and no two take the same name, and the program they make is their collection. Neither
side depends on an order between kinds, so the declarations of a program, taken kind by kind, make
it again (`foldlM_add_declared`).
-/

namespace InvariantSearch

open List

variable {p : Program} {ds : List Declaration}

namespace Program

namespace Declaration

/-! ## Names -/

/-- The name spaces of a program. -/
inductive Space where
  | sort | symbol | transition | formula
  deriving DecidableEq

/-- The name of a formula, which may have none. -/
def formulaKey? (name : String) : Option (Space × String) :=
  if name = "" then none else some (.formula, name)

/-- The name a declaration takes, and where. -/
def key? : Declaration → Option (Space × String)
  | .ofSort name => some (.sort, name)
  | .ofSymbol s => some (.symbol, s.name)
  | .ofAxiom f => formulaKey? f.name
  | .ofInit f => formulaKey? f.name
  | .ofTransition t => some (.transition, t.name)
  | .ofInvariant i => formulaKey? i.name
  | .ofTheorem t => formulaKey? t.name

/-- A name that a symbol may have. -/
structure IsSymbolName (name : String) : Prop where
  nonempty : name ≠ ""
  sort : name ≠ boolSort
  yes : name ≠ "true"
  no : name ≠ "false"

/-- A declaration that some program accepts. -/
def Permitted : Declaration → Prop
  | .ofSort name => name ≠ "" ∧ name ≠ boolSort
  | .ofSymbol s => IsSymbolName s.name ∧ ∀ result, s.signature ≠ .function [] result
  | .ofTransition t => t.name ≠ ""
  | .ofAxiom _ | .ofInit _ | .ofInvariant _ | .ofTheorem _ => True

/-! ## Kinds -/

def sort? : Declaration → Option String
  | .ofSort name => some name
  | _ => none

def symbol? : Declaration → Option Symbol
  | .ofSymbol s => some s
  | _ => none

def axiom? : Declaration → Option NamedFormula
  | .ofAxiom f => some f
  | _ => none

def init? : Declaration → Option NamedFormula
  | .ofInit f => some f
  | _ => none

def transition? : Declaration → Option Transition
  | .ofTransition t => some t
  | _ => none

def invariant? : Declaration → Option Invariant
  | .ofInvariant i => some i
  | _ => none

def theorem? : Declaration → Option Theorem
  | .ofTheorem t => some t
  | _ => none

end Declaration

open Declaration

/-- The program of some declarations, not validated. -/
def collect (ds : List Declaration) : Program where
  sorts := ds.filterMap sort?
  symbols := ds.filterMap Declaration.symbol?
  axioms := ds.filterMap axiom?
  inits := ds.filterMap init?
  transitions := ds.filterMap Declaration.transition?
  invariants := ds.filterMap invariant?
  theorems := ds.filterMap theorem?
  validated := false

/-- The declarations of a program, kind by kind. -/
def declared (p : Program) : List Declaration :=
  p.sorts.map .ofSort ++ p.symbols.map .ofSymbol ++ p.axioms.map .ofAxiom ++
    p.inits.map .ofInit ++ p.transitions.map .ofTransition ++ p.invariants.map .ofInvariant ++
    p.theorems.map .ofTheorem

theorem collect_nil : collect [] = empty := rfl

/-- **A program is the collection of its declarations.** -/
theorem collect_declared (p : Program) : collect p.declared = { p with validated := false } := by
  simp [collect, declared, filterMap_append, filterMap_map, Function.comp_def,
    sort?, Declaration.symbol?, axiom?, init?,
    Declaration.transition?, invariant?, theorem?]

theorem keys_declared (p : Program) :
    p.declared.filterMap key? =
      p.sorts.map (Prod.mk .sort) ++ (p.symbols.map Symbol.name).map (Prod.mk .symbol) ++
      ((p.axioms.map NamedFormula.name).filter (· ≠ "")).map (Prod.mk .formula) ++
      ((p.inits.map NamedFormula.name).filter (· ≠ "")).map (Prod.mk .formula) ++
      (p.transitions.map Transition.name).map (Prod.mk .transition) ++
      ((p.invariants.map (·.name)).filter (· ≠ "")).map (Prod.mk .formula) ++
      ((p.theorems.map (·.name)).filter (· ≠ "")).map (Prod.mk .formula) := by
  have hFormulas : ∀ {α : Type} (name : α → String) (fs : List α),
      fs.filterMap (fun f => formulaKey? (name f)) =
        ((fs.map name).filter (· ≠ "")).map (Prod.mk .formula) := by
    intro α name fs
    induction fs with
    | nil => rfl
    | cons f fs ih =>
      by_cases hName : name f = "" <;> simp_all [formulaKey?]
  simp [declared, filterMap_append, filterMap_map, Function.comp_def, key?, hFormulas]

theorem declared_collect_perm (ds : List Declaration) : (collect ds).declared.Perm ds := by
  induction ds with
  | nil => exact .nil
  | cons d ds ih =>
    -- The declaration joins its own kind; the kinds after it are carried along.
    refine Perm.trans ?_ (ih.cons d)
    unfold declared
    cases d with
    | ofSort name => exact .refl _
    | ofSymbol s =>
      exact ((((perm_middle.append_right _).append_right _).append_right _).append_right
        _).append_right _
    | ofAxiom f =>
      exact (((perm_middle.append_right _).append_right _).append_right _).append_right _
    | ofInit f => exact ((perm_middle.append_right _).append_right _).append_right _
    | ofTransition t => exact (perm_middle.append_right _).append_right _
    | ofInvariant i => exact perm_middle.append_right _
    | ofTheorem t => exact perm_middle

/-- A program with one more declaration. -/
def extend (p : Program) : Declaration → Program
  | .ofSort name => { p with sorts := p.sorts ++ [name], validated := false }
  | .ofSymbol s => { p with symbols := p.symbols ++ [s], validated := false }
  | .ofAxiom f => { p with axioms := p.axioms ++ [f], validated := false }
  | .ofInit f => { p with inits := p.inits ++ [f], validated := false }
  | .ofTransition t => { p with transitions := p.transitions ++ [t], validated := false }
  | .ofInvariant i => { p with invariants := p.invariants ++ [i], validated := false }
  | .ofTheorem t => { p with theorems := p.theorems ++ [t], validated := false }

theorem collect_concat (ds : List Declaration) (d : Declaration) :
    collect (ds ++ [d]) = (collect ds).extend d := by
  cases d <;>
    simp [collect, extend, filterMap_cons, sort?, Declaration.symbol?,
      axiom?, init?, Declaration.transition?, invariant?,
      theorem?]

/-! ## The names a collection uses -/

section Names

variable {ds : List Declaration} {name : String}

theorem mem_sorts_collect :
    name ∈ (collect ds).sorts ↔ (.sort, name) ∈ ds.filterMap key? := by
  simp only [collect, mem_filterMap]
  refine exists_congr fun d => and_congr_right fun _ => ?_
  cases d <;> simp [sort?, key?, formulaKey?]

theorem isSome_symbol?_collect :
    ((collect ds).symbol? name).isSome ↔ (.symbol, name) ∈ ds.filterMap key? := by
  simp only [Program.symbol?, collect, find?_isSome, mem_filterMap, beq_iff_eq]
  constructor
  · rintro ⟨s, ⟨d, hd, hs⟩, rfl⟩
    refine ⟨d, hd, ?_⟩
    cases d <;> simp_all [Declaration.symbol?, key?]
  · rintro ⟨d, hd, hKey⟩
    cases d <;> simp [key?, formulaKey?] at hKey
    exact ⟨_, ⟨_, hd, rfl⟩, hKey⟩

theorem isSome_transition?_collect :
    ((collect ds).transition? name).isSome ↔
      (.transition, name) ∈ ds.filterMap key? := by
  simp only [Program.transition?, collect, find?_isSome, mem_filterMap, beq_iff_eq]
  constructor
  · rintro ⟨t, ⟨d, hd, ht⟩, rfl⟩
    refine ⟨d, hd, ?_⟩
    cases d <;> simp_all [Declaration.transition?, key?]
  · rintro ⟨d, hd, hKey⟩
    cases d <;> simp [key?, formulaKey?] at hKey
    exact ⟨_, ⟨_, hd, rfl⟩, hKey⟩

theorem mem_formulaNames_collect (hName : name ≠ "") :
    name ∈ (collect ds).formulaNames ↔ (.formula, name) ∈ ds.filterMap key? := by
  simp only [formulaNames, collect, mem_filter, mem_append, mem_map,
    mem_filterMap, hName, decide_true, and_true, ne_eq, not_false_eq_true]
  constructor
  · rintro (((⟨f, ⟨d, hd, hf⟩, rfl⟩ | ⟨f, ⟨d, hd, hf⟩, rfl⟩) | ⟨f, ⟨d, hd, hf⟩, rfl⟩) |
      ⟨f, ⟨d, hd, hf⟩, rfl⟩)
    all_goals
      refine ⟨d, hd, ?_⟩
      cases d <;> simp_all [axiom?, init?, invariant?,
        theorem?, key?, formulaKey?]
  · rintro ⟨d, hd, hKey⟩
    cases d <;> simp [key?, formulaKey?] at hKey
    · exact Or.inl (Or.inl (Or.inl ⟨_, ⟨_, hd, rfl⟩, hKey.2⟩))
    · exact Or.inl (Or.inl (Or.inr ⟨_, ⟨_, hd, rfl⟩, hKey.2⟩))
    · exact Or.inl (Or.inr ⟨_, ⟨_, hd, rfl⟩, hKey.2⟩)
    · exact Or.inr ⟨_, ⟨_, hd, rfl⟩, hKey.2⟩

theorem checkFormulaName_collect :
    (collect ds).checkFormulaName name = .ok () ↔
      ∀ key ∈ formulaKey? name, key ∉ ds.filterMap key? := by
  unfold checkFormulaName formulaKey?
  by_cases hName : name = ""
  · simp [hName]
  · simp [hName, ← mem_formulaNames_collect hName, -mem_filterMap]

end Names

/-! ## Adding declarations -/

theorem checkSymbolName_eq_ok {name : String} :
    p.checkSymbolName name = .ok () ↔
      Declaration.IsSymbolName name ∧ (p.symbol? name).isSome = false := by
  unfold checkSymbolName
  split
  · rename_i hName
    simp only [reduceCtorEq, false_iff, not_and]
    intro h
    rcases hName with hName | hName | hName | hName
    · exact absurd hName h.nonempty
    · exact absurd hName h.sort
    · exact absurd hName h.yes
    · exact absurd hName h.no
  · rename_i hName
    simp only [not_or] at hName
    obtain ⟨hEmpty, hBool, hTrue, hFalse⟩ := hName
    have hFine : Declaration.IsSymbolName name := ⟨hEmpty, hBool, hTrue, hFalse⟩
    split <;> simp_all

/-- **A collection accepts one more declaration** when that is permitted and its name is new, and
then collects it too. -/
theorem add_collect {d : Declaration} {q : Program} :
    (collect ds).add d = .ok q ↔
      d.Permitted ∧ (∀ key ∈ d.key?, key ∉ ds.filterMap key?) ∧
        q = collect (ds ++ [d]) := by
  rw [collect_concat]
  -- sorts, symbols and transitions are looked up among their own kind, and the named formulas among
  -- all four kinds of them
  cases d with
  | ofSort name =>
    simp only [Permitted, key?, Option.mem_some_iff, forall_eq',
      ← mem_sorts_collect, add, addSort, hasSort, contains_iff_mem]
    split_ifs with hName hTaken
    · simp only [false_iff]
      tauto
    · simp [hTaken]
    · simp only [not_or] at hName
      simp [hName, hTaken, extend, eq_comm]
  | ofSymbol s =>
    simp only [Permitted, key?, Option.mem_some_iff, forall_eq',
      ← isSome_symbol?_collect]
    rw [add, addSymbol, bind_eq_ok]
    constructor
    · rintro ⟨_, hName, h⟩
      obtain ⟨hName, hNew⟩ := checkSymbolName_eq_ok.mp hName
      split at h
      · cases h
      · rename_i hSignature
        obtain rfl := pure_eq_ok.mp h
        exact ⟨⟨hName, hSignature⟩, by simp [hNew], rfl⟩
    · rintro ⟨⟨hName, hSignature⟩, hNew, rfl⟩
      refine ⟨(), checkSymbolName_eq_ok.mpr ⟨hName, by simpa using hNew⟩, ?_⟩
      split
      · rename_i result hFunction
        exact absurd hFunction (hSignature result)
      · rfl
  | ofTransition t =>
    simp only [Permitted, key?, Option.mem_some_iff, forall_eq',
      ← isSome_transition?_collect, add, addTransition]
    split_ifs with hName hTaken
    · simp [hName]
    · simp [hTaken]
    · simp [hName, hTaken, extend, eq_comm]
  | ofAxiom f | ofInit f | ofInvariant f | ofTheorem f =>
    simp only [Permitted, key?, true_and, ← checkFormulaName_collect]
    constructor
    · intro h
      obtain ⟨_, hName, h⟩ := bind_eq_ok.mp h
      exact ⟨hName, (pure_eq_ok.mp h).symm⟩
    · rintro ⟨hName, rfl⟩
      exact bind_eq_ok.mpr ⟨(), hName, rfl⟩

theorem add_validated (p : Program) (validated : Bool) (d : Declaration) :
    { p with validated }.add d = p.add d := by
  cases d <;> rfl

/-- **Declarations make a program exactly when each is permitted and their names differ**, and
then the program is their collection. -/
theorem foldlM_add_eq_ok :
    ds.foldlM add empty = .ok p ↔
      (∀ d ∈ ds, d.Permitted) ∧ (ds.filterMap key?).Nodup ∧ p = collect ds := by
  -- the last declaration is added to the collection of those before it
  induction ds using reverseRecOn generalizing p with
  | nil => simp [collect_nil, pure, Except.pure, eq_comm]
  | append_singleton ds d ih =>
    have hKeys : ((ds ++ [d]).filterMap key?).Nodup ↔
        (ds.filterMap key?).Nodup ∧
          ∀ key ∈ d.key?, key ∉ ds.filterMap key? := by
      cases hKey : d.key? with
      | none => simp [filterMap_append, hKey]
      | some key =>
        rw [filterMap_append, filterMap_cons_some hKey, filterMap_nil,
          ← concat_eq_append, nodup_concat]
        simp [and_comm]
    rw [foldlM_append, bind_eq_ok, hKeys]
    constructor
    · rintro ⟨q, hq, hAdd⟩
      obtain ⟨hPermitted, hNodup, rfl⟩ := ih.mp hq
      obtain ⟨r, hr, hLast⟩ := bind_eq_ok.mp hAdd
      obtain rfl := pure_eq_ok.mp hLast
      obtain ⟨hThis, hNew, rfl⟩ := add_collect.mp hr
      refine ⟨?_, ⟨hNodup, hNew⟩, rfl⟩
      intro e he
      rcases mem_append.mp he with he | he
      · exact hPermitted e he
      · rw [mem_singleton.mp he]
        exact hThis
    · rintro ⟨hPermitted, ⟨hNodup, hNew⟩, rfl⟩
      refine ⟨collect ds, ih.mpr ⟨fun e he => hPermitted e (by simp [he]), hNodup, rfl⟩, ?_⟩
      refine bind_eq_ok.mpr ⟨_, add_collect.mpr ⟨hPermitted d (by simp), hNew, rfl⟩, rfl⟩

/-- **The order of declarations decides nothing**: taken kind by kind, they make the same
program. -/
theorem foldlM_add_declared (h : ds.foldlM add empty = .ok p) :
    p.declared.foldlM add empty = .ok p := by
  obtain ⟨hPermitted, hNodup, rfl⟩ := foldlM_add_eq_ok.mp h
  have hPerm := declared_collect_perm ds
  refine foldlM_add_eq_ok.mpr ⟨fun d hd => hPermitted d (hPerm.mem_iff.mp hd), ?_, ?_⟩
  · exact (hPerm.filterMap _).nodup_iff.mpr hNodup
  · exact (collect_declared (collect ds)).symm

end Program

end InvariantSearch
