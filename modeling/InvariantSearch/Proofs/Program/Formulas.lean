import InvariantSearch.Proofs.Formula.RoundTrip
import InvariantSearch.Proofs.Program.RoundTrip

/-!
# Formulas that fit a program, and their texts

* `Types.exists_part` — every part of a formula that fits a program fits it too, in a scope
  of variables that the formula binds.
* `Program.Knows` — the names of a formula are those of the program and of its own variables;
  `Sorted.knows` says so of a formula that fits.
* `Program.Spelt` — the names of a program are atoms, and no symbol is called like a truth value;
  `spelt_of_read` says so of a program that was read.

Main result: `read_render_iff_of_check`. Fitting a program does not make a formula readable. One
that fits is read back from its text exactly when it applies no symbol called like an operator and
has no identifier called like a truth value. Symbols may be called like operators, and diagrams
apply them (`diagram_not_read_back`).
-/

namespace InvariantSearch

open Formula List

open Sexpr (IsAtom)

variable {name : String}

namespace Program

variable {sort : String} {f : Formula} {p : Program} {context : FormulaContext} {scope : Scope}
  {underNew : Bool}

/-! ## Parts of formulas that fit -/

theorem exists_mem_symbols {s : Symbol} (h : p.symbol? name = some s) :
    ∃ s ∈ p.symbols, s.name = name :=
  ⟨s, mem_of_find?_eq_some h, by simpa using find?_some h⟩

theorem Types.exists_id (h : p.Types context scope underNew (.id name) sort) :
    (∃ v ∈ scope, v.name = name) ∨ ∃ s ∈ p.symbols, s.name = name := by
  cases h with
  | bound hx => exact .inl (exists_of_sort? hx)
  | constant _ hy => exact .inr (exists_mem_symbols hy)

theorem Types.exists_head {args : List Formula}
    (h : p.Types context scope underNew (.app name args) sort) :
    ∃ s ∈ p.symbols, s.name = name := by
  cases h with
  | app hy => exact exists_mem_symbols hy

theorem Types.mem_sorts (h : p.Types context scope underNew f sort) :
    ∀ v ∈ f.bound, v.sort ∈ p.sorts := by
  intro v hv
  cases h with
  | all hBinder | ex hBinder =>
    simpa [hasSort] using hasSort_of_checkBinder hBinder v hv
  | _ => cases hv

theorem Types.exists_child {c : Formula} (h : p.Types context scope underNew f sort)
    (hc : c ∈ f.children) :
    ∃ underNew sort, p.Types context (f.bound ++ scope) underNew c sort := by
  cases h with
  | bool | bound | constant => cases hc
  | app _ hArity _ hArgs =>
    obtain ⟨sort, hPair⟩ := exists_mem_zip_of_mem hArity hc
    exact ⟨underNew, sort, hArgs c sort hPair⟩
  | and h | or h => exact ⟨underNew, boolSort, h c hc⟩
  | not ha | all _ ha | ex _ ha | new _ ha =>
    obtain rfl := mem_singleton.mp hc
    exact ⟨_, _, ha⟩
  | imp ha hb | iff ha hb | eq ha hb | ne ha hb =>
    rcases mem_pair.mp hc with rfl | rfl
    · exact ⟨underNew, _, ha⟩
    · exact ⟨underNew, _, hb⟩
  | ite ha hb hd =>
    simp only [children, mem_cons, not_mem_nil, or_false] at hc
    rcases hc with rfl | rfl | rfl
    · exact ⟨underNew, _, ha⟩
    · exact ⟨underNew, _, hb⟩
    · exact ⟨underNew, _, hd⟩

/-- **Every part of a formula that fits a program fits it**, in a scope of variables that are bound
around the part. -/
theorem Types.exists_part (h : p.Types context scope underNew f sort) {g : Formula}
    (hg : g ∈ f.parts) :
    ∃ inner underNew sort, (∀ v ∈ inner, v ∈ f.boundVars ∨ v ∈ scope) ∧
      p.Types context inner underNew g sort := by
  induction f using of_children generalizing scope underNew sort with
  | step f ih =>
    rcases mem_parts.mp hg with rfl | ⟨c, hc, hg⟩
    · exact ⟨scope, underNew, sort, fun v hv => .inr hv, h⟩
    · obtain ⟨underNew', sort', hPart⟩ := h.exists_child hc
      obtain ⟨inner, underNew'', sort'', hInner, hTypes⟩ := ih c hc hPart hg
      refine ⟨inner, underNew'', sort'', fun v hv => ?_, hTypes⟩
      -- a variable of the scope of the part is bound inside it, at the head or around the whole
      rcases hInner v hv with hv | hv
      · obtain ⟨q, hq, hv⟩ := mem_boundVars.mp hv
        exact .inl (mem_boundVars.mpr
          ⟨q, mem_parts_of_mem_children hc hq, hv⟩)
      · rcases mem_append.mp hv with hv | hv
        · exact .inl (mem_boundVars.mpr ⟨f, mem_parts_self f, hv⟩)
        · exact .inr hv

/-! ## Names -/

/-- Every name of a formula is its own or the program's. -/
structure Knows (p : Program) (f : Formula) : Prop where
  identifiers : ∀ name ∈ f.identifiers,
    (∃ v ∈ f.boundVars, v.name = name) ∨ ∃ s ∈ p.symbols, s.name = name
  heads : ∀ name ∈ f.heads, ∃ s ∈ p.symbols, s.name = name
  sorts : ∀ v ∈ f.boundVars, v.sort ∈ p.sorts

theorem Sorted.knows (h : p.Sorted context f) : p.Knows f := by
  have hTypes := types_of_sortOf f h
  constructor
  · intro name hName
    obtain ⟨inner, _, _, hInner, hPart⟩ := hTypes.exists_part (mem_identifiers.mp hName)
    refine hPart.exists_id.imp_left ?_
    rintro ⟨v, hv, hName⟩
    exact ⟨v, (hInner v hv).resolve_right (by simp), hName⟩
  · intro name hName
    obtain ⟨args, hApp⟩ := mem_heads.mp hName
    obtain ⟨_, _, _, -, hPart⟩ := hTypes.exists_part hApp
    exact hPart.exists_head
  · intro v hv
    obtain ⟨g, hg, hv⟩ := mem_boundVars.mp hv
    obtain ⟨_, _, _, -, hPart⟩ := hTypes.exists_part hg
    exact hPart.mem_sorts v hv

/-- The names of a program can be written, and no symbol is called like a truth value. -/
structure Spelt (p : Program) : Prop where
  sorts : ∀ sort ∈ p.sorts, IsAtom sort
  symbols : ∀ s ∈ p.symbols, IsAtom s.name ∧ Declaration.IsSymbolName s.name

theorem spelt_of_read {text : String} (h : read text = .ok p) : p.Spelt := by
  obtain ⟨items, ds, q, hRead, hds, hq, hValid⟩ := read_eq_ok.mp h
  obtain ⟨-, rfl⟩ := validate_eq_ok hValid
  obtain ⟨hPermitted, -, hCollect⟩ := foldlM_add_eq_ok.mp hq
  have hSame : q.declared.Perm ds := hCollect ▸ declared_collect_perm ds
  have hFormed : ∀ d ∈ q.declared, d.Formed := fun d hd => formed_of_read h d hd
  constructor
  · intro sort hSort
    have hd : Declaration.ofSort sort ∈ q.declared := by simpa [declared] using hSort
    exact (hFormed _ hd).spelt
  · intro s hs
    have hd : Declaration.ofSymbol s ∈ q.declared := by simpa [declared] using hs
    exact ⟨(hFormed _ hd).spelt.1, (hPermitted _ (hSame.mem_iff.mp hd)).1⟩

/-! ## Texts -/

/-- A compact formula over the names of a program is formed when it applies no symbol called like
an operator. -/
theorem Knows.formed_iff (h : p.Knows f) (hSpelt : p.Spelt) (hCompact : f.Compact)
    (hVars : ∀ v ∈ f.boundVars, IsAtom v.name) :
    f.Formed ↔ ∀ name ∈ f.heads, ∀ operator : Operator, name ≠ operator.word := by
  rw [Formula.formed_iff]
  constructor
  · rintro ⟨-, -, hHeads, -⟩ name hName
    exact Formula.ofWord?_eq_none.mp (hHeads name hName).2
  · intro hHeads
    refine ⟨hCompact, fun name hName => ?_, fun name hName => ⟨?_, ?_⟩, fun v hv => ⟨?_, ?_⟩⟩
    · rcases h.identifiers name hName with ⟨v, hv, rfl⟩ | ⟨s, hs, rfl⟩
      · exact hVars v hv
      · exact (hSpelt.symbols s hs).1
    · obtain ⟨s, hs, rfl⟩ := h.heads name hName
      exact (hSpelt.symbols s hs).1
    · exact ofWord?_eq_none.mpr (hHeads name hName)
    · exact hVars v hv
    · exact hSpelt.sorts v.sort (h.sorts v hv)

/-- **Which formulas over a program survive printing.** A formula that was built and fits a program
that was read is read back from its text exactly when it applies no symbol called like an operator
and has no identifier called like a truth value. -/
theorem read_render_iff_of_check {text : String} {d : Draft} {f : Formula}
    (hRead : read text = .ok p) (hBuild : d.build = .ok (some f))
    (hCheck : p.check f context = .ok ()) (hVars : ∀ v ∈ f.boundVars, IsAtom v.name) :
    Formula.read f.render = .ok f ↔
      (∀ name ∈ f.heads, ∀ operator : Operator, name ≠ operator.word) ∧
        ∀ name ∈ f.identifiers, name ≠ "true" ∧ name ≠ "false" := by
  have hKnows : p.Knows f := (check_eq_ok hCheck).knows
  rw [read_render_iff, unmistakable_iff,
    hKnows.formed_iff (spelt_of_read hRead) (d.compact_of_build hBuild) hVars]

/-- A symbol called like an operator does no harm where it takes no arguments, nor does a variable
called like a truth value that nothing mentions. -/
theorem read_render_bystanders :
    let text := "(sort node)(relation up (node) mutable)(relation not () mutable)"
    let p : Program := { Program.empty with
      sorts := ["node"]
      symbols := [⟨"up", .relation ["node"] none, true⟩, ⟨"not", .relation [] none, true⟩]
      validated := true }
    let d : Draft := .quantifier .all [⟨"X", "node"⟩, ⟨"true", "node"⟩]
      (.operation .or [.operation .not [.app "not" []], .app "up" [.id "X"]])
    let f : Formula := .all [⟨"X", "node"⟩, ⟨"true", "node"⟩]
      (.or [.not (.id "not"), .app "up" [.id "X"]])
    read text = .ok p ∧ d.build = .ok (some f) ∧ p.check f .singleState = .ok () ∧
      Formula.read f.render = .ok f := by
  intro text p d f
  have hRead : read text = .ok p := by decide +kernel
  have hBuild : d.build = .ok (some f) := rfl
  have hCheck : p.check f .singleState = .ok () := by decide +kernel
  refine ⟨hRead, hBuild, hCheck, ?_⟩
  refine (read_render_iff_of_check hRead hBuild hCheck (by decide)).mpr ⟨?_, by decide⟩
  intro name hName
  obtain rfl : name = "up" := by
    revert name
    decide
  exact ofWord?_eq_none.mp (by decide)

/-- **A diagram that is read back as something else.** In a state where the relation `not` holds of
the one node there is, the diagram applies `not` to a variable. Its formula fits the program, and
its text is that of a negation. -/
theorem diagram_not_read_back :
    let text := "(sort node)(relation not (node) mutable)"
    let p : Program := { Program.empty with
      sorts := ["node"]
      symbols := [⟨"not", .relation ["node"] none, true⟩]
      validated := true }
    let t : Trace :=
      ⟨[("node", ["node!val!0"])], [], [[⟨"not", .relation, [(["node!val!0"], "true")]⟩]], []⟩
    let f : Formula := .ex [⟨"V_node_0", "node"⟩] (.app "not" [.id "V_node_0"])
    read text = .ok p ∧ (Diagram.ofTrace p t 0 true).map Diagram.toFormula = .ok f ∧
      (Draft.quantifier .ex [⟨"V_node_0", "node"⟩] (.app "not" [.id "V_node_0"])).build =
        .ok (some f) ∧
      p.check f .singleState = .ok () ∧ (∀ v ∈ f.boundVars, IsAtom v.name) ∧
      Formula.read f.render = .ok (.ex [⟨"V_node_0", "node"⟩] (.not (.id "V_node_0"))) ∧
      Formula.read f.render ≠ .ok f := by
  decide +kernel

end Program

end InvariantSearch
