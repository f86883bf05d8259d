import InvariantSearch.Proofs.Program.Notation
import InvariantSearch.Proofs.Program.Typing

/-!
# Reading what was written

* `Types.bound_of_mentions` — an identifier of a formula that fits a program is a variable bound
  around it or inside it, or a symbol.
* `Declaration.Binds` — a quantifier or a parameter list of a declaration binds a name.

Main result: `read_render_of_read`. A program that was read is read again from its own text, as the
same program, when nothing in it binds a variable called like a truth value. Where something does,
`true` in the text stands for the truth value and no longer for the variable.
-/

namespace InvariantSearch

open List

variable {d : Declaration} {f : Formula}

namespace Formula

/-! ## Bound names -/

mutual

/-- A quantifier of a formula binds a name. -/
def Quantifies (name : String) : Formula → Prop
  | .bool _ | .id _ => False
  | .app _ args => QuantifiesAny name args
  | .not a | .new a => Quantifies name a
  | .and parts | .or parts => QuantifiesAny name parts
  | .imp a b | .iff a b | .eq a b | .ne a b => Quantifies name a ∨ Quantifies name b
  | .ite a b c => Quantifies name a ∨ Quantifies name b ∨ Quantifies name c
  | .all vars a | .ex vars a => (∃ v ∈ vars, v.name = name) ∨ Quantifies name a

/-- A quantifier of a formula in a list binds a name. -/
def QuantifiesAny (name : String) : List Formula → Prop
  | [] => False
  | f :: fs => Quantifies name f ∨ QuantifiesAny name fs

end

end Formula

namespace Program

variable {p : Program} {text : String}

section Identifiers

variable {p : Program} {context : FormulaContext} {name : String}

theorem quantifiesAny_iff {fs : List Formula} :
    Formula.QuantifiesAny name fs ↔ ∃ f ∈ fs, f.Quantifies name := by
  induction fs with
  | nil => simp [Formula.QuantifiesAny]
  | cons f fs ih => simp [Formula.QuantifiesAny, ih]

/-- **An identifier of a formula that fits a program is bound or declared.** -/
theorem Types.bound_of_mentions {scope : Scope} {underNew : Bool} {sort : String}
    (h : p.Types context scope underNew f sort) (hSymbols : ∀ s ∈ p.symbols, s.name ≠ name)
    (hName : f.Mentions name) : (∃ v ∈ scope, v.name = name) ∨ f.Quantifies name := by
  induction h with
  | bool => exact hName.elim
  | bound hx =>
    obtain rfl : _ = name := hName
    exact .inl (exists_of_sort? hx)
  | constant _ hy =>
    obtain rfl : _ = name := hName
    have hFound := find?_some hy
    exact absurd (by simpa using hFound) (hSymbols _ (mem_of_find?_eq_some hy))
  | app _ hArity _ _ ih =>
    obtain ⟨a, ha, hName⟩ := Formula.mentionsAny_iff.mp hName
    obtain ⟨sort, hPair⟩ := exists_mem_zip_of_mem hArity ha
    exact (ih a sort hPair hName).imp_right fun h => quantifiesAny_iff.mpr ⟨a, ha, h⟩
  | and _ ih | or _ ih =>
    obtain ⟨a, ha, hName⟩ := Formula.mentionsAny_iff.mp hName
    exact (ih a ha hName).imp_right fun h => quantifiesAny_iff.mpr ⟨a, ha, h⟩
  | not _ ih | new _ _ ih => exact ih hName
  | imp _ _ iha ihb | iff _ _ iha ihb | eq _ _ iha ihb | ne _ _ iha ihb =>
    rcases hName with hName | hName
    · exact (iha hName).imp_right .inl
    · exact (ihb hName).imp_right .inr
  | ite _ _ _ iha ihb ihc =>
    rcases hName with hName | hName | hName
    · exact (iha hName).imp_right .inl
    · exact (ihb hName).imp_right (.inr ∘ .inl)
    · exact (ihc hName).imp_right (.inr ∘ .inr)
  | all _ _ ih | ex _ _ ih =>
    -- A variable of the binder is bound inside the formula, one of the scope around it.
    rcases ih hName with ⟨v, hv, hvName⟩ | hInside
    · rcases mem_append.mp hv with hv | hv
      · exact .inr (.inl ⟨v, hv, hvName⟩)
      · exact .inl ⟨v, hv, hvName⟩
    · exact .inr (.inr hInside)

end Identifiers

/-- A quantifier or a parameter of a declaration binds a name. -/
def Declaration.Binds (name : String) (d : Declaration) : Prop :=
  (∃ f ∈ d.formulas, f.Quantifies name) ∨ ∃ t, d = .ofTransition t ∧ ∃ v ∈ t.params, v.name = name

/-- The formulas of a checked program fit it, those of transitions below their parameters. -/
theorem exists_sortOf (h : p.checkAll = .ok ()) (hd : d ∈ p.declared) (hf : f ∈ d.formulas) :
    ∃ context scope sort, p.sortOf context scope false f = .ok sort ∧
      ∀ v ∈ scope, ∃ t, d = .ofTransition t ∧ v ∈ t.params := by
  -- A closed formula of the program fits it in its context.
  have hClosed : ∀ {context : FormulaContext}, p.Sorted context f →
      ∃ context scope sort, p.sortOf context scope false f = .ok sort ∧
        ∀ v ∈ scope, ∃ t, d = .ofTransition t ∧ v ∈ t.params :=
    fun hSorted => ⟨_, [], _, hSorted, by simp⟩
  have hChecked := checked_of_checkAll h
  simp only [declared, mem_append, mem_map] at hd
  rcases hd with (((((⟨n, hn, rfl⟩ | ⟨s, hs, rfl⟩) | ⟨a, ha, rfl⟩) | ⟨i, hi, rfl⟩) | ⟨t, ht, rfl⟩) |
    ⟨i, hi, rfl⟩) | ⟨t, ht, rfl⟩
  · simp [Declaration.formulas] at hf
  · exact hClosed ((hChecked.symbols s hs).definition f (by simpa [Declaration.formulas] using hf))
  · obtain rfl : f = a.formula := by simpa [Declaration.formulas] using hf
    exact hClosed (hChecked.axiomatic a ha)
  · obtain rfl : f = i.formula := by simpa [Declaration.formulas] using hf
    exact hClosed (hChecked.inits i hi)
  · obtain rfl : f = t.body := by simpa [Declaration.formulas] using hf
    obtain ⟨_, -, hTransition⟩ := bind_eq_ok.mp (hChecked.transitions t ht)
    obtain ⟨_, -, hTransition⟩ := bind_eq_ok.mp hTransition
    obtain ⟨sort, hSort, -⟩ := bind_eq_ok.mp hTransition
    exact ⟨.twoState, t.params, sort, mapError_eq_ok.mp hSort, fun v hv => ⟨t, rfl, hv⟩⟩
  · obtain rfl : f = i.formula := by simpa [Declaration.formulas] using hf
    exact hClosed (hChecked.invariants i hi)
  · obtain rfl : f = t.formula := by simpa [Declaration.formulas] using hf
    exact hClosed (sorted_theorem h ht)

theorem not_mentions (h : p.checkAll = .ok ()) {name : String}
    (hSymbols : ∀ s ∈ p.symbols, s.name ≠ name) (hd : d ∈ p.declared) (hBinds : ¬ d.Binds name)
    (hf : f ∈ d.formulas) : ¬ f.Mentions name := by
  intro hName
  obtain ⟨context, scope, sort, hSort, hScope⟩ := exists_sortOf h hd hf
  rcases (types_of_sortOf f hSort).bound_of_mentions hSymbols hName with ⟨v, hv, hvName⟩ | hInside
  · obtain ⟨t, rfl, hParam⟩ := hScope v hv
    exact hBinds (Or.inr ⟨t, rfl, v, hParam, hvName⟩)
  · exact hBinds (Or.inl ⟨f, hf, hInside⟩)

/-! ## Texts of programs -/

theorem render_eq (layout : Layout) (p : Program) :
    p.render layout = String.join (p.declared.map fun d => d.render layout ++ "\n") := by
  have hDeclarations : p.declarations layout = p.declared.map (Declaration.render layout) := by
    simp only [declarations, declared, map_append, map_map]
    refine congrArg₂ _ (congrArg₂ _ (congrArg₂ _ (congrArg₂ _ (congrArg₂ _ (congrArg₂ _ ?_ rfl)
      ?_) ?_) rfl) ?_) ?_
    · refine map_congr_left fun name _ => ?_
      rw [← String.toList_inj]
      simp [Declaration.render, Declaration.toSexpr, Sexpr.ofItems, Sexpr.ofName, Sexpr.render,
        Sexpr.renderItems]
    all_goals exact map_congr_left fun f _ => Declaration.render_namedFormula _ _
  rw [render, hDeclarations, map_map]
  rfl

/-- **The text of a program spells the tokens of its declarations.** -/
theorem spellsOut_render (h : ∀ d ∈ p.declared, d.Formed) (layout : Layout) :
    Sexpr.SpellsOut (p.render layout) (Sexpr.tokensOf (p.declared.map Declaration.toSexpr)) := by
  have hLine : ∀ d ∈ p.declared, Sexpr.SpellsOut (d.render layout ++ "\n") d.toSexpr.tokens := by
    intro d hd
    have hAll := ((h d hd).spells_render layout).append_out Sexpr.spellsOut_lineBreak
      Sexpr.separates_lineBreak
    rwa [append_nil] at hAll
  rw [render_eq, Sexpr.tokensOf_map]
  exact .join hLine

/-- What was read is formed: each declaration comes from an item of the text, and the names in it
are atoms there. -/
theorem formed_of_read (h : read text = .ok p) : ∀ d ∈ p.declared, d.Formed := by
  obtain ⟨items, ds, q, hRead, hds, hq, hValid⟩ := read_eq_ok.mp h
  obtain ⟨-, rfl⟩ := validate_eq_ok hValid
  obtain ⟨-, -, hCollect⟩ := foldlM_add_eq_ok.mp hq
  have hSame : q.declared.Perm ds := hCollect ▸ declared_collect_perm ds
  intro d hd
  obtain ⟨e, he, hOf⟩ := exists_left_of_forall₂ hds (hSame.mem_iff.mp hd)
  have hItem : e ∈ (Sexpr.read text).items := by
    rw [hRead]
    exact he
  exact .of_ofSexpr hOf (Sexpr.Spelt.of_mem_read hItem)

/-- **A program that was read is read again from its own text, as the same program**, when nothing
in it binds a variable called like a truth value. -/
theorem read_render_of_read {text : String} {p : Program} (h : read text = .ok p)
    (hTrue : ∀ d ∈ p.declared, ¬ d.Binds "true") (hFalse : ∀ d ∈ p.declared, ¬ d.Binds "false")
    (layout : Layout) : read (p.render layout) = .ok p := by
  obtain ⟨items, ds, q, hRead, hds, hq, hValid⟩ := read_eq_ok.mp h
  obtain ⟨hCheck, rfl⟩ := validate_eq_ok hValid
  obtain ⟨hPermitted, -, hCollect⟩ := foldlM_add_eq_ok.mp hq
  have hSame : q.declared.Perm ds := hCollect ▸ declared_collect_perm ds
  -- What was read is formed, and its identifiers are no truth values.
  have hFormed : ∀ d ∈ q.declared, d.Formed := fun d hd => formed_of_read h d hd
  have hSymbols : ∀ s ∈ q.symbols, Declaration.IsSymbolName s.name := by
    intro s hs
    have hd : Declaration.ofSymbol s ∈ q.declared := by simp [declared, hs]
    exact (hPermitted _ (hSame.mem_iff.mp hd)).1
  have hPlain : ∀ d ∈ q.declared, ∀ f ∈ d.formulas, f.Unmistakable := by
    intro d hd f hf
    exact ⟨not_mentions hCheck (fun s hs => (hSymbols s hs).yes) hd (hTrue d hd) hf,
      not_mentions hCheck (fun s hs => (hSymbols s hs).no) hd (hFalse d hd) hf⟩
  -- So its text is read as its declarations, kind by kind.
  obtain ⟨items', hStrip, hRead'⟩ := Sexpr.exists_read (spellsOut_render hFormed layout).cut_eq
  have hBack : List.Forall₂ (fun e d => Declaration.ofSexpr e = .ok d) items' q.declared :=
    Sexpr.forall₂_of_strip hStrip fun d hd e he =>
      Declaration.ofSexpr_of_strip he (hFormed d hd) (hPlain d hd)
  exact read_eq_ok.mpr ⟨items', q.declared, q, hRead', hBack, foldlM_add_declared hq, hValid⟩

/-- A text whose declarations stand in another order than they are written in, with operators that
disappear and a symbol called like an operator. -/
theorem read_render_regrouped :
    let text := "(init (and not))(sort S)(safety s (forall ((y S)) (or (r y))))
      (transition t () (mods r not) (new not))(relation not () mutable)(relation r (S) mutable)"
    let p : Program := { Program.empty with
      sorts := ["S"]
      symbols := [⟨"not", .relation [] none, true⟩, ⟨"r", .relation ["S"] none, true⟩]
      inits := [⟨"", .id "not"⟩]
      transitions := [⟨"t", [], ⟨["not", "r"]⟩, .new (.id "not")⟩]
      invariants := [⟨⟨"s", .all [⟨"y", "S"⟩] (.app "r" [.id "y"])⟩, true⟩]
      validated := true }
    Program.read text = .ok p ∧ Program.read (p.render .spread) = .ok p := by
  intro text p
  have hRead : Program.read text = .ok p := by decide +kernel
  refine ⟨hRead, read_render_of_read hRead ?_ ?_ .spread⟩
  all_goals
    simp [p, Program.empty, declared, Declaration.Binds, Declaration.formulas, Symbol.definition?,
      Formula.Quantifies, Formula.QuantifiesAny]

end Program

end InvariantSearch
