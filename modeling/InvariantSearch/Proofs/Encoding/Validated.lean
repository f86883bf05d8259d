import InvariantSearch.Proofs.Encoding.Sorting

/-!
# What validation guarantees

A program that passes its checks can be encoded wherever it is used.

* `Program.stateFormulas` — the formulas of a program that speak of one state.
* `Encoding.GivesFormula` — a computation that succeeds with a well-sorted formula.
* `Encoding.TellsApart` — the solver can tell immutable symbols from mutable ones.

Main result: `encodes_of_checkAll`. Axioms mention declarations of immutable symbols
only; where names clash, such a declaration is that of a mutable symbol too
(`axioms_mention_mutable`).
-/

namespace InvariantSearch

open List Encoding

variable {f : SolverSymbol} {α : Type} {P : α → Prop} {e : Encoding}

/-- The formulas of a program that speak of one state. -/
def Program.stateFormulas (p : Program) : List Formula :=
  p.axioms.map NamedFormula.formula ++ p.inits.map NamedFormula.formula ++
    p.invariants.map (fun i => i.formula) ++ p.symbols.filterMap Symbol.definition? ++
    (p.theorems.filter fun t => !t.isTwoState).map fun t => t.formula

theorem Program.sorted_of_mem_stateFormulas {p : Program} (h : p.checkAll = .ok ()) {f : Formula}
    (hf : f ∈ p.stateFormulas) : ∃ context, context ≠ .twoState ∧ p.Sorted context f := by
  have hChecked := checked_of_checkAll h
  simp only [stateFormulas, mem_append, mem_map, mem_filterMap,
    mem_filter] at hf
  rcases hf with (((⟨a, ha, rfl⟩ | ⟨a, ha, rfl⟩) | ⟨i, hi, rfl⟩) | ⟨x, hx, hf⟩) | ⟨t, ht, rfl⟩
  · exact ⟨_, by simp, hChecked.axiomatic a ha⟩
  · exact ⟨_, by simp, hChecked.inits a ha⟩
  · exact ⟨_, by simp, hChecked.invariants i hi⟩
  · refine ⟨_, ?_, (hChecked.symbols x hx).definition f hf⟩
    split <;> simp
  · have hOne : t.isTwoState = false := by simpa using ht.2
    have hSorted := sorted_theorem h ht.1
    rw [hOne] at hSorted
    exact ⟨_, by simp, hSorted⟩

/-! ## Encoding in a session -/

namespace Session

variable {e : Encoding} {context : FormulaContext} {index : Nat}

theorem encoding_total {act : Fresh α} (h : Gives act P) : Gives (encoding act) P := by
  intro s
  obtain ⟨a, n', ha, hP⟩ := h s.prover.fresh
  refine ⟨a, { s with prover := { s.prover with fresh := n' } }, ?_, hP⟩
  rw [encoding, ha]

theorem logged_total {act : SessionM α} (f : α → Log → Log) (h : Gives act P) :
    Gives (do let a ← act; logging (f a); return a : SessionM α) P :=
  h.bind fun a ha _ => ⟨a, _, rfl, ha⟩

theorem encode_total (hSymbols : ∀ x ∈ e.program.symbols, e.program.Fitting x) {f : Formula}
    (hf : e.program.Sorted context f) (hRange : e.InRange context false index) :
    Gives (encode e f index) (e.WellMade context · .bool) :=
  logged_total _ (encoding_total (Encoding.encode_total hSymbols hf hRange))

theorem transition_total (hSymbols : ∀ x ∈ e.program.symbols, e.program.Fitting x)
    {r : Transition} (hr : e.program.checkTransition r = .ok ())
    (hIndex : index < e.keys.length) (hNext : nextState index < e.keys.length) :
    Gives (transition e r index) (e.WellMade .twoState · .bool) :=
  logged_total _ (encoding_total (Encoding.transition_total hSymbols hr hIndex hNext))

/-- **A step by any transition can be encoded** between two neighbouring states. -/
theorem anyTransition_total (hChecked : e.program.Checked) (hIndex : index < e.keys.length)
    (hNext : nextState index < e.keys.length) (mayStutter : Bool) :
    Gives (anyTransition e index mayStutter) (e.WellMade .twoState · .bool) := by
  refine (gives_mapM fun r hr => transition_total hChecked.symbols (hChecked.transitions r hr)
    hIndex hNext).bind fun steps hMade => ?_
  cases mayStutter with
  | false => exact gives_pure (wellMade_disj hMade)
  | true =>
    refine (encoding_total (frameCondition_total hChecked.symbols hIndex hNext .empty)).bind
      fun rest hStutter => gives_pure (wellMade_disj fun t ht => ?_)
    rcases mem_append.mp ht with ht | ht
    · exact hMade t ht
    · exact mem_singleton.mp ht ▸ hStutter

/-- **The axioms can be encoded**, with immutable symbols only. -/
theorem axioms_total (hChecked : e.program.Checked) (hKeys : 0 < e.keys.length) :
    Gives (axioms e) (∀ t ∈ ·, e.WellMade .immutableOnly t .bool) := by
  refine gives_mapM fun f hf => encode_total hChecked.symbols ?_
    ⟨hKeys, fun hContext => by cases hContext⟩
  simp only [definitions, mem_append, mem_map, mem_filterMap,
    mem_filter] at hf
  rcases hf with ⟨a, ha, rfl⟩ | ⟨x, ⟨hx, hMutable⟩, hf⟩
  · exact hChecked.axiomatic a ha
  · have hSorted := (hChecked.symbols x hx).definition f hf
    rw [beq_iff_eq] at hMutable
    rwa [hMutable] at hSorted

end Session

/-! ## Validated programs -/

namespace Encoding

/-- A computation succeeds with a well-sorted formula, whatever names are used up. -/
def GivesFormula (act : Fresh Term) : Prop :=
  ∀ n, ∃ t n', act n = .ok t n' ∧ t.sort? = some .bool

/-- No immutable symbol has the name that a mutable one has in a state, as far as the solver
learns of names. -/
def TellsApart (e : Encoding) : Prop :=
  ∀ x ∈ e.program.symbols, x.isMutable = false → ∀ y ∈ e.program.symbols, y.isMutable = true →
    ∀ index name, e.symbolName y index = .ok name → beforeNul x.name ≠ beforeNul name

theorem name_of_symbol {x : Symbol} {index : Nat} (h : e.symbol x index = .ok f) :
    ∃ name, e.symbolName x index = .ok name ∧ f.name = beforeNul name := by
  obtain ⟨name, hName, h⟩ := bind_eq_ok.mp h
  obtain ⟨args, -, h⟩ := bind_eq_ok.mp h
  obtain ⟨range, -, h⟩ := bind_eq_ok.mp h
  cases h
  exact ⟨name, hName, rfl⟩

/-- What is well made of immutable symbols mentions no mutable one, where the solver can tell
them apart. -/
theorem WellMade.not_mutable {t : Term} {sort : SolverSort} (h : e.WellMade .immutableOnly t sort)
    (hApart : e.TellsApart) (hf : f ∈ t.symbols) {y : Symbol} (hy : y ∈ e.program.symbols)
    (hMutable : y.isMutable = true) (index : Nat) : e.symbol y index ≠ .ok f := by
  intro hSymbol
  obtain ⟨x, hx, hImmutable, index', hx'⟩ := h.symbols f hf (symbol_number hSymbol)
  obtain ⟨name, hName, hEq⟩ := name_of_symbol hSymbol
  obtain ⟨name', hName', hEq'⟩ := name_of_symbol hx'
  rw [symbolName, hImmutable rfl] at hName'
  cases hName'
  exact hApart x hx (hImmutable rfl) y hy hMutable index name hName (hEq'.symm.trans hEq)

/-- **A program that passes its checks can be encoded.** Every formula that fits a context gives
a well-sorted formula in each state in which it can be read, and so do all formulas of the
program, its transitions, frame conditions, and a step by any transition. Axioms mention
immutable symbols only, and no mutable one that the solver can tell from them. -/
theorem encodes_of_checkAll {e : Encoding} (hChecked : e.program.checkAll = .ok ()) :
    (∀ f context index, e.program.check f context = .ok () → index < e.keys.length →
      (context = .twoState → index + 1 < e.keys.length) →
        GivesFormula (e.encode f index [])) ∧
    (∀ f ∈ e.program.stateFormulas, ∀ index < e.keys.length,
      GivesFormula (e.encode f index [])) ∧
    (∀ t ∈ e.program.theorems, t.isTwoState = true → ∀ index, index + 1 < e.keys.length →
      GivesFormula (e.encode t.formula index [])) ∧
    (∀ index, index + 1 < e.keys.length →
      (∀ r ∈ e.program.transitions, GivesFormula (e.transition r index)) ∧
      (∀ mods, GivesFormula (e.frameCondition mods index)) ∧
      ∀ mayStutter s, ∃ t s', Session.anyTransition e index mayStutter s = .ok t s' ∧
        t.sort? = some .bool) ∧
    (e.keys ≠ [] → ∀ s, ∃ ts s', Session.axioms e s = .ok ts s' ∧ ∀ t ∈ ts,
      t.sort? = some .bool ∧
      (∀ f ∈ t.symbols, f.number = none →
        ∃ x ∈ e.program.symbols, x.isMutable = false ∧ e.symbol x 0 = .ok f) ∧
      (e.TellsApart → ∀ f ∈ t.symbols, ∀ y ∈ e.program.symbols, y.isMutable = true →
        ∀ index, e.symbol y index ≠ .ok f)) := by
  have hParts := Program.checked_of_checkAll hChecked
  have hEncode : ∀ f context index, e.program.Sorted context f → index < e.keys.length →
      (context = .twoState → index + 1 < e.keys.length) → GivesFormula (e.encode f index []) := by
    intro f context index hf hIndex hNext n
    obtain ⟨t, n', ht, hMade⟩ := encode_total hParts.symbols hf
      ⟨hIndex, fun hContext _ => nextState_lt (hNext hContext)⟩ n
    exact ⟨t, n', ht, hMade.sort_eq⟩
  refine ⟨fun f context index hf => hEncode f context index (Program.check_eq_ok hf),
    fun f hf index hIndex => ?_, fun t ht hTwo index hNext => ?_, fun index hNext => ⟨?_, ?_, ?_⟩,
    fun hKeys s => ?_⟩
  · obtain ⟨context, hContext, hSorted⟩ := Program.sorted_of_mem_stateFormulas hChecked hf
    exact hEncode f context index hSorted hIndex fun hTwo => absurd hTwo hContext
  · have hSorted := Program.sorted_theorem hChecked ht
    rw [hTwo] at hSorted
    exact hEncode t.formula _ index hSorted (by omega) fun _ => hNext
  · intro r hr n
    obtain ⟨t, n', ht, hMade⟩ := transition_total hParts.symbols (hParts.transitions r hr)
      (by omega) (nextState_lt hNext) n
    exact ⟨t, n', ht, hMade.sort_eq⟩
  · intro mods n
    obtain ⟨t, n', ht, hMade⟩ := frameCondition_total hParts.symbols (by omega)
      (nextState_lt hNext) mods n
    exact ⟨t, n', ht, hMade.sort_eq⟩
  · intro mayStutter s
    obtain ⟨t, s', ht, hMade⟩ := Session.anyTransition_total hParts (by omega)
      (nextState_lt hNext) mayStutter s
    exact ⟨t, s', ht, hMade.sort_eq⟩
  · obtain ⟨ts, s', hts, hMade⟩ :=
      Session.axioms_total hParts (List.length_pos_iff.mpr hKeys) s
    refine ⟨ts, s', hts, fun t ht => ⟨(hMade t ht).sort_eq, fun f hf hNumber => ?_,
      fun hApart f hf y hy hMutable => (hMade t ht).not_mutable hApart hf hy hMutable⟩⟩
    obtain ⟨x, hx, hImmutable, index, hSymbol⟩ := (hMade t ht).symbols f hf hNumber
    refine ⟨x, hx, hImmutable rfl, ?_⟩
    rw [symbol_of_immutable e e rfl (hImmutable rfl) 0 index]
    exact hSymbol

/-- Nodes in a ring of any size hand on a token. -/
def relay : Program :=
  { Program.empty with
    sorts := ["node"]
    symbols := [⟨"next", .function ["node"] "node", false⟩, ⟨"token", .relation ["node"] none, true⟩]
    axioms := [⟨"", .all [⟨"x", "node"⟩] (.ne (.app "next" [.id "x"]) (.id "x"))⟩]
    inits := [⟨"", .ex [⟨"x", "node"⟩] (.app "token" [.id "x"])⟩]
    transitions := [⟨"pass", [⟨"x", "node"⟩], .ofList ["token"],
      .and [.app "token" [.id "x"], .new (.app "token" [.app "next" [.id "x"]])]⟩]
    validated := true }

/-- The relay passes its checks, so that its transition can be encoded, with a well-sorted
term. -/
theorem encodes_of_checkAll_relay :
    relay.checkAll = .ok () ∧ ∀ r ∈ relay.transitions,
      GivesFormula (transition ⟨relay, "", stepKeys 2⟩ r 0) := by
  have hChecked : relay.checkAll = .ok () := by decide +kernel
  have hAll := encodes_of_checkAll (e := ⟨relay, "", stepKeys 2⟩) hChecked
  exact ⟨hChecked, (hAll.2.2.2.1 0 (by decide)).1⟩

/-- A program with an immutable relation that is named like a mutable one in the first state,
and that has to hold. -/
def twins : Program :=
  { Program.empty with
    symbols := [⟨"s0_x", .relation [] none, false⟩, ⟨"x", .relation [] none, true⟩]
    axioms := [⟨"", .id "s0_x"⟩]
    validated := true }

/-- **An axiom can mention a mutable symbol**, where its name clashes with that of an immutable
one. -/
theorem axioms_mention_mutable :
    let e : Encoding := ⟨twins, "", stepKeys 1⟩
    let s : Session := ⟨twins, "", .start .standard ⟨[], none⟩ false (.new .empty), []⟩
    twins.checkAll = .ok () ∧ ∃ ts s', Session.axioms e s = .ok ts s' ∧ ∃ t ∈ ts,
      ∃ f ∈ t.symbols, ∃ y ∈ twins.symbols, y.isMutable = true ∧ e.symbol y 0 = .ok f := by
  refine ⟨by decide +kernel, [.app ⟨"s0_x", [], .bool, none⟩ []], _, rfl, _,
    List.mem_singleton_self _, ⟨"s0_x", [], .bool, none⟩, by decide,
    ⟨"x", .relation [] none, true⟩, by decide, rfl, rfl⟩

end Encoding

end InvariantSearch
