import InvariantSearch.Proofs.Encoding.Steps
import InvariantSearch.Proofs.Encoding.Validated

/-!
# Structures of state sequences

A sequence of states gives a meaning to the symbols of an encoding, where the solver
can tell them apart.

* `Encoding.Separates` — what the solver learns of names tells sorts and symbols
  apart, and mutable symbols in different states.
* `IsSequence` — states over one domain that share the immutable symbols.
* `Encoding.induced` — the structure in which each solver symbol means what its
  symbol means in its state.

Main result: `satisfies_induced_iff` says that encoded formulas, frame conditions and
transitions are true in this structure exactly when they hold of the states. Names
that differ only after a NUL are not told apart, and then no structure will do
(`encode_forgets_after_nul`).
-/

namespace InvariantSearch

/-- States over one domain, which share the immutable symbols. -/
structure IsSequence {D : Domain} (p : Program) (count : Nat) (σ : Nat → State D) : Prop where
  fits : ∀ i < count, ∀ x ∈ p.symbols, x.Fits (σ i)
  shares : ∀ i < count, ∀ j < count, Shares p (σ i) (σ j)

namespace Encoding

/-- The solver tells sorts and symbols apart by what it learns of their names. -/
structure Separates (e : Encoding) : Prop where
  symbols : ∀ x ∈ e.program.symbols, ∀ y ∈ e.program.symbols,
    ∀ i < e.keys.length, ∀ j < e.keys.length,
      (e.symbolName x i).map beforeNul = (e.symbolName y j).map beforeNul →
        x = y ∧ (x.isMutable = true → i = j)
  sorts : ∀ sort ∈ e.program.sorts, ∀ sort' ∈ e.program.sorts,
    beforeNul sort = beforeNul sort' → sort = sort'

variable {e : Encoding} {D : Domain} {σ : Nat → State D}

/-- A solver symbol is that of a symbol in a state. -/
def Denotes (e : Encoding) (f : SolverSymbol) (x : Symbol) (index : Nat) : Prop :=
  x ∈ e.program.symbols ∧ index < e.keys.length ∧ e.symbol x index = .ok f

theorem Separates.denotes_unique (h : e.Separates) {f : SolverSymbol} {x y : Symbol} {i j : Nat}
    (hx : e.Denotes f x i) (hy : e.Denotes f y j) : x = y ∧ (x.isMutable = true → i = j) := by
  obtain ⟨name, hName, hEq⟩ := name_of_symbol hx.2.2
  obtain ⟨name', hName', hEq'⟩ := name_of_symbol hy.2.2
  refine h.symbols x hx.1 y hy.1 i hx.2.1 j hy.2.1 ?_
  rw [hName, hName', Except.map, Except.map, ← hEq, ← hEq']

open Classical in
/-- The structure in which each solver symbol means what its symbol means in its state. -/
noncomputable def induced (e : Encoding) (σ : Nat → State D) : SolverStructure where
  Value := Value D.Element
  truth x := .truth (x = true)
  element _ _ := .truth False
  Member sort x :=
    match sort with
    | .bool => D.HasSort x boolSort
    | .named name => ∃ sort ∈ e.program.sorts, beforeNul sort = name ∧ D.HasSort x sort
  apply f args :=
    if h : ∃ place : Symbol × Nat, e.Denotes f place.1 place.2 then
      σ (choose h).2 (choose h).1.name args
    else .truth False
  truth_ne := by simp

/-- Elements stand for themselves. -/
def inducedName (e : Encoding) (σ : Nat → State D) (x : D.Element) : (e.induced σ).Value :=
  Value.element x

theorem termOf_induced (x : Value D.Element) : termOf (e.inducedName σ) x = x := by
  cases x with
  | truth p => simp [termOf, SolverStructure.truthOf, induced]
  | element x => rfl

theorem map_termOf_induced (xs : List (Value D.Element)) :
    xs.map (termOf (e.inducedName σ)) = xs := by
  induction xs with
  | nil => rfl
  | cons x xs ih => exact congrArg₂ List.cons (termOf_induced x) ih

theorem Separates.lists (h : e.Separates) :
    Lists e.program (e.induced σ) (e.inducedName σ) where
  mem_iff sort hSort hBool t := by
    have hIn : sort ∈ e.program.sorts := List.contains_iff_mem.mp hSort
    constructor
    · rintro ⟨sort', hIn', hEq, ht⟩
      obtain rfl := h.sorts sort' hIn' sort hIn hEq
      cases t with
      | truth p => exact absurd ht hBool
      | element x => exact ⟨x, ht, rfl⟩
    · rintro ⟨x, hx, rfl⟩
      exact ⟨sort, hIn, rfl, hx⟩
  injective x y _ hEq := Value.element.inj hEq

theorem Separates.presents (h : e.Separates) (hσ : IsSequence e.program e.keys.length σ)
    {index : Nat} (hIndex : index < e.keys.length) :
    Presents e (e.induced σ) (e.inducedName σ) .singleState index (σ index) := by
  intro x hx _ f hf args hArgs
  refine ⟨((hσ.fits index hIndex x hx) args).1 hArgs, ?_⟩
  have hDenotes : e.Denotes f x index := ⟨hx, hIndex, hf⟩
  have hSome : ∃ place : Symbol × Nat, e.Denotes f place.1 place.2 := ⟨(x, index), hDenotes⟩
  rw [map_termOf_induced, termOf_induced]
  -- the symbol and state that were chosen are these, or another state of an immutable symbol
  have hChosen := hSome.choose_spec
  obtain ⟨hSymbol, hState⟩ := h.denotes_unique hDenotes hChosen
  have hApply : (e.induced σ).apply f args =
      σ hSome.choose.2 hSome.choose.1.name args := dif_pos hSome
  rw [hApply, ← hSymbol]
  cases hMutable : x.isMutable with
  | true => rw [hState hMutable]
  | false => rw [hσ.shares _ hChosen.2.1 index hIndex x hx hMutable]

theorem Separates.between (h : e.Separates) (hσ : IsSequence e.program e.keys.length σ)
    (hSymbols : ∀ x ∈ e.program.symbols, e.program.Fitting x) {index : Nat}
    (hIndex : index < e.keys.length) (hNext : nextState index < e.keys.length) :
    Between e (e.induced σ) (e.inducedName σ) index (σ index) (σ (nextState index)) where
  lists := h.lists
  sorts x hx hBool := ((hSymbols x hx).args boolSort hBool).1 rfl
  now := h.presents hσ hIndex
  next := h.presents hσ hNext
  fits x hx := ⟨hσ.fits index hIndex x hx, hσ.fits _ hNext x hx⟩

/-- **Encoding preserves meaning.** Over a sequence of states, in the structure that it induces,
every formula that fits a context has an encoding that is true exactly when the formula holds in
a state, with the next position's state as the next one. A frame condition has an encoding that
is true exactly when all mutable symbols outside a set that are not derived relations keep
their meaning, and a transition one that is true exactly when its body holds for some
parameters and all but what it modifies is kept. -/
theorem satisfies_induced_iff {e : Encoding} (hChecked : e.program.checkAll = .ok ())
    (hSeparates : e.Separates) {D : Domain} {σ : Nat → State D}
    (hσ : IsSequence e.program e.keys.length σ) {index : Nat} (hIndex : index < e.keys.length)
    (n : Nat) :
    (∀ f context, e.program.check f context = .ok () →
      (context = .twoState → nextState index < e.keys.length) →
      ∃ t n', e.encode f index [] n = .ok t n' ∧ ((e.induced σ).Satisfies t ↔
        f.Holds (twoStates (σ index) (σ (nextState index))) 0 .empty)) ∧
    (nextState index < e.keys.length →
      (∀ mods, ∃ t n', e.frameCondition mods index n = .ok t n' ∧
        ((e.induced σ).Satisfies t ↔ Keeps e.program mods (σ index) (σ (nextState index)))) ∧
      ∀ r ∈ e.program.transitions, ∃ t n', e.transition r index n = .ok t n' ∧
        ((e.induced σ).Satisfies t ↔
          ExistsOf r.params
            (fun v => r.body.Holds (twoStates (σ index) (σ (nextState index))) 0 v) .empty ∧
          Keeps e.program r.mods (σ index) (σ (nextState index)))) := by
  have hParts := Program.checked_of_checkAll hChecked
  refine ⟨fun f context hf hNext => ?_, fun hNext => ⟨fun mods => ?_, fun r hr => ?_⟩⟩
  · have hSorted := Program.check_eq_ok hf
    obtain ⟨t, n', ht, -⟩ := encode_total hParts.symbols hSorted
      ⟨hIndex, fun hContext _ => hNext hContext⟩ n
    obtain ⟨_, k, hSure, hLower⟩ := run_bind_eq_ok.mp ht
    have hSees : Sees e (e.induced σ) (e.inducedName σ) context false index
        (twoStates (σ index) (σ (nextState index))) 0 :=
      ⟨(hSeparates.presents hσ hIndex).mono context,
        fun hContext _ _ => (hSeparates.presents hσ (hNext hContext)).mono context⟩
    have hTypes := Program.types_of_sortOf f hSorted
    exact ⟨t, n', ht, (value_lower hSeparates.lists hTypes hLower hSees
      (scoped_nil (e.inducedName σ) k)).holds_iff⟩
  · obtain ⟨t, n', ht, -⟩ := frameCondition_total hParts.symbols hIndex hNext mods n
    exact ⟨t, n', ht, ((hSeparates.between hσ hParts.symbols hIndex hNext).agrees_frame ht
      fun _ _ => rfl).holds_iff⟩
  · have hr := hParts.transitions r hr
    obtain ⟨t, n', ht, -⟩ := transition_total hParts.symbols hr hIndex hNext n
    exact ⟨t, n', ht, ((hSeparates.between hσ hParts.symbols hIndex hNext).agrees_transition
      hr ht).holds_iff⟩

/-- Two nodes. -/
def twoNodes : Domain := ⟨Bool, fun _ => "node", fun _ => by decide⟩

/-- Two nodes that are next to each other; the token is at the first one, and then at the
other. -/
def handOver (i : Nat) : State twoNodes
  | "next", [.element x] => .element (!x : Bool)
  | "token", [.element x] => .truth (x = decide (0 < i))
  | _, _ => .truth False

theorem handOver_next (i : Nat) (x : Bool) :
    handOver i "next" [.element x] = .element (!x : Bool) := rfl

theorem handOver_token (i : Nat) (x : Bool) :
    handOver i "token" [.element x] = .truth (x = decide (0 < i)) := rfl

theorem forall₂_node_iff {args : List (Value twoNodes.Element)} :
    List.Forall₂ twoNodes.HasSort args ["node"] ↔ ∃ x : Bool, args = [.element x] := by
  constructor
  · intro h
    obtain ⟨x, rest, hx, hRest, rfl⟩ := List.forall₂_cons_right_iff.mp h
    obtain rfl := List.forall₂_nil_right_iff.mp hRest
    cases x with
    | truth p => exact absurd (show "node" = boolSort from hx) (by decide)
    | element x => exact ⟨x, rfl⟩
  · rintro ⟨x, rfl⟩
    exact .cons rfl .nil

theorem isSequence_handOver : IsSequence relay 2 handOver where
  fits i _ x hx args := by
    have hCases : x = ⟨"next", .function ["node"] "node", false⟩ ∨
        x = ⟨"token", .relation ["node"] none, true⟩ := by simpa [relay] using hx
    rcases hCases with rfl | rfl
    · refine ⟨fun h => ?_, fun h => ?_⟩
      · obtain ⟨y, rfl⟩ := forall₂_node_iff.mp h
        rfl
      · unfold handOver
        split
        · exact absurd (forall₂_node_iff.mpr ⟨_, rfl⟩) h
        · exact absurd (forall₂_node_iff.mpr ⟨_, rfl⟩) h
        · rfl
    · refine ⟨fun h => ?_, fun h => ?_⟩
      · obtain ⟨y, rfl⟩ := forall₂_node_iff.mp h
        rfl
      · unfold handOver
        split
        · exact absurd (forall₂_node_iff.mpr ⟨_, rfl⟩) h
        · exact absurd (forall₂_node_iff.mpr ⟨_, rfl⟩) h
        · rfl
  shares i _ j _ x hx hImmutable := by
    have hCases : x = ⟨"next", .function ["node"] "node", false⟩ ∨
        x = ⟨"token", .relation ["node"] none, true⟩ := by simpa [relay] using hx
    rcases hCases with rfl | rfl
    · funext args
      unfold handOver
      split <;> first | rfl | simp_all
    · cases hImmutable

/-- In the structure that the handing over of a token induces, the encoded transition of the
relay is true. -/
theorem satisfies_induced_iff_relay :
    let e : Encoding := ⟨relay, "", stepKeys 2⟩
    ∀ r ∈ relay.transitions, ∃ t n', e.transition r 0 0 = .ok t n' ∧
      (e.induced handOver).Satisfies t := by
  intro e r hr
  have hChecked : e.program.checkAll = .ok () := by decide +kernel
  have hNames : ∀ x ∈ relay.symbols, ∀ y ∈ relay.symbols, ∀ i ∈ List.range 2,
      ∀ j ∈ List.range 2,
        (e.symbolName x i).map beforeNul = (e.symbolName y j).map beforeNul →
          x = y ∧ (x.isMutable = true → i = j) := by decide +kernel
  have hSeparates : e.Separates := ⟨fun x hx y hy i hi j hj =>
    hNames x hx y hy i (List.mem_range.mpr hi) j (List.mem_range.mpr hj), by decide +kernel⟩
  obtain ⟨t, n', ht, hIff⟩ := ((satisfies_induced_iff hChecked hSeparates isSequence_handOver
    (by decide : 0 < 2) 0).2 (by decide)).2 r hr
  refine ⟨t, n', ht, hIff.mpr ?_⟩
  obtain rfl : r = ⟨"pass", [⟨"x", "node"⟩], .ofList ["token"],
      .and [.app "token" [.id "x"], .new (.app "token" [.app "next" [.id "x"]])]⟩ := by
    simpa [relay] using hr
  refine ⟨⟨false, rfl, ?_⟩, fun x hx => ?_⟩
  · simp [ExistsOf, Formula.Holds, Formula.value, Formula.values, twoStates, Valuation.bind,
      handOver_next, handOver_token, nextState]
  · have hKept : kept relay (.ofList ["token"]) = [] := by decide +kernel
    rw [hKept] at hx
    cases hx

/-- **What stands after a NUL is forgotten.** Two relations whose names differ only there have
one solver symbol, so that the formula that they are equivalent is encoded as one that is true in
every structure, also where they are not. -/
theorem encode_forgets_after_nul :
    let p : Program := { Program.empty with
      symbols := [⟨"a\x00b", .relation [] none, false⟩, ⟨"a\x00c", .relation [] none, false⟩]
      validated := true }
    let e : Encoding := ⟨p, "", stepKeys 1⟩
    let f : Formula := .iff (.id "a\x00b") (.id "a\x00c")
    p.checkAll = .ok () ∧ p.check f .singleState = .ok () ∧
      (∀ x ∈ p.symbols, ∀ y ∈ p.symbols, ∀ i j,
        e.symbolName x i = e.symbolName y j → x = y ∧ (x.isMutable = true → i = j)) ∧
      (∃ t n', e.encode f 0 [] 0 = .ok t n' ∧ ∀ M : SolverStructure, M.Satisfies t) ∧
      ∃ (D : Domain) (σ : Nat → State D), IsSequence p 1 σ ∧ ¬ f.HoldsIn (σ 0) := by
  intro p e f
  have hCases : ∀ x ∈ p.symbols, x = ⟨"a\x00b", .relation [] none, false⟩ ∨
      x = ⟨"a\x00c", .relation [] none, false⟩ := fun x hx => by simpa [p] using hx
  refine ⟨by decide +kernel, by decide +kernel, ?_, ⟨_, _, rfl, fun M => ?_⟩,
    ⟨Empty, Empty.elim, fun x => x.elim⟩,
    fun _ name args => .truth (name = "a\x00b" ∧ args = []), ⟨?_, fun _ _ _ _ _ _ _ => rfl⟩, ?_⟩
  · intro x hx y hy i j hEq
    rcases hCases x hx with rfl | rfl <;> rcases hCases y hy with rfl | rfl <;>
      simp [symbolName] at hEq ⊢
  · have hSame : beforeNul "a\x00b" = beforeNul "a\x00c" := by decide
    simp [SolverStructure.Satisfies, SolverStructure.value, hSame]
  · intro i _ x hx args
    have hArgs : x.args = [] ∧ x.result = boolSort := by
      rcases hCases x hx with rfl | rfl <;> exact ⟨rfl, rfl⟩
    rw [hArgs.1, hArgs.2, List.forall₂_nil_right_iff]
    refine ⟨fun _ => rfl, fun hSome => ?_⟩
    simp [hSome]
  · simp [f, Formula.HoldsIn, Formula.Holds, Formula.value, Valuation.empty]

end Encoding

end InvariantSearch
