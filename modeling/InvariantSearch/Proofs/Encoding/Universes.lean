import InvariantSearch.Proofs.Encoding.Lowering
import InvariantSearch.Proofs.Meaning.Names

/-!
# Universes of models

A model may use elements that it does not list. One that lists whole universes does
not: closing its universes adds nothing.

* `SolverModel.Complete` — a model lists the whole universe of each sort.

Main results: `closedUniverses_eq` says that the closed universes of a complete
model are the listed ones, and `mem_namedElements_iff` how their elements are named.
-/

namespace InvariantSearch

open List SolverModel

variable {sort : String} {x : Symbol} {index : Nat} {f : SolverSymbol}

theorem lookup_map_of_mem {β : Type} {g : String → β} {l : List String} {a : String}
    (h : a ∈ l) : (l.map fun a => (a, g a)).lookup a = some (g a) := by
  induction l with
  | nil => cases h
  | cons b l ih =>
    rw [map_cons]
    by_cases hb : a = b
    · rw [hb, lookup_cons_self]
    · rw [Encoding.lookup_cons_of_ne hb]
      exact ih ((mem_cons.mp h).resolve_left hb)

/-- A model lists the whole universe of each sort of an encoded program: none is empty, and no
symbol has a value outside of them. -/
structure SolverModel.Complete (m : SolverModel) (e : Encoding) : Prop where
  inhabited : ∀ sort ∈ e.program.sorts, m.elements (.named (beforeNul sort)) ≠ []
  closed : ∀ x ∈ e.program.symbols, ∀ index < e.keys.length, ∀ f, e.symbol x index = .ok f →
    ∀ args ∈ tuples (f.args.map m.members), ∀ v, m.evaluate f args = .ok v → v ∈ m.members f.range

/-- Whether a model lists whole universes can be computed. -/
instance (m : SolverModel) (e : Encoding) : Decidable (m.Complete e) :=
  decidable_of_iff
    ((∀ sort ∈ e.program.sorts, m.elements (.named (beforeNul sort)) ≠ []) ∧
      ∀ x ∈ e.program.symbols, ∀ index < e.keys.length,
        ∀ f ∈ (e.symbol x index).toOption, ∀ args ∈ tuples (f.args.map m.members),
          ∀ v ∈ (m.evaluate f args).toOption, v ∈ m.members f.range)
    ⟨fun h => ⟨h.1, fun x hx index hIndex f hf args hArgs v hv =>
        h.2 x hx index hIndex f (by rw [hf]; rfl) args hArgs v (by rw [hv]; rfl)⟩,
      fun h => ⟨h.inhabited, fun x hx index hIndex f hf args hArgs v hv => by
        cases hSymbol : e.symbol x index <;> rw [hSymbol] at hf <;> cases hf
        cases hValue : m.evaluate f args <;> rw [hValue] at hv <;> cases hv
        exact h.closed x hx index hIndex f hSymbol args hArgs v hValue⟩⟩

namespace Encoding

variable {e : Encoding} {m : SolverModel} {u : Universes}

theorem sort_of_ne_bool (hBool : sort ≠ boolSort) (h : e.program.hasSort sort = true) :
    e.sort sort = .ok (.named (beforeNul sort)) := by
  rw [Encoding.sort, if_neg hBool, if_pos h]

theorem symbol_sorts (hx : e.program.Fitting x) (h : e.symbol x index = .ok f) :
    f.args = x.args.map (fun sort => .named (beforeNul sort)) ∧
      f.range = if x.isRelation then .bool else .named (beforeNul x.result) := by
  simp only [symbol, bind_eq_ok, pure_eq_ok] at h
  obtain ⟨name, -, args, hArgs, range, hRange, rfl⟩ := h
  constructor
  · have hSame := mapM_eq_ok.mp hArgs
    have hMap : x.args.mapM e.sort = .ok (x.args.map fun sort => .named (beforeNul sort)) := by
      rw [mapM_eq_ok, forall₂_map_right_iff, forall₂_same]
      exact fun sort hSort => sort_of_ne_bool (hx.args sort hSort).1 (hx.args sort hSort).2
    rw [hMap] at hArgs
    exact (Except.ok.inj hArgs).symm
  · cases hRelation : x.isRelation with
    | true =>
      rw [Symbol.result_of_isRelation hRelation, Encoding.sort, if_pos rfl] at hRange
      exact (Except.ok.inj hRange).symm
    | false =>
      obtain ⟨hBool, hSort⟩ := hx.result hRelation
      rw [sort_of_ne_bool hBool hSort] at hRange
      exact (Except.ok.inj hRange).symm

theorem of_listedUniverses (h : e.program.hasSort sort = true) :
    (e.listedUniverses m).of sort = m.elements (.named (beforeNul sort)) := by
  have hMem : sort ∈ e.program.sorts := contains_iff_mem.mp h
  rw [Universes.of, listedUniverses, lookup_map_of_mem hMem, Option.getD_some]

/-! ## Closing -/

theorem newValues_eq_nil {known found : List Term} {args : List (List Term)}
    (hKnown : ∀ as ∈ args, ∀ v, m.evaluate f as = .ok v → v ∈ known)
    (h : newValues m f known args = .ok found) : found = [] := by
  refine foldlM_keeps (P := fun found => found = []) (fun as has found found' hNil hStep => ?_)
    rfl h
  obtain ⟨v, hv, hPure⟩ := bind_eq_ok.mp hStep
  have hIn : known.contains v = true := contains_iff_mem.mpr (hKnown as has v hv)
  rw [hIn, Bool.true_or, if_pos rfl, pure_eq_ok] at hPure
  exact hPure ▸ hNil

theorem add_nil (u : Universes) (sort : String) : u.add sort [] = u := by
  refine (map_congr_left fun entry _ => ?_).trans (map_id u)
  by_cases hSort : entry.1 = sort
  · rw [if_pos hSort, append_nil, ← hSort]
    rfl
  · rw [if_neg hSort]
    rfl

theorem addValues_listed (hComplete : m.Complete e) (hKeys : 0 < e.keys.length)
    (hx : x ∈ e.program.symbols) (hFitting : e.program.Fitting x) (hRelation : x.isRelation = false)
    (hIndex : index < e.instances x) (h : e.addValues m x (e.listedUniverses m) index = .ok u) :
    u = e.listedUniverses m := by
  simp only [addValues, bind_eq_ok, mapError_eq_ok, pure_eq_ok] at h
  obtain ⟨f, hf, found, hFound, rfl⟩ := h
  have hRange : index < e.keys.length := by
    unfold instances at hIndex
    split at hIndex <;> omega
  obtain ⟨hArgs, hResult⟩ := symbol_sorts hFitting hf
  rw [hRelation, if_neg (by decide)] at hResult
  have hMembers : x.args.map (e.listedUniverses m).of = f.args.map m.members := by
    rw [hArgs, map_map]
    exact map_congr_left fun sort hSort => of_listedUniverses (hFitting.args sort hSort).2
  have hNil : found = [] := by
    refine newValues_eq_nil (fun as has v hv => ?_) hFound
    rw [hMembers] at has
    have hIn := hComplete.closed x hx index hRange f hf as has v hv
    rw [hResult] at hIn
    rw [of_listedUniverses (hFitting.result hRelation).2]
    exact hIn
  rw [hNil, add_nil]

theorem closeOnce_listed (hComplete : m.Complete e) (hKeys : 0 < e.keys.length)
    (hFitting : ∀ x ∈ e.program.symbols, e.program.Fitting x)
    (h : e.closeOnce m (e.listedUniverses m) = .ok u) : u = e.listedUniverses m := by
  refine foldlM_keeps (P := fun u => u = e.listedUniverses m) (fun x hx u u' hu hSymbol => ?_)
    rfl h
  obtain ⟨hIn, hRelation⟩ := mem_filter.mp hx
  refine foldlM_keeps (P := fun u => u = e.listedUniverses m)
    (fun index hIndex u u' hu hAdd => ?_) hu hSymbol
  rw [hu] at hAdd
  exact addValues_listed hComplete hKeys hIn (hFitting x hIn) (by simpa using hRelation)
    (mem_range.mp hIndex) hAdd

/-- **Closing the universes of a complete model adds nothing.** -/
theorem closedUniverses_eq (hComplete : m.Complete e) (hKeys : 0 < e.keys.length)
    (hFitting : ∀ x ∈ e.program.symbols, e.program.Fitting x)
    (h : e.closedUniverses m = .ok u) : u = e.listedUniverses m := by
  rw [closedUniverses, closingRounds, closeWithin] at h
  obtain ⟨grown, hGrown, h⟩ := bind_eq_ok.mp h
  rw [if_pos (closeOnce_listed hComplete hKeys hFitting hGrown), pure_eq_ok] at h
  exact h.symm

/-! ## Names of elements -/

theorem mem_namedElements_iff (h : e.program.hasSort sort = true) {t : Term} {name : String} :
    (t, name) ∈ namedElements (e.listedUniverses m) sort ↔
      ∃ i, t = .element (.named (beforeNul sort)) i ∧ name = sort ++ toString i ∧
        t ∈ m.elements (.named (beforeNul sort)) := by
  rw [namedElements, of_listedUniverses h, mem_mapIdx]
  constructor
  · rintro ⟨i, hi, hEq⟩
    obtain ⟨rfl, rfl⟩ := Prod.mk.inj hEq
    refine ⟨i, ?_, rfl, getElem_mem hi⟩
    simp [elements]
  · rintro ⟨i, rfl, rfl, hIn⟩
    obtain ⟨k, hk, hEq⟩ := mem_map.mp hIn
    obtain rfl : k = i := by simpa using hEq
    have hLength : k < (m.elements (.named (beforeNul sort))).length := by
      simpa [elements] using hk
    refine ⟨k, hLength, ?_⟩
    simp [elements]

end Encoding

end InvariantSearch
