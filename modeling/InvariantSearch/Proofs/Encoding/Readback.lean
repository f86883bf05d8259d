import InvariantSearch.Proofs.Encoding.Names
import InvariantSearch.Proofs.Encoding.Steps
import InvariantSearch.Proofs.Encoding.Universes
import InvariantSearch.Proofs.Meaning.Trace

/-!
# Traces as they are read from models

A trace that is read from a complete model shows the states that the model presents.

* `Encoding.Reads` — a trace shows what a model says, however its steps are called.
* `Encoding.origin` — the member of a solver sort that an element was read from.

Main results: `Reads.lists` and `Reads.presents` relate the model to the meaning of
the trace, and `Reads.between` two neighbouring states of it, so that what the model
satisfies holds in the trace.
-/

namespace InvariantSearch

open List Term SolverModel

open Trace hiding elements

variable {index i : Nat} {sort name : String} {sorts : List String} {x : Symbol} {xs : List Symbol}
  {s : TraceState} {f : SolverSymbol}

theorem lookup_eq_some_of_forall {α β : Type} [BEq α] [LawfulBEq α] {l : List (α × β)} {a : α}
    {b : β} (hSome : ∃ entry ∈ l, entry.1 = a) (h : ∀ entry ∈ l, entry.1 = a → entry.2 = b) :
    l.lookup a = some b := by
  cases hLookup : l.lookup a with
  | none =>
    obtain ⟨entry, hEntry, rfl⟩ := hSome
    exact absurd (lookup_eq_none_iff.mp hLookup entry hEntry) (by simp)
  | some b' => rw [show b' = b from h (a, b') (mem_of_lookup hLookup) rfl]

namespace Encoding

variable {e : Encoding} {m : SolverModel} {t : Trace}

/-- A trace shows what a model says, however its steps are called. -/
structure Reads (e : Encoding) (m : SolverModel) (t : Trace) : Prop where
  universes : t.universes = e.program.sorts.map fun sort =>
    (sort, (namedElements (e.listedUniverses m) sort).map Prod.snd)
  immutable : Forall₂ (fun x i => e.readSymbol m (e.listedUniverses m) x 0 = .ok i)
    (e.program.symbols.filter fun x => !x.isMutable) t.immutable
  states : Forall₂
    (fun index s => Forall₂ (fun x i => e.readSymbol m (e.listedUniverses m) x index = .ok i)
      (e.program.symbols.filter Symbol.isMutable) s)
    (range e.keys.length) t.states

theorem reads_readModel (hComplete : m.Complete e) (hKeys : 0 < e.keys.length)
    (hFitting : ∀ x ∈ e.program.symbols, e.program.Fitting x) (h : e.readModel m = .ok t) :
    e.Reads m t := by
  simp only [readModel, bind_eq_ok, pure_eq_ok] at h
  obtain ⟨u, hu, immutable, hImmutable, states, hStates, rfl⟩ := h
  obtain rfl := closedUniverses_eq hComplete hKeys hFitting hu
  exact ⟨rfl, mapM_eq_ok.mp hImmutable, (mapM_eq_ok.mp hStates).imp fun _ _ h => mapM_eq_ok.mp h⟩

theorem Reads.length_states (h : e.Reads m t) : t.states.length = e.keys.length := by
  rw [← h.states.length_eq, length_range]

theorem Reads.state (h : e.Reads m t) (hIndex : index < e.keys.length) :
    ∃ s, t.states[index]? = some s ∧
      Forall₂ (fun x i => e.readSymbol m (e.listedUniverses m) x index = .ok i)
        (e.program.symbols.filter Symbol.isMutable) s := by
  have hLength : index < t.states.length := by rw [h.length_states]; exact hIndex
  refine ⟨t.states[index], getElem?_eq_getElem hLength, ?_⟩
  simpa using h.states.get (by simpa using hIndex) hLength

/-! ## Elements -/

theorem elementName_injective {j : Nat} (h : sort ++ toString i = sort ++ toString j) : i = j :=
  toString_injective (by simpa using h)

theorem Reads.hasElement_iff (h : e.Reads m t) :
    t.HasElement sort name ↔ sort ≠ boolSort ∧ e.program.hasSort sort = true ∧
      ∃ i, name = sort ++ toString i ∧
        element (.named (beforeNul sort)) i ∈ m.elements (.named (beforeNul sort)) := by
  refine and_congr_right fun _ => ?_
  rw [Trace.elements, h.universes]
  by_cases hSort : e.program.hasSort sort = true
  · rw [lookup_map_of_mem (contains_iff_mem.mp hSort)]
    simp only [Except.ok.injEq, exists_eq_left', mem_map, Prod.exists, exists_eq_right,
      mem_namedElements_iff hSort, hSort, true_and]
    constructor
    · rintro ⟨_, i, rfl, rfl, hIn⟩
      exact ⟨i, rfl, hIn⟩
    · rintro ⟨i, rfl, hIn⟩
      exact ⟨_, i, rfl, rfl, hIn⟩
  · have hNone : (e.program.sorts.map fun sort =>
        (sort, (namedElements (e.listedUniverses m) sort).map Prod.snd)).lookup sort = none := by
      rw [lookup_eq_none_iff]
      intro entry hEntry
      obtain ⟨sort', hSort', rfl⟩ := mem_map.mp hEntry
      have hNe : sort ≠ sort' := fun hEq => hSort (contains_iff_mem.mpr (hEq ▸ hSort'))
      simpa using hNe
    rw [hNone]
    simp [hSort]

open Classical in
/-- The member of a solver sort that an element of a trace was read from. -/
noncomputable def origin (m : SolverModel) (x : t.domain.Element) : m.toStructure.Value :=
  if h : ∃ i : Nat, x.1.2 = x.1.1 ++ toString i then
    element (.named (beforeNul x.1.1)) (choose h)
  else bool false

theorem origin_eq {x : t.domain.Element} (h : x.1.2 = x.1.1 ++ toString i) :
    origin m x = element (.named (beforeNul x.1.1)) i := by
  have hSome : ∃ i : Nat, x.1.2 = x.1.1 ++ toString i := ⟨i, h⟩
  have hChosen : Classical.choose hSome = i :=
    elementName_injective ((Classical.choose_spec hSome).symm.trans h)
  exact (dif_pos hSome).trans (congrArg _ hChosen)

theorem Reads.exists_origin (h : e.Reads m t) (x : t.domain.Element) :
    e.program.hasSort x.1.1 = true ∧ ∃ i, x.1.2 = x.1.1 ++ toString i ∧
      origin m x = element (.named (beforeNul x.1.1)) i ∧
      origin m x ∈ m.elements (.named (beforeNul x.1.1)) := by
  obtain ⟨-, hSort, i, hName, hIn⟩ := h.hasElement_iff.mp x.2
  exact ⟨hSort, i, hName, origin_eq hName, by rw [origin_eq hName]; exact hIn⟩

theorem Reads.lists (h : e.Reads m t) :
    Lists (D := t.domain) e.program m.toStructure (origin m) where
  mem_iff sort hSort hBool term := by
    constructor
    · intro hTerm
      obtain ⟨i, -, rfl⟩ := mem_map.mp hTerm
      have hHas : t.HasElement sort (sort ++ toString i) :=
        h.hasElement_iff.mpr ⟨hBool, hSort, i, rfl, hTerm⟩
      exact ⟨⟨(sort, sort ++ toString i), hHas⟩, rfl, origin_eq rfl⟩
    · rintro ⟨x, rfl, rfl⟩
      obtain ⟨-, i, -, -, hIn⟩ := h.exists_origin x
      exact hIn
  injective x y hSort hEq := by
    obtain ⟨-, i, hName, hOrigin, -⟩ := h.exists_origin x
    obtain ⟨-, j, hName', hOrigin', -⟩ := h.exists_origin y
    have hSort : x.1.1 = y.1.1 := hSort
    obtain ⟨-, rfl⟩ := element.inj (hOrigin.symm.trans (hEq.trans hOrigin'))
    exact Subtype.ext (Prod.ext hSort (by rw [hName, hName', hSort]))

theorem Reads.inhabits (h : e.Reads m t) (hComplete : m.Complete e)
    (hBool : ∀ sort ∈ e.program.sorts, sort ≠ boolSort) : t.domain.Inhabits e.program := by
  intro sort hSort
  obtain ⟨term, hTerm⟩ := exists_mem_of_ne_nil _ (hComplete.inhabited sort hSort)
  obtain ⟨x, hx, -⟩ := (h.lists.mem_iff sort (contains_iff_mem.mpr hSort) (hBool sort hSort)
    term).mp hTerm
  exact ⟨x, hx⟩

/-! ## Values -/

theorem eq_of_mem_namedElements (hSort : e.program.hasSort sort = true) {a b : Term × String}
    (ha : a ∈ namedElements (e.listedUniverses m) sort)
    (hb : b ∈ namedElements (e.listedUniverses m) sort) (h : a.2 = b.2) : a = b := by
  obtain ⟨i, hi, hName, -⟩ := (mem_namedElements_iff hSort).mp ha
  obtain ⟨j, hj, hName', -⟩ := (mem_namedElements_iff hSort).mp hb
  rw [hName, hName'] at h
  obtain rfl := elementName_injective h
  exact Prod.ext (hi.trans hj.symm) (hName.trans hName'.symm)

theorem eq_of_mem_tuples (hSorts : ∀ sort ∈ sorts, e.program.hasSort sort = true)
    {as bs : List (Term × String)}
    (ha : as ∈ tuples (sorts.map (namedElements (e.listedUniverses m))))
    (hb : bs ∈ tuples (sorts.map (namedElements (e.listedUniverses m))))
    (h : as.map Prod.snd = bs.map Prod.snd) : as = bs := by
  rw [mem_tuples_iff, forall₂_map_right_iff] at ha hb
  induction ha generalizing bs with
  | nil => exact (forall₂_nil_right_iff.mp hb).symm
  | cons hHead _ ih =>
    obtain ⟨b, bs, hb', hbs, rfl⟩ := forall₂_cons_right_iff.mp hb
    rw [map_cons, map_cons, cons.injEq] at h
    rw [eq_of_mem_namedElements (hSorts _ mem_cons_self) hHead hb' h.1,
      ih (fun sort hSort => hSorts sort (mem_cons_of_mem _ hSort)) hbs h.2]

theorem readSymbol_value (hSorts : ∀ sort ∈ x.args, e.program.hasSort sort = true)
    {i : Interpretation} (h : e.readSymbol m (e.listedUniverses m) x index = .ok i) :
    i.symbol = x.name ∧ ∃ f, e.symbol x index = .ok f ∧
      ∀ as ∈ tuples (x.args.map (namedElements (e.listedUniverses m))), ∃ value,
        readValue m (e.listedUniverses m) x f (as.map Prod.fst) = .ok value ∧
          i.value? (as.map Prod.snd) = some value := by
  simp only [readSymbol, bind_eq_ok, pure_eq_ok, mapError_eq_ok] at h
  obtain ⟨f, hf, entries, hEntries, rfl⟩ := h
  refine ⟨rfl, f, hf, fun as has => ?_⟩
  have hEntries := mapM_eq_ok.mp hEntries
  obtain ⟨entry, hEntry, hRead⟩ := exists_right_of_forall₂ hEntries has
  obtain ⟨value, hValue, hPair⟩ := bind_eq_ok.mp hRead
  obtain rfl := pure_eq_ok.mp hPair
  refine ⟨value, hValue, lookup_eq_some_of_forall ⟨_, hEntry, rfl⟩ fun entry' hEntry' hKey => ?_⟩
  -- another entry for these names is about the same elements
  obtain ⟨bs, hbs, hRead'⟩ := exists_left_of_forall₂ hEntries hEntry'
  obtain ⟨value', hValue', hPair'⟩ := bind_eq_ok.mp hRead'
  obtain rfl := pure_eq_ok.mp hPair'
  rw [eq_of_mem_tuples hSorts hbs has hKey, hValue] at hValue'
  exact (Except.ok.inj hValue').symm

theorem Reads.mem_tuples (h : e.Reads m t) (hBool : ∀ sort ∈ sorts, sort ≠ boolSort)
    {args : List (Value t.domain.Element)} (hArgs : Forall₂ t.domain.HasSort args sorts) :
    args.map (fun a => ((termOf (origin m) a : Term), Trace.label a)) ∈
      tuples (sorts.map (namedElements (e.listedUniverses m))) := by
  rw [mem_tuples_iff, forall₂_map_right_iff, forall₂_map_left_iff]
  induction hArgs with
  | nil => exact .nil
  | @cons a sort args sorts ha _ ih =>
    refine .cons ?_ (ih fun sort hSort => hBool sort (mem_cons_of_mem _ hSort))
    cases a with
    | truth p => exact absurd ha (hBool sort mem_cons_self)
    | element a =>
      obtain rfl : a.1.1 = sort := ha
      obtain ⟨hSort, i, hName, hOrigin, hIn⟩ := h.exists_origin a
      exact (mem_namedElements_iff hSort).mpr ⟨i, hOrigin, hName, hIn⟩

theorem valueIn?_of_forall₂ (hNodup : (xs.map Symbol.name).Nodup)
    (hs : Forall₂ (fun x i => e.readSymbol m (e.listedUniverses m) x index = .ok i) xs s)
    (hx : x ∈ xs) (hSorts : ∀ sort ∈ x.args, e.program.hasSort sort = true) :
    ∃ f, e.symbol x index = .ok f ∧
      ∀ as ∈ tuples (x.args.map (namedElements (e.listedUniverses m))), ∃ value,
        readValue m (e.listedUniverses m) x f (as.map Prod.fst) = .ok value ∧
          valueIn? x.name (as.map Prod.snd) s = some value := by
  obtain ⟨i, hi, hRead⟩ := exists_right_of_forall₂ hs hx
  obtain ⟨hName, f, hf, hValues⟩ := readSymbol_value hSorts hRead
  refine ⟨f, hf, fun as has => ?_⟩
  obtain ⟨value, hValue, hLookup⟩ := hValues as has
  refine ⟨value, hValue, valueIn?_eq_some ⟨i, hi, hName⟩ fun j hj hSymbol => ?_⟩
  -- no other meaning belongs to a symbol of this name
  obtain ⟨y, hy, hRead'⟩ := exists_left_of_forall₂ hs hj
  have hName' : j.symbol = y.name := by
    obtain ⟨g, -, entries, -, rfl⟩ := by simpa only [readSymbol, bind_eq_ok, pure_eq_ok] using hRead'
    rfl
  obtain rfl := inj_on_of_nodup_map hNodup hy hx (hName'.symm.trans hSymbol)
  rw [hRead] at hRead'
  exact Except.ok.inj hRead' ▸ hLookup

theorem valueIn?_of_not_mem
    (hs : Forall₂ (fun x i => e.readSymbol m (e.listedUniverses m) x index = .ok i) xs s)
    (hName : name ∉ xs.map Symbol.name) (labels : List String) :
    valueIn? name labels s = none := by
  refine valueIn?_eq_none fun i hi hSymbol => ?_
  obtain ⟨y, hy, hRead⟩ := exists_left_of_forall₂ hs hi
  obtain ⟨g, -, entries, -, rfl⟩ := by simpa only [readSymbol, bind_eq_ok, pure_eq_ok] using hRead
  exact hName (hSymbol ▸ mem_map_of_mem hy)

section States

variable {x : Symbol} {index : Nat}

theorem nodup_filter {q : Symbol → Bool} (h : (xs.map Symbol.name).Nodup) :
    ((xs.filter q).map Symbol.name).Nodup :=
  h.sublist (filter_sublist.map _)

theorem Reads.eval (h : e.Reads m t) (hNodup : (e.program.symbols.map Symbol.name).Nodup)
    (hx : x ∈ e.program.symbols) (hFitting : e.program.Fitting x)
    (hIndex : x.isMutable = true → index < e.keys.length) :
    ∃ f, e.symbol x index = .ok f ∧
      ∀ as ∈ tuples (x.args.map (namedElements (e.listedUniverses m))), ∃ value,
        readValue m (e.listedUniverses m) x f (as.map Prod.fst) = .ok value ∧
          t.eval x.name (as.map Prod.snd) index = .ok value := by
  have hSorts := fun sort hSort => (hFitting.args sort hSort).2
  cases hMutable : x.isMutable with
  | false =>
    obtain ⟨f, hf, hValues⟩ := valueIn?_of_forall₂ (nodup_filter hNodup) h.immutable
      (mem_filter.mpr ⟨hx, by simp [hMutable]⟩) hSorts
    refine ⟨f, symbol_of_immutable e e rfl hMutable index 0 ▸ hf, fun as has => ?_⟩
    obtain ⟨value, hValue, hIn⟩ := hValues as has
    refine ⟨value, hValue, ?_⟩
    rw [Trace.eval, hIn]
    rfl
  | true =>
    obtain ⟨s, hState, hs⟩ := h.state (hIndex hMutable)
    obtain ⟨f, hf, hValues⟩ := valueIn?_of_forall₂ (nodup_filter hNodup) hs
      (mem_filter.mpr ⟨hx, hMutable⟩) hSorts
    refine ⟨f, hf, fun as has => ?_⟩
    obtain ⟨value, hValue, hIn⟩ := hValues as has
    refine ⟨value, hValue, ?_⟩
    have hNone : valueIn? x.name (as.map Prod.snd) t.immutable = none := by
      refine valueIn?_of_not_mem h.immutable (fun hName => ?_) _
      obtain ⟨y, hy, hEq⟩ := mem_map.mp hName
      obtain ⟨hy, hImmutable⟩ := mem_filter.mp hy
      obtain rfl := inj_on_of_nodup_map hNodup hy hx hEq
      simp [hMutable] at hImmutable
    rw [Trace.eval, hNone]
    simp only [Trace.state, hState, hIn, bind, Except.bind, pure, Except.pure]

theorem evaluate_of_evaluateBool {args : List Term} {b : Bool} (h : m.evaluateBool f args = .ok b) :
    m.evaluate f args = .ok (.bool b) := by
  obtain ⟨v, hv, h⟩ := bind_eq_ok.mp h
  split at h
  · cases h
    exact hv
  · cases h

theorem Reads.valueOf (h : e.Reads m t) (hFitting : e.program.Fitting x) {terms : List Term}
    {value : String} (hValue : readValue m (e.listedUniverses m) x f terms = .ok value) :
    t.domain.HasSort (t.valueOf x value) x.result ∧
      m.apply f terms = termOf (origin m) (t.valueOf x value) := by
  unfold readValue at hValue
  cases hRelation : x.isRelation with
  | true =>
    rw [hRelation, if_pos rfl] at hValue
    obtain ⟨b, hb, hText⟩ := bind_eq_ok.mp hValue
    have hText := pure_eq_ok.mp hText
    have hEvaluate := evaluate_of_evaluateBool (mapError_eq_ok.mp hb)
    rw [Trace.valueOf, if_pos hRelation]
    refine ⟨Symbol.result_of_isRelation hRelation, ?_⟩
    rw [apply, hEvaluate]
    refine (truthOf_toStructure ?_).symm
    rw [← hText]
    cases b <;> simp
  | false =>
    rw [hRelation, if_neg (by decide)] at hValue
    obtain ⟨v, hv, hName⟩ := bind_eq_ok.mp hValue
    obtain ⟨hBool, hSort⟩ := hFitting.result hRelation
    split at hName
    · rename_i name hLookup
      obtain rfl := pure_eq_ok.mp hName
      obtain ⟨i, hEq, hName, hIn⟩ := (mem_namedElements_iff hSort).mp (mem_of_lookup hLookup)
      have hHas : t.HasElement x.result name :=
        h.hasElement_iff.mpr ⟨hBool, hSort, i, hName, hEq ▸ hIn⟩
      rw [Trace.valueOf, if_neg (by simp [hRelation]), Trace.elementOf_eq hHas]
      refine ⟨rfl, ?_⟩
      rw [apply, mapError_eq_ok.mp hv, hEq]
      exact (origin_eq (x := ⟨(x.result, name), hHas⟩) hName).symm
    · cases hName

theorem Reads.meaning (h : e.Reads m t) (hNodup : (e.program.symbols.map Symbol.name).Nodup)
    (hx : x ∈ e.program.symbols) (hFitting : e.program.Fitting x)
    (hIndex : x.isMutable = true → index < e.keys.length) :
    ∃ f, e.symbol x index = .ok f ∧ ∀ args, Forall₂ t.domain.HasSort args x.args →
      t.domain.HasSort (t.meaning e.program index x.name args) x.result ∧
        m.apply f (args.map (termOf (origin m))) =
          termOf (origin m) (t.meaning e.program index x.name args) := by
  obtain ⟨f, hf, hValues⟩ := h.eval hNodup hx hFitting hIndex
  refine ⟨f, hf, fun args hArgs => ?_⟩
  have hTuple := h.mem_tuples (fun sort hSort => (hFitting.args sort hSort).1) hArgs
  obtain ⟨value, hValue, hEval⟩ := hValues _ hTuple
  rw [map_map] at hValue hEval
  rw [meaning_of_forall₂ (Program.find?_of_nodup hNodup hx) hArgs hEval]
  exact h.valueOf hFitting hValue

variable (hNodup : (e.program.symbols.map Symbol.name).Nodup)
  (hFitting : ∀ x ∈ e.program.symbols, e.program.Fitting x)

include hNodup hFitting

/-- **A model presents the states of the trace that is read from it.** -/
theorem Reads.presents (h : e.Reads m t) (index : Nat) :
    Presents (D := t.domain) e m.toStructure (origin m) .singleState index
      (t.meaning e.program index) := by
  intro x hx _ f hf args hArgs
  have hIndex : x.isMutable = true → index < e.keys.length := by
    intro hMutable
    obtain ⟨name, hName, -⟩ := bind_eq_ok.mp hf
    rw [symbolName, if_pos hMutable] at hName
    split at hName
    · rename_i hKey
      exact (List.getElem?_eq_some_iff.mp hKey).1
    · cases hName
  obtain ⟨g, hg, hValues⟩ := h.meaning hNodup hx (hFitting x hx) hIndex
  obtain rfl := Except.ok.inj (hf.symm.trans hg)
  exact hValues args hArgs

theorem Reads.fits (h : e.Reads m t) (hIndex : index < e.keys.length) :
    ∀ x ∈ e.program.symbols, x.Fits (t.meaning e.program index) := by
  intro x hx args
  obtain ⟨f, -, hValues⟩ := h.meaning hNodup hx (hFitting x hx) fun _ => hIndex
  exact ⟨fun hArgs => (hValues args hArgs).1,
    meaning_of_not_forall₂ (Program.find?_of_nodup hNodup hx)⟩

theorem Reads.shares (h : e.Reads m t) (i j : Nat) :
    Shares e.program (t.meaning e.program i) (t.meaning e.program j) := by
  intro x hx hImmutable
  have hFree : ∀ index, x.isMutable = true → index < e.keys.length := fun _ hMutable => by
    rw [hImmutable] at hMutable
    cases hMutable
  funext args
  by_cases hArgs : Forall₂ t.domain.HasSort args x.args
  · obtain ⟨f, hf, hValues⟩ := h.meaning hNodup hx (hFitting x hx) (hFree i)
    obtain ⟨g, hg, hValues'⟩ := h.meaning hNodup hx (hFitting x hx) (hFree j)
    rw [symbol_of_immutable e e rfl hImmutable i j, hg] at hf
    obtain rfl := Except.ok.inj hf
    obtain ⟨hSort, hValue⟩ := hValues args hArgs
    obtain ⟨hSort', hValue'⟩ := hValues' args hArgs
    exact h.lists.eq_of_termOf hSort hSort' (hValue.symm.trans hValue')
  · have hSymbol := Program.find?_of_nodup hNodup hx
    rw [meaning_of_not_forall₂ hSymbol hArgs, meaning_of_not_forall₂ hSymbol hArgs]

theorem Reads.between (h : e.Reads m t) (hIndex : index + 1 < e.keys.length)
    (hWord : e.keys.length ≤ UInt32.size) :
    Between (D := t.domain) e m.toStructure (origin m) index (t.meaning e.program index)
      (t.meaning e.program (index + 1)) where
  lists := h.lists
  sorts x hx hBool := ((hFitting x hx).args boolSort hBool).1 rfl
  now := h.presents hNodup hFitting index
  next := by
    rw [nextState_eq (by omega)]
    exact h.presents hNodup hFitting (index + 1)
  fits x hx := ⟨h.fits hNodup hFitting (by omega) x hx, h.fits hNodup hFitting hIndex x hx⟩

end States

end Encoding

end InvariantSearch
