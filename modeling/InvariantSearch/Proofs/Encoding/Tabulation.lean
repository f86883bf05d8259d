import InvariantSearch.Proofs.Encoding.Closing
import InvariantSearch.Proofs.Meaning.Extensions

/-!
# Models as tables

A trace that is read from a model tells each of its states completely: every symbol has one
entry for each tuple of elements.

Main results: `tabulates_of_readModel` says so where no two elements have the same name, and
`readModel_total_and_closed` that every model that settles its symbols is read, and how.
-/

namespace InvariantSearch

open List Symbol

variable {f : SolverSymbol} {args : List Term} {i : Interpretation}

namespace Encoding

variable {e : Encoding} {m : SolverModel} {u : Universes} {t : Trace} {x : Symbol} {index : Nat}

/-! ## Entries -/

/-- The names that the elements of a sort get. -/
def elementNames (u : Universes) (sort : String) : List String :=
  (namedElements u sort).map Prod.snd

theorem nodup_elementNames (u : Universes) (sort : String) : (elementNames u sort).Nodup := by
  have hNames : elementNames u sort =
      (range (u.of sort).length).map fun i => sort ++ toString i := by
    refine ext_getElem (by simp [elementNames, namedElements]) fun i hi hi' => ?_
    simp [elementNames, namedElements]
  rw [hNames]
  exact nodup_range.map fun _ _ => elementName_injective

theorem readModel_eq_ok : e.readModel m = .ok t ↔ ∃ u, e.closedUniverses m = .ok u ∧
    ∃ immutable, Forall₂ (fun x i => e.readSymbol m u x 0 = .ok i)
      (e.program.symbols.filter fun x => !x.isMutable) immutable ∧
    ∃ states, Forall₂ (fun index s => Forall₂
      (fun x i => e.readSymbol m u x index = .ok i) (e.program.symbols.filter isMutable) s)
      (range e.keys.length) states ∧
    t = ⟨e.program.sorts.map fun sort => (sort, elementNames u sort), immutable, states, []⟩ := by
  simp only [readModel, bind_eq_ok, pure_eq_ok, mapM_eq_ok, eq_comm (b := t)]
  rfl

/-- A trace writes the value that a model has for a symbol at some elements. -/
def Writes (m : SolverModel) (u : Universes) (x : Symbol) (f : SolverSymbol) (args : List Term)
    (value : String) : Prop :=
  if x.isRelation then
    ∃ b, m.evaluate f args = .ok (.bool b) ∧ value = if b then "true" else "false"
  else ∃ v, m.evaluate f args = .ok v ∧ (v, value) ∈ namedElements u x.result

/-- A symbol is shown as it is in a state of a model: there is one entry for each tuple of
elements, with its value. -/
structure Shows (e : Encoding) (m : SolverModel) (u : Universes) (index : Nat) (x : Symbol)
    (i : Interpretation) : Prop where
  symbol : i.symbol = x.name
  keys : i.entries.map Prod.fst = tuples (x.args.map (elementNames u))
  values : ∃ f, e.symbol x index = .ok f ∧ Forall₂
    (fun args entry => entry.1 = args.map Prod.snd ∧ Writes m u x f (args.map Prod.fst) entry.2)
    (tuples (x.args.map (namedElements u))) i.entries

theorem writes_of_readValue {value : String} (h : readValue m u x f args = .ok value) :
    Writes m u x f args value := by
  unfold readValue at h
  unfold Writes
  cases hRelation : x.isRelation with
  | true =>
    rw [hRelation, if_pos rfl] at h
    obtain ⟨b, hb, hText⟩ := bind_eq_ok.mp h
    exact ⟨b, evaluate_of_evaluateBool (mapError_eq_ok.mp hb), (pure_eq_ok.mp hText).symm⟩
  | false =>
    rw [hRelation, if_neg (by decide)] at h
    obtain ⟨v, hv, hName⟩ := bind_eq_ok.mp h
    split at hName
    · rename_i name hLookup
      exact ⟨v, mapError_eq_ok.mp hv, pure_eq_ok.mp hName ▸ mem_of_lookup hLookup⟩
    · cases hName

theorem shows_of_readSymbol (h : e.readSymbol m u x index = .ok i) : e.Shows m u index x i := by
  simp only [readSymbol, bind_eq_ok, pure_eq_ok, mapError_eq_ok, mapM_eq_ok] at h
  obtain ⟨f, hf, entries, hEntries, rfl⟩ := h
  have hValues : Forall₂ (fun args entry => entry.1 = args.map Prod.snd ∧
      Writes m u x f (args.map Prod.fst) entry.2) (tuples (x.args.map (namedElements u)))
      entries := by
    refine hEntries.imp fun args entry hEntry => ?_
    obtain ⟨value, hValue, rfl⟩ := hEntry
    exact ⟨rfl, writes_of_readValue hValue⟩
  have hKeys : entries.map Prod.fst =
      (tuples (x.args.map (namedElements u))).map (map Prod.snd) := by
    generalize tuples (x.args.map (namedElements u)) = rows at hValues
    clear hEntries
    induction hValues with
    | nil => rfl
    | cons hHead _ ih => rw [map_cons, map_cons, ih, hHead.1]
  refine ⟨rfl, ?_, f, hf, hValues⟩
  rw [hKeys, ← tuples_map, map_map]
  rfl

theorem Shows.nodup (h : e.Shows m u index x i) : (i.entries.map Prod.fst).Nodup := by
  rw [h.keys]
  refine nodup_tuples fun items hItems => ?_
  obtain ⟨sort, -, rfl⟩ := mem_map.mp hItems
  exact nodup_elementNames u sort

theorem covers_of_readSymbol (hFitting : e.program.Fitting x) (hLists : t.ListsOnce)
    (hUniverses : t.universes = e.program.sorts.map fun sort => (sort, elementNames u sort))
    (h : e.readSymbol m u x index = .ok i) : t.Covers x i := by
  have hElement : ∀ sort, e.program.hasSort sort = true → ∀ name,
      t.HasElement sort name ↔ name ∈ elementNames u sort := by
    intro sort hSort name
    rw [hLists.hasElement_iff, hUniverses]
    constructor
    · rintro ⟨names, hEntry, hName⟩
      obtain ⟨_, -, hEq⟩ := mem_map.mp hEntry
      obtain ⟨rfl, rfl⟩ := Prod.mk.inj hEq
      exact hName
    · intro hName
      exact ⟨_, mem_map.mpr ⟨sort, contains_iff_mem.mp hSort, rfl⟩, hName⟩
  have hShows := shows_of_readSymbol h
  refine ⟨hShows.symbol, hShows.nodup, fun names => ?_, fun hRelation entry hEntry => ?_⟩
  · have hArgs : ∀ sorts : List String, (∀ sort ∈ sorts, e.program.hasSort sort = true) →
        ∀ names, Forall₂ (fun name sort => name ∈ elementNames u sort) names sorts ↔
          Forall₂ t.HasElement sorts names := by
      intro sorts hSorts
      induction sorts with
      | nil => simp
      | cons sort sorts ih =>
        rw [forall_mem_cons] at hSorts
        intro names
        rw [forall₂_cons_right_iff, forall₂_cons_left_iff]
        simp only [hElement sort hSorts.1, ih hSorts.2]
    rw [hShows.keys, mem_tuples_iff, forall₂_map_right_iff]
    exact hArgs x.args (fun sort hSort => (hFitting.args sort hSort).2) names
  · obtain ⟨f, -, hValues⟩ := hShows.values
    obtain ⟨args, -, -, hValue⟩ := exists_left_of_forall₂ hValues hEntry
    rw [Writes, if_neg (by simp [hRelation])] at hValue
    obtain ⟨v, -, hNamed⟩ := hValue
    exact (hElement _ (hFitting.result hRelation).2 _).mpr (mem_map_of_mem hNamed)

theorem exists_readValue_relation {b : Bool} (hRelation : x.isRelation = true)
    (h : m.evaluate f args = .ok (.bool b)) : ∃ value, readValue m u x f args = .ok value := by
  rw [readValue, if_pos hRelation, SolverModel.evaluateBool, h]
  exact ⟨_, rfl⟩

theorem exists_readValue_function {v : Term} (hRelation : x.isRelation = false)
    (h : m.evaluate f args = .ok v) (hIn : v ∈ u.of x.result) :
    ∃ value, readValue m u x f args = .ok value := by
  obtain ⟨i, hi, rfl⟩ := getElem_of_mem hIn
  have hNamed : ((u.of x.result)[i], x.result ++ toString i) ∈ namedElements u x.result :=
    mem_mapIdx.mpr ⟨i, hi, rfl⟩
  rw [readValue, if_neg (by simp [hRelation]), h]
  cases hLookup : (namedElements u x.result).lookup (u.of x.result)[i] with
  | none => exact absurd (lookup_eq_none_iff.mp hLookup _ hNamed) (by simp)
  | some name => exact ⟨name, by simp only [Except.mapError, bind, Except.bind, hLookup]; rfl⟩

theorem exists_readSymbol (hf : e.symbol x index = .ok f)
    (hValues : ∀ args ∈ tuples (x.args.map u.of), ∃ value, readValue m u x f args = .ok value) :
    ∃ i, e.readSymbol m u x index = .ok i := by
  have hElements : x.args.map u.of = (x.args.map (namedElements u)).map (map Prod.fst) := by
    rw [map_map]
    refine map_congr_left fun sort _ => ?_
    exact ext_getElem (by simp [namedElements]) fun i _ _ => by simp [namedElements]
  rw [hElements, tuples_map, forall_mem_map] at hValues
  have hEntries : ∃ entries, (tuples (x.args.map (namedElements u))).mapM (fun args => do
      let value ← readValue m u x f (args.map Prod.fst)
      return (args.map Prod.snd, value)) = .ok entries := by
    refine exists_mapM_eq_ok fun args hArgs => ?_
    obtain ⟨value, hValue⟩ := hValues args hArgs
    exact ⟨_, by rw [hValue]; rfl⟩
  obtain ⟨entries, hEntries⟩ := hEntries
  exact ⟨⟨x.name, x.kind, entries⟩, by
    simp only [readSymbol, bind_eq_ok, mapError_eq_ok, pure_eq_ok]
    exact ⟨f, hf, entries, hEntries, rfl⟩⟩

/-! ## Traces -/

section Traces

variable (hNodup : (e.program.symbols.map name).Nodup) (hSorts : e.program.sorts.Nodup)
  (hBool : ∀ sort ∈ e.program.sorts, sort ≠ boolSort)
  (hFitting : ∀ x ∈ e.program.symbols, e.program.Fitting x)

include hSorts hFitting

include hNodup hBool in
/-- **A trace that is read from a model tells its states completely**, if all elements have
different names. -/
theorem tabulates_of_readModel (h : e.readModel m = .ok t)
    (hNames : (t.universes.flatMap Prod.snd).Nodup) (hIndex : index < e.keys.length) :
    t.Tabulates e.program index := by
  obtain ⟨u, -, immutable, hImmutable, states, hStates, rfl⟩ := readModel_eq_ok.mp h
  have hLength : index < states.length := by
    rw [← hStates.length_eq, length_range]
    exact hIndex
  have hState : Forall₂ (fun x i => e.readSymbol m u x index = .ok i)
      (e.program.symbols.filter isMutable) states[index] := by
    simpa using hStates.get (by simpa using hIndex) hLength
  have hSymbols : ∀ {index xs is},
      Forall₂ (fun x i => e.readSymbol m u x index = .ok i) xs is →
      is.map Interpretation.symbol = xs.map name := by
    intro index xs is hRead
    induction hRead with
    | nil => rfl
    | cons hHead _ ih => rw [map_cons, map_cons, ih, (shows_of_readSymbol hHead).symbol]
  have hLists : Trace.ListsOnce ⟨e.program.sorts.map fun sort => (sort, elementNames u sort),
      immutable, states, []⟩ := by
    refine ⟨?_, fun entry hEntry => ?_, hNames⟩
    · rw [map_map]
      exact (map_id _).symm ▸ hSorts
    · obtain ⟨sort, hSort, rfl⟩ := mem_map.mp hEntry
      exact hBool sort hSort
  have hTold : Trace.interpretations ⟨e.program.sorts.map fun sort => (sort, elementNames u sort),
      immutable, states, []⟩ index = immutable ++ states[index] := by
    rw [Trace.interpretations, getElem?_eq_getElem hLength, Option.getD_some]
  refine ⟨hLists, hLength, ?_, fun i hi => ?_⟩
  · rw [hTold, map_append, hSymbols hImmutable, hSymbols hState, ← map_append]
    have hPerm : (e.program.symbols.filter (fun x => !x.isMutable) ++
        e.program.symbols.filter isMutable).Perm e.program.symbols :=
      perm_append_comm.trans (filter_append_perm isMutable _)
    exact (hPerm.map name).nodup_iff.mpr hNodup
  · rw [hTold] at hi
    rcases mem_append.mp hi with hi | hi
    · obtain ⟨x, hx, hRead⟩ := exists_left_of_forall₂ hImmutable hi
      have hIn := (mem_filter.mp hx).1
      exact ⟨x, hIn, covers_of_readSymbol (hFitting x hIn) hLists rfl hRead⟩
    · obtain ⟨x, hx, hRead⟩ := exists_left_of_forall₂ hState hi
      have hIn := (mem_filter.mp hx).1
      exact ⟨x, hIn, covers_of_readSymbol (hFitting x hIn) hLists rfl hRead⟩

omit hSorts in
/-- **Every model that settles its symbols is read.** -/
theorem exists_readModel (hSettled : m.Settled e) : ∃ t, e.readModel m = .ok t := by
  obtain ⟨u, hu, hStage, hClosed⟩ := exists_closedUniverses hFitting hSettled
  have hSymbol : ∀ x ∈ e.program.symbols, ∀ index < e.instances x, ∃ i,
      e.readSymbol m u x index = .ok i := by
    intro x hx index hIndex
    obtain ⟨f, hf⟩ := symbol_total (hFitting x hx) (instances_lt hIndex)
    refine exists_readSymbol hf fun args hArgs => ?_
    rw [mem_tuples_iff, forall₂_map_right_iff] at hArgs
    cases hRelation : x.isRelation with
    | true =>
      obtain ⟨b, hb⟩ := hSettled.relations x hx hRelation index hIndex f hf args
        (hStage.occurs hArgs)
      exact exists_readValue_relation hRelation hb
    | false =>
      obtain ⟨v, hv⟩ := hSettled.functions x hx hRelation index hIndex f hf args
        (hStage.occurs hArgs)
      exact exists_readValue_function hRelation hv
        (hClosed x index f args v ⟨hx, hRelation, hIndex, hf, hArgs, hv⟩)
  have hImmutable : ∀ x ∈ e.program.symbols.filter (fun x => !x.isMutable), ∃ i,
      e.readSymbol m u x 0 = .ok i := by
    intro x hx
    obtain ⟨hIn, hMutable⟩ := mem_filter.mp hx
    exact hSymbol x hIn 0 (by rw [instances, if_neg (by simpa using hMutable)]; decide)
  have hMutable : ∀ index ∈ range e.keys.length, ∃ s,
      (e.program.symbols.filter isMutable).mapM (fun x => e.readSymbol m u x index) =
        .ok s := by
    intro index hIndex
    refine exists_mapM_eq_ok fun x hx => ?_
    obtain ⟨hIn, hMutable⟩ := mem_filter.mp hx
    refine hSymbol x hIn index ?_
    rw [instances, if_pos hMutable]
    exact mem_range.mp hIndex
  obtain ⟨immutable, hImmutable⟩ := exists_mapM_eq_ok hImmutable
  obtain ⟨states, hStates⟩ := exists_mapM_eq_ok hMutable
  exact ⟨_, readModel_eq_ok.mpr ⟨u, hu, immutable, mapM_eq_ok.mp hImmutable, states,
    (mapM_eq_ok.mp hStates).imp fun _ _ => mapM_eq_ok.mp, rfl⟩⟩

end Traces

/-- **Models are read whole.** The universes of every model that settles its symbols are closed,
and it is read. Each universe begins with the elements that the model lists, has no element
twice, and has the values of all constants and functions at its elements in each state, and no
elements but those that are found this way. The trace names these elements, and shows each
immutable symbol once and each mutable one in every state, with the model's value at every
tuple of elements. -/
theorem readModel_total_and_closed (hDeclared : e.program.Declared)
    (hValidated : e.program.validated = true) (hSettled : m.Settled e) :
    ∃ u t, e.closedUniverses m = .ok u ∧ e.readModel m = .ok t ∧
      u.map Prod.fst = e.program.sorts ∧
      (∀ sort ∈ e.program.sorts, m.elements (.named (beforeNul sort)) <+: u.of sort ∧
        (u.of sort).Nodup ∧ ∀ v ∈ u.of sort, e.Occurs m sort v) ∧
      (∀ x ∈ e.program.symbols, x.isRelation = false → ∀ index < e.instances x,
        ∃ f, e.symbol x index = .ok f ∧ ∀ args ∈ tuples (x.args.map u.of),
          ∃ v ∈ u.of x.result, m.evaluate f args = .ok v) ∧
      t.universes = e.program.sorts.map (fun sort => (sort, elementNames u sort)) ∧
      Forall₂ (fun x i => e.Shows m u 0 x i ∧ (i.entries.map Prod.fst).Nodup)
        (e.program.symbols.filter fun x => !x.isMutable) t.immutable ∧
      Forall₂ (fun index => Forall₂
          (fun x i => e.Shows m u index x i ∧ (i.entries.map Prod.fst).Nodup)
          (e.program.symbols.filter Symbol.isMutable))
        (range e.keys.length) t.states := by
  have hFitting := (Program.checked_of_checkAll (hDeclared.checkAll_eq_ok hValidated)).symbols
  obtain ⟨u, hu, hStage, hClosed⟩ := exists_closedUniverses hFitting hSettled
  obtain ⟨t, ht⟩ := exists_readModel hFitting hSettled
  obtain ⟨u', hu', immutable, hImmutable, states, hStates, rfl⟩ := readModel_eq_ok.mp ht
  obtain rfl := Except.ok.inj (hu.symm.trans hu')
  have hShows : ∀ x index i, e.readSymbol m u x index = .ok i →
      e.Shows m u index x i ∧ (i.entries.map Prod.fst).Nodup := fun _ _ _ hRead =>
    ⟨shows_of_readSymbol hRead, (shows_of_readSymbol hRead).nodup⟩
  refine ⟨u, _, hu, ht, hStage.sorts, fun sort hSort => ⟨?_, hStage.nodup sort, ?_⟩,
    fun x hx hRelation index hIndex => ?_, rfl, hImmutable.imp fun x i => hShows x 0 i,
    hStates.imp fun index s hs => hs.imp fun x i => hShows x index i⟩
  · rw [← of_listedUniverses (contains_iff_mem.mpr hSort)]
    exact hStage.begins.elements sort
  · intro v hv
    obtain ⟨n, hn⟩ := hStage.found sort v hv
    exact hn.occurs
  · obtain ⟨f, hf⟩ := symbol_total (hFitting x hx) (instances_lt hIndex)
    refine ⟨f, hf, fun args hArgs => ?_⟩
    rw [mem_tuples_iff, forall₂_map_right_iff] at hArgs
    obtain ⟨v, hv⟩ := hSettled.functions x hx hRelation index hIndex f hf args
      (hStage.occurs hArgs)
    exact ⟨v, hClosed x index f args v ⟨hx, hRelation, hIndex, hf, hArgs, hv⟩, hv⟩

/-- A model of the night watch that lists one node, and says of the leader only that it leads. -/
def someLeader : SolverModel := ⟨[("node", 1)], [("leader", ⟨[], some .unevaluated⟩)]⟩

theorem settled_someLeader : someLeader.Settled ⟨Diagram.guards, "", stepKeys 1⟩ :=
  settled_of_closed [("node", [.element (.named "node") 0,
    .app ⟨"leader", [], .named "node", none⟩ []])] (by decide) (by decide)

/-- The leader is one more node, which is not listed. -/
theorem readModel_someLeader : someLeader.Settled ⟨Diagram.guards, "", stepKeys 1⟩ ∧
    ∃ t, readModel ⟨Diagram.guards, "", stepKeys 1⟩ someLeader = .ok t ∧
      t.universes = [("node", ["node0", "node1"])] := by
  refine ⟨settled_someLeader, ?_⟩
  obtain ⟨u, t, hu, ht, -, -, -, hUniverses, -, -⟩ :=
    readModel_total_and_closed Diagram.guards_declared rfl settled_someLeader
  refine ⟨t, ht, hUniverses.trans ?_⟩
  have hClosed : (closedUniverses ⟨Diagram.guards, "", stepKeys 1⟩ someLeader).toOption.map
      (elementNames · "node") = some ["node0", "node1"] := by decide +kernel
  rw [hu] at hClosed
  exact congrArg (fun names => [("node", names)]) (Option.some.inj hClosed)

end Encoding

end InvariantSearch
