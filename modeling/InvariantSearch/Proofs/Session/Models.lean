import InvariantSearch.Proofs.Encoding.Readback
import InvariantSearch.Proofs.Session.Bounded
import InvariantSearch.Proofs.Session.Starting

/-!
# What true models show

Where the models that a session is given satisfy what is asserted and list whole
universes, the traces that are read from them are as the queries ask.

* `Session.Assumes` — some terms are the axioms, and say what the immutable derived
  relations are. A session asserts such terms when it starts.
* `Session.Faithful` — all models that a session was given are true ones.
* `Session.Displays` — a trace was read from a true model of some terms.

Main results: `Displays.isState` — every state of such a trace is a state of the
program. `Shows.isRun` — a trace that shows a run is one, by the steps that it names.
-/

namespace InvariantSearch

open SolverModel List

variable {way : Option Transition} {taken : Option String}

theorem Program.Declared.goesBy {D : Domain} {p : Program} (h : p.Declared)
    (hStutter : ∀ r ∈ p.transitions, r.name ≠ stutterName) (hWay : way ∈ Generalizer.ways p)
    {s t : State D} (hGoes : Goes p way s t) : GoesBy p (wayName way) s t := by
  cases way with
  | none => exact (if_pos rfl).mpr hGoes
  | some r =>
    have hr : r ∈ p.transitions := by simpa [Generalizer.ways] using hWay
    rw [GoesBy, wayName, if_neg (hStutter r hr), if_neg (h.nodup_transitions.2 r hr)]
    exact ⟨r, h.transition?_eq_some hr, hGoes⟩

namespace Session

variable {s : Session} {p : Program} {label : String}

/-! ## Sessions from their start -/

/-- Terms say what holds in all states: the axioms, and the definitions of immutable derived
relations. -/
def Assumes (p : Program) (label : String) (base : List Term) : Prop :=
  ∀ f ∈ p.axioms.map NamedFormula.formula ++ definitions p false,
    ∃ t ∈ base, Encodes ⟨p, label, stepKeys 1⟩ f 0 t

/-- **A session that has started assumes the axioms of its program**, which was checked. -/
theorem assumes_of_start {prover : Prover} (hScopes : prover.scopes = [])
    (h : start p label prover = .ok () s) :
    s.program = p ∧ s.label = label ∧ p.validated = true ∧ Assumes p label s.prover.base := by
  obtain ⟨hValidated, terms, hTerms, hAsserts⟩ := eq_of_start h
  -- no scope was open, and none is
  have hForce : s.prover.scopes ++ [s.prover.base] = [terms.reverse ++ prover.base] :=
    hAsserts.inForce_base hScopes
  have hBase := (append_eq_singleton_iff.mp hForce).resolve_right (by simp)
  refine ⟨hAsserts.program, hAsserts.label, hValidated, fun f hf => ?_⟩
  obtain ⟨term, hTerm, hEncodes⟩ := exists_right_of_forall₂ (run_mapM_eq_ok hTerms) hf
  refine ⟨term, ?_, hEncodes⟩
  rw [singleton_injective hBase.2]
  exact mem_append_left _ (mem_reverse.mpr hTerm)

/-! ## True models -/

/-- The models that a session was given satisfy what was asserted, and list whole universes. -/
def Faithful (s : Session) : Prop :=
  ∀ query answer m, s.prover.Recorded query answer → answer.verdict = .sat m →
    (∀ t ∈ query.assertions.flatten, m.Satisfies t) ∧
      m.Complete ⟨s.program, s.label, stepKeys query.question.states⟩

/-- The models that a session was given, with their queries. -/
def models (s : Session) : List (Query × SolverModel) :=
  s.prover.events.filterMap fun
    | .check query (some ⟨.sat m, _⟩) => some (query, m)
    | _ => none

theorem mem_models {query : Query} {m : SolverModel} :
    (query, m) ∈ s.models ↔ ∃ answer, s.prover.Recorded query answer ∧ answer.verdict = .sat m := by
  rw [models, mem_filterMap]
  constructor
  · rintro ⟨event, hEvent, h⟩
    split at h
    · cases h
      exact ⟨_, hEvent, rfl⟩
    · cases h
  · rintro ⟨⟨verdict, interrupts⟩, hRecorded, rfl⟩
    exact ⟨_, hRecorded, rfl⟩

/-- Whether all models of a session are true can be computed. -/
instance (s : Session) : Decidable s.Faithful :=
  decidable_of_iff
    (∀ entry ∈ s.models, (∀ t ∈ entry.1.assertions.flatten, entry.2.Satisfies t) ∧
      entry.2.Complete ⟨s.program, s.label, stepKeys entry.1.question.states⟩)
    ⟨fun h query _ m hRecorded hVerdict => h (query, m) (mem_models.mpr ⟨_, hRecorded, hVerdict⟩),
      fun h entry hEntry => by
        obtain ⟨answer, hRecorded, hVerdict⟩ := mem_models.mp hEntry
        exact h entry.1 answer entry.2 hRecorded hVerdict⟩

/-- A trace was read from a true model of some terms. -/
structure Displays (e : Encoding) (m : SolverModel) (asserted : Term → Prop) (t : Trace) :
    Prop where
  reads : e.Reads m t
  complete : m.Complete e
  satisfied : ∀ term, asserted term → m.Satisfies term

/-- What is known of a program for which sessions can be started. -/
structure Proper (p : Program) : Prop where
  declared : p.Declared
  checked : p.Checked

theorem proper_of_validated (hDeclared : p.Declared) (hValidated : p.validated = true) :
    Proper p :=
  ⟨hDeclared, Program.checked_of_checkAll (hDeclared.checkAll_eq_ok hValidated)⟩

theorem Modelled.displays {needed : Term → Prop} {states : Nat} {m : SolverModel}
    (h : s.Modelled needed states m) (hFaithful : s.Faithful) (hStates : 0 < states)
    (hProper : Proper s.program) {t : Trace}
    (hRead : Encoding.readModel ⟨s.program, s.label, stepKeys states⟩ m = .ok t) :
    Displays ⟨s.program, s.label, stepKeys states⟩ m needed t := by
  obtain ⟨query, answer, hRecorded, hVerdict, rfl, hNeeded⟩ := h
  obtain ⟨hSatisfies, hComplete⟩ := hFaithful query answer m hRecorded hVerdict
  refine ⟨Encoding.reads_readModel hComplete ?_ hProper.checked.symbols hRead, hComplete,
    fun term hTerm => hSatisfies term (hNeeded term hTerm)⟩
  simpa [stepKeys] using hStates

section Displays

variable {f : Formula} {trace t : Trace} {u : Term} {choices : List Choice} {e : Encoding}
  {m : SolverModel} {asserted : Term → Prop} {index : Nat} {base : List Term}

section Proper

variable (h : Displays e m asserted t) (hProper : Proper e.program)

include h hProper

theorem Displays.holdsIn (hf : e.program.Sorted .singleState f)
    (hTerm : ∃ u, m.Satisfies u ∧ Encodes e f index u) :
    f.HoldsIn (t.meaning e.program index) := by
  obtain ⟨u, hTrue, n, n', hEncodes⟩ := hTerm
  have hPresents := h.reads.presents hProper.declared.nodup_names hProper.checked.symbols index
  exact (Encoding.satisfies_iff_holdsIn h.reads.lists hPresents (by decide) hf hEncodes).mp
    (toStructure_satisfies.mpr hTrue)

theorem Displays.holdsIn_immutable (hf : e.program.Sorted .immutableOnly f) {keys : List String}
    (hTerm : ∃ u, asserted u ∧ Encodes ⟨e.program, e.label, keys⟩ f 0 u) :
    f.HoldsIn (t.meaning e.program index) := by
  obtain ⟨u, hu, n, n', hEncodes⟩ := hTerm
  have hPresents := h.reads.presents hProper.declared.nodup_names hProper.checked.symbols index
  have hPresents' : Encoding.Presents (D := t.domain) ⟨e.program, e.label, keys⟩ m.toStructure
      (Encoding.origin m) .immutableOnly 0 (t.meaning e.program index) := by
    intro x hx hMention g hg
    have hSame := e.symbol_of_immutable ⟨e.program, e.label, keys⟩ rfl (hMention rfl) index 0
    exact hPresents x hx (fun hContext => by cases hContext) g (hSame.trans hg)
  exact (Encoding.satisfies_iff_holdsIn (e := ⟨e.program, e.label, keys⟩) h.reads.lists hPresents'
    (by decide) hf hEncodes).mp
    (toStructure_satisfies.mpr (h.satisfied u hu))

/-- **The states that a true model shows are states of the program**, where the axioms and all
definitions are asserted. -/
theorem Displays.isState (hBase : Assumes e.program e.label base)
    (hAsserted : ∀ u ∈ base, asserted u) (hDefines : Defines e asserted)
    (hIndex : index < e.keys.length) : IsState e.program (t.meaning e.program index) := by
  have hNodup := hProper.declared.nodup_names
  have hFitting := hProper.checked.symbols
  refine ⟨h.reads.fits hNodup hFitting hIndex, fun f hf => ?_, fun x hx f hf => ?_⟩
  · obtain ⟨u, hu, hEncodes⟩ := hBase f.formula
      (mem_append_left _ (mem_map_of_mem hf))
    exact h.holdsIn_immutable hProper (hProper.checked.axiomatic f hf)
      ⟨u, hAsserted u hu, hEncodes⟩
  · have hSorted := (hFitting x hx).definition f hf
    have hIn : f ∈ definitions e.program x.isMutable :=
      mem_filterMap.mpr ⟨x, mem_filter.mpr ⟨hx, by simp⟩, hf⟩
    cases hMutable : x.isMutable with
    | true =>
      rw [hMutable] at hSorted hIn
      obtain ⟨u, hu, hEncodes⟩ := hDefines index hIndex f hIn
      exact h.holdsIn hProper hSorted ⟨u, h.satisfied u hu, hEncodes⟩
    | false =>
      rw [hMutable] at hSorted hIn
      obtain ⟨u, hu, hEncodes⟩ := hBase f (mem_append_right _ hIn)
      exact h.holdsIn_immutable hProper hSorted ⟨u, hAsserted u hu, hEncodes⟩

end Proper

theorem Displays.rename (h : Displays e m asserted t) (names : List String) :
    Displays e m asserted { t with transitions := names } :=
  ⟨⟨h.reads.universes, h.reads.immutable, h.reads.states⟩, h.complete, h.satisfied⟩

theorem Pictures.displays {states : Nat} {step : Option Transition}
    (h : s.Pictures p label base states f step trace) (hFaithful : s.Faithful)
    (hProgram : s.program = p) (hLabel : s.label = label) (hProper : Proper p)
    (hStates : 0 < states) :
    ∃ m needed, Displays ⟨p, label, stepKeys states⟩ m needed trace ∧ (∀ u ∈ base, needed u) ∧
      Defines ⟨p, label, stepKeys states⟩ needed ∧
      (∃ u, needed u ∧ Encodes ⟨p, label, stepKeys states⟩ f 0 u) ∧
      ∀ r, step = some r → ∃ u, needed u ∧
        ∃ n n', Encoding.transition ⟨p, label, stepKeys states⟩ r 0 n = .ok u n' := by
  subst hProgram hLabel
  obtain ⟨m, needed, read, hm, hNeeded, hDefines, hTerm, hStep, hRead, names, rfl⟩ := h
  exact ⟨m, needed, (hm.displays hFaithful hStates hProper hRead).rename names, hNeeded, hDefines,
    hTerm, hStep⟩

/-! ## Steps -/

theorem Displays.goes (h : Displays e m asserted t) (hProper : Proper e.program)
    (hIndex : index + 1 < e.keys.length) (hWord : e.keys.length ≤ UInt32.size)
    (hWay : way ∈ Generalizer.ways e.program) (hu : m.Satisfies u)
    (hTerm : e.EncodesWay index way u) :
    Goes e.program way (t.meaning e.program index) (t.meaning e.program (index + 1)) := by
  have hNodup := hProper.declared.nodup_names
  have hFitting := hProper.checked.symbols
  exact ((h.reads.between hNodup hFitting hIndex hWord).satisfies_iff_goes
    hProper.checked.transitions hWay (h.reads.shares hNodup hFitting _ _) hTerm).mp
    (toStructure_satisfies.mpr hu)

theorem taken?_eq_some {name : String} (h : taken? m choices = .ok (some name)) :
    (name, none) ∈ choices ∨
      ∃ i, (name, some i) ∈ choices ∧ m.evaluateBool i.symbol [] = .ok true := by
  induction choices with
  | nil => cases h
  | cons choice choices ih =>
    obtain ⟨name', i⟩ := choice
    cases i with
    | none =>
      cases h
      exact Or.inl mem_cons_self
    | some i =>
      rw [taken?] at h
      obtain ⟨b, hb, h⟩ := bind_eq_ok.mp h
      cases b with
      | true =>
        cases h
        exact Or.inr ⟨i, mem_cons_self, hb⟩
      | false =>
        refine (ih h).imp (mem_cons_of_mem _) ?_
        rintro ⟨j, hj, hOn⟩
        exact ⟨j, mem_cons_of_mem _ hj, hOn⟩

theorem taken?_eq_none (h : taken? m choices = .ok none) :
    ∀ choice ∈ choices, ∃ i, choice.2 = some i ∧ m.evaluateBool i.symbol [] = .ok false := by
  induction choices with
  | nil => simp
  | cons choice choices ih =>
    obtain ⟨name', i⟩ := choice
    cases i with
    | none => cases h
    | some i =>
      rw [taken?] at h
      obtain ⟨b, hb, h⟩ := bind_eq_ok.mp h
      cases b with
      | true => cases h
      | false => exact forall_mem_cons.mpr ⟨⟨i, rfl, hb⟩, ih h⟩

theorem value_term {i : SolverConst} {b : Bool} (h : m.evaluateBool i.symbol [] = .ok b) :
    m.value [] i.term = .bool b := by
  rw [SolverConst.term, value, lookup_nil, values]
  dsimp only
  rw [apply, Encoding.evaluate_of_evaluateBool h]

theorem satisfies_of_indicator {i : SolverConst} (h : m.Satisfies (.imp i.term u))
    (hOn : m.evaluateBool i.symbol [] = .ok true) : m.Satisfies u := by
  rw [Satisfies, value] at h
  simpa [value_term hOn, Satisfies] using h

theorem mem_ways_of_way? {name : String} (h : p.way? name = some way) :
    way ∈ Generalizer.ways p ∧ wayName way = name ∧ name ≠ "" := by
  unfold Program.way? at h
  split at h
  · rename_i hStutter
    cases h
    exact ⟨mem_cons_self, hStutter.symm, hStutter ▸ by decide⟩
  · split at h
    · cases h
    · rename_i hEmpty
      obtain ⟨r, hr, rfl⟩ := Option.map_eq_some_iff.mp h
      refine ⟨mem_cons_of_mem _ (mem_map_of_mem (Program.mem_of_transition? hr)), ?_, hEmpty⟩
      simpa [wayName] using find?_some hr

/-- **A step goes as it is named** by what a true model takes, and it is named by something: as it is
asked for, if it is. No transition may be called a stutter for that. -/
theorem Constrains.goesBy {wanted : String} {step : ConstrainedStep}
    (h : Constrains e index wanted step) (hDisplays : Displays e m asserted t)
    (hAsserted : ∀ u ∈ step.terms, asserted u)
    (hGuards : ∀ g ∈ step.guards, ∃ n n', wayFrom e g.1 n = .ok g.2.literal n')
    (hProper : Proper e.program) (hStutter : ∀ r ∈ e.program.transitions, r.name ≠ stutterName)
    (hIndex : index + 1 < e.keys.length) (hWord : e.keys.length ≤ UInt32.size)
    (hTaken : taken? m step.choices = .ok taken) :
    ∃ name, taken = some name ∧ name ≠ "" ∧ (wanted ≠ "" → name = wanted) ∧
      GoesBy e.program name (t.meaning e.program index) (t.meaning e.program (index + 1)) := by
  have hGoes : ∀ way ∈ Generalizer.ways e.program, ∀ u, m.Satisfies u → e.EncodesWay index way u →
      GoesBy e.program (wayName way) (t.meaning e.program index)
        (t.meaning e.program (index + 1)) := fun way hWay u hu hTerm =>
    hProper.declared.goesBy hStutter hWay (hDisplays.goes hProper hIndex hWord hWay hu hTerm)
  cases h with
  | @fixed name way u hWay hTerm =>
    cases hTaken
    obtain ⟨hIn, hName, hNonempty⟩ := mem_ways_of_way? hWay
    refine ⟨wanted, rfl, hNonempty, fun _ => rfl, ?_⟩
    rw [← hName]
    exact hGoes way hIn u (hDisplays.satisfied u (hAsserted u mem_cons_self)) hTerm
  | @free guards hWays =>
    -- an indicator that is on tells where the step goes
    have hOn : ∀ g ∈ guards, m.evaluateBool g.2.indicator.symbol [] = .ok true →
        wayName g.1.2 ≠ "" ∧ GoesBy e.program (wayName g.1.2) (t.meaning e.program index)
          (t.meaning e.program (index + 1)) := by
      intro g hg hTrue
      obtain ⟨n, n', hLiteral⟩ := hGuards g hg
      obtain ⟨way, hWay, hPlace⟩ := mem_map.mp (hWays ▸ mem_map_of_mem (f := Prod.fst) hg)
      rw [← hPlace] at hLiteral ⊢
      have hIn : way ∈ Generalizer.ways e.program := by
        simpa [Generalizer.ways, or_comm] using hWay
      refine ⟨?_, hGoes way hIn _ (satisfies_of_indicator (hDisplays.satisfied g.2.term
        (hAsserted _ (mem_append_left _ (mem_map_of_mem (f := fun g => g.2.term) hg)))) hTrue)
        ⟨n, n', hLiteral⟩⟩
      cases way with
      | none => exact show stutterName ≠ "" by decide
      | some r =>
        exact hProper.declared.nodup_transitions.2 r (by simpa [Generalizer.ways] using hIn)
    cases taken with
    | none =>
      -- the model makes one of the indicators true
      have hSome := hDisplays.satisfied _ (hAsserted _ (mem_append_right _ mem_cons_self))
      obtain ⟨v, hv, hTrue⟩ :=
        SolverStructure.value_disj_eq_true.mp (toStructure_satisfies.mpr hSome)
      obtain ⟨g, hg, rfl⟩ := mem_map.mp hv
      obtain ⟨i, hi, hOff⟩ := taken?_eq_none hTaken _ (mem_map_of_mem hg)
      obtain rfl := Option.some.inj hi
      rw [toStructure_value, value_term hOff] at hTrue
      cases hTrue
    | some name =>
      obtain hIn | ⟨i, hIn, hTrue⟩ := taken?_eq_some hTaken
      · obtain ⟨g, hg, hEq⟩ := mem_map.mp hIn
        cases hEq
      · obtain ⟨g, hg, hEq⟩ := mem_map.mp hIn
        cases hEq
        exact ⟨_, rfl, (hOn g hg hTrue).1, fun h => absurd rfl h, (hOn g hg hTrue).2⟩

theorem foldlM_setTransition {act : Trace → List Choice × Nat → Except ModelFault Trace}
    (hAct : ∀ t step index t', act t (step, index) = .ok t' → ∃ taken,
      taken? m step = .ok taken ∧ ∀ name, taken = some name → t' = t.setTransition index name)
    {choices : List (List Choice)}
    (hTaken : ∀ step ∈ choices, ∀ taken, taken? m step = .ok taken → taken ≠ none)
    (h : (choices.zipIdx t.transitions.length).foldlM act t = .ok trace) :
    ∃ names, trace = { t with transitions := t.transitions ++ names } ∧
      Forall₂ (fun step name => taken? m step = .ok (some name)) choices names := by
  induction choices generalizing t with
  | nil =>
    obtain rfl := pure_eq_ok.mp h
    exact ⟨[], by simp, .nil⟩
  | cons step choices ih =>
    rw [zipIdx_cons, foldlM_cons] at h
    obtain ⟨t', hStep, h⟩ := bind_eq_ok.mp h
    obtain ⟨taken, hName, hSet⟩ := hAct t step _ t' hStep
    obtain ⟨name, rfl⟩ :=
      Option.ne_none_iff_exists'.mp (hTaken step mem_cons_self taken hName)
    obtain rfl : t' = { t with transitions := t.transitions ++ [name] } := by
      rw [hSet name rfl]
      simp [Trace.setTransition]
    obtain ⟨names, hTrace, hNames⟩ := ih (t := { t with transitions := t.transitions ++ [name] })
      (fun step hStep => hTaken step (mem_cons_of_mem _ hStep)) (by simpa using h)
    exact ⟨name :: names, by simp [hTrace], .cons hName hNames⟩

/-- Naming the steps of a trace names each by what a model takes, where it takes something. -/
theorem nameSteps_eq_ok {choices : List (List Choice)} {shown : Trace}
    (hShown : shown.transitions = [])
    (hTaken : ∀ step ∈ choices, ∀ taken, taken? m step = .ok taken → taken ≠ none)
    (h : nameSteps m choices shown = .ok trace) :
    (∃ names, trace = { shown with transitions := names }) ∧
      Forall₂ (fun step name => taken? m step = .ok (some name)) choices
        trace.transitions := by
  rw [nameSteps, show 0 = shown.transitions.length by rw [hShown]; rfl] at h
  have hNamed := foldlM_setTransition (m := m) (fun t step index t' hStep => ?_) hTaken h
  · obtain ⟨names, hTrace, hNames⟩ := hNamed
    rw [hTrace, hShown]
    exact ⟨⟨_, rfl⟩, hNames⟩
  · obtain ⟨taken, hName, hStep⟩ := bind_eq_ok.mp hStep
    refine ⟨taken, hName, fun name hTaken => ?_⟩
    subst hTaken
    exact (pure_eq_ok.mp hStep).symm

/-! ## Runs -/

section Runs

variable {constraints : List (Option Formula)} {names : List String} {run : RunTerms}

section Asked

variable (h : AsksRun e constraints names run) (hDisplays : Displays e m asserted t)
  (hRun : ∀ u ∈ run.all, asserted u) (hProper : Proper e.program)

include h hDisplays hRun hProper

theorem AsksRun.holdsIn {fs : List Formula}
    (hi : constraints[index]? = some (some (Formula.conj fs))) :
    ∀ f ∈ fs, e.program.Sorted .singleState f → f.HoldsIn (t.meaning e.program index) := by
  intro f hf hSorted
  obtain ⟨u, hu, n, n', hEncodes⟩ := exists_right_of_forall₂ h.conditions (mem_conditions.mpr hi)
  have hTrue := toStructure_satisfies.mpr
    (hDisplays.satisfied u (hRun u (mem_cons_of_mem _ (mem_append_left _ hu))))
  obtain ⟨v, k, k', hEncodes', hTrue'⟩ := Encoding.satisfies_conj hEncodes hTrue f hf
  exact hDisplays.holdsIn hProper hSorted
    ⟨v, toStructure_satisfies.mp hTrue', k, k', hEncodes'⟩

variable (hStutter : ∀ r ∈ e.program.transitions, r.name ≠ stutterName)
  (hKeys : e.keys.length = names.length + 1) (hWord : e.keys.length ≤ UInt32.size)

include hStutter hKeys hWord

theorem AsksRun.goesBy (hi : index < run.steps.length)
    (hTaken : taken? m run.steps[index].choices = .ok taken) :
    ∃ name, taken = some name ∧ name ≠ "" ∧
      (∀ wanted, names[index]? = some wanted → wanted ≠ "" → name = wanted) ∧
      GoesBy e.program name (t.meaning e.program index) (t.meaning e.program (index + 1)) := by
  have hLength := h.steps.length_eq
  rw [length_zipIdx] at hLength
  have hConstrains := h.steps.get (by simpa [hLength] using hi) hi
  simp only [get_eq_getElem, getElem_zipIdx, Nat.zero_add] at hConstrains
  have hIn : run.steps[index] ∈ run.steps := getElem_mem hi
  obtain ⟨n, n', hGuards⟩ := h.guards
  obtain ⟨name, hName, hNonempty, hWanted, hGoes⟩ := hConstrains.goesBy hDisplays
    (fun u hu => hRun u (mem_cons_of_mem _ (mem_append_right _ (mem_flatMap.mpr ⟨_, hIn, hu⟩))))
    (fun g hg => by
      obtain ⟨k, k', -, hLiteral⟩ := hGuards.literals g (mem_flatMap.mpr ⟨_, hIn, hg⟩)
      exact ⟨k, k', hLiteral⟩) hProper hStutter (by omega) hWord hTaken
  refine ⟨name, hName, hNonempty, fun wanted hAsked => ?_, hGoes⟩
  rw [getElem?_eq_getElem (by omega)] at hAsked
  exact Option.some.inj hAsked ▸ hWanted

theorem AsksRun.isRunOf (hBase : Assumes e.program e.label base)
    (hAsserted : ∀ u ∈ base, asserted u) (hDefines : Defines e asserted)
    (hTaken : Forall₂ (fun step name => taken? m step.choices = .ok (some name)) run.steps
      t.transitions) : t.IsRunOf e.program := by
  have hLength := h.steps.length_eq
  rw [length_zipIdx, hTaken.length_eq] at hLength
  have hGoes : ∀ i (hi : i < t.transitions.length), t.transitions[i] ≠ "" ∧
      GoesBy e.program t.transitions[i] (t.meaning e.program i)
        (t.meaning e.program (i + 1)) := by
    intro i hi
    have hi' : i < run.steps.length := hTaken.length_eq ▸ hi
    obtain ⟨name, hName, hNonempty, -, hGoes⟩ :=
      h.goesBy hDisplays hRun hProper hStutter hKeys hWord hi' (hTaken.get hi' hi)
    rw [get_eq_getElem] at hName
    rw [Option.some.inj hName]
    exact ⟨hNonempty, hGoes⟩
  refine ⟨?_, fun hIn => ?_, ?_, ⟨fun i hi => ?_, ?_, fun i name hi => ?_⟩⟩
  · rw [hDisplays.reads.length_states]
    omega
  · obtain ⟨i, hi, hEmpty⟩ := getElem_of_mem hIn
    exact (hGoes i hi).1 hEmpty
  · exact hDisplays.reads.inhabits hDisplays.complete hProper.declared.sort_ne_bool
  · exact hDisplays.isState hProper hBase hAsserted hDefines (by omega)
  · exact hDisplays.holdsIn hProper hProper.checked.sorted_initial
      ⟨_, hDisplays.satisfied _ (hRun _ mem_cons_self), h.initial⟩
  · obtain ⟨hLt, rfl⟩ := List.getElem?_eq_some_iff.mp hi
    exact (hGoes i hLt).2

end Asked

/-- **A trace that shows a run is one**, where models are true. Each part of a condition on a
state holds there. -/
theorem Shows.isRunOf {trace : Trace} (h : s.Shows p label base constraints names trace)
    (hFaithful : s.Faithful) (hProgram : s.program = p) (hLabel : s.label = label)
    (hProper : Proper p) (hBase : Assumes p label base)
    (hStutter : ∀ r ∈ p.transitions, r.name ≠ stutterName) :
    trace.IsRunOf p ∧ trace.transitions.length + 1 = constraints.length ∧
      ∀ (i : Nat) (fs : List Formula), constraints[i]? = some (some (Formula.conj fs)) →
        ∀ f ∈ fs, p.Sorted .singleState f → f.HoldsIn (trace.meaning p i) := by
  subst hProgram hLabel
  obtain ⟨hNames, hWord, e, m, run, needed, shown, he, hModelled, hNeeded, hDefines, hAsks, hAll,
    hRead, hNamed⟩ := h
  have hProgram : e.program = s.program := by rw [he]
  have hLabel : e.label = s.label := by rw [he]
  have hKeys : e.keys.length = names.length + 1 := by simp [he, stepKeys, hNames]
  have hWord : e.keys.length ≤ UInt32.size := by omega
  have hDisplayed : Displays e m needed shown := by
    subst he
    exact hModelled.displays hFaithful (by omega) hProper hRead
  have hShown : shown.transitions = [] := by
    simp only [Encoding.readModel, bind_eq_ok, pure_eq_ok] at hRead
    obtain ⟨u, -, immutable, -, states, -, rfl⟩ := hRead
    rfl
  rw [← hProgram] at hProper hStutter hBase ⊢
  rw [← hLabel] at hBase
  obtain ⟨⟨transitions, hTrace⟩, hTaken⟩ := nameSteps_eq_ok hShown
    (fun choices hIn taken hTaken => by
      obtain ⟨step, hStep, rfl⟩ := mem_map.mp hIn
      obtain ⟨i, hi, rfl⟩ := getElem_of_mem hStep
      obtain ⟨name, rfl, -⟩ := hAsks.goesBy hDisplayed hAll hProper hStutter hKeys hWord hi hTaken
      exact Option.some_ne_none name) hNamed
  rw [forall₂_map_left_iff] at hTaken
  have hDisplays : Displays e m needed trace := hTrace ▸ hDisplayed.rename transitions
  refine ⟨hAsks.isRunOf hDisplays hAll hProper hStutter hKeys hWord hBase hNeeded hDefines hTaken,
    ?_, fun i fs hi => hAsks.holdsIn hDisplays hAll hProper hi⟩
  have hLength := hAsks.steps.length_eq
  rw [length_zipIdx, hTaken.length_eq] at hLength
  omega

end Runs

end Displays

end Session

end InvariantSearch
