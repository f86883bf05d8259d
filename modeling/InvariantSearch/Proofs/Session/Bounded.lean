import InvariantSearch.Proofs.Session.Settling
import InvariantSearch.Session.Bounded

/-!
# What a bounded check asks

* `Session.Constrains` — the terms that constrain a step, and the choices that they leave.
* `Session.AsksRun` — the terms of a query for a run: the initial condition, the conditions on the
  states, and the steps.
* `Session.Sighted` — a query for a run was settled.
* `Session.Shows` — a trace was read from a model of such a query.

Main result: `sightTrace_ensures` says that a run is looked for with one query, which asserts the
definitions of derived relations and the terms for the run and nothing else, and that a trace which
is found is shown by a model of it.
-/

namespace InvariantSearch

open Discipline Encoding

open List hiding get modify

variable {index limit : Nat} {p : Program} {Sure : Prop} {sighted : Option Sighting}
  {property : Formula}

/-- A step is left open, is the stutter step, or is by a declared transition. -/
def Program.Takes (p : Program) (name : String) : Prop :=
  name = "" ∨ name = stutterName ∨ (p.transition? name).isSome = true

/-- The way that a name asks for, if it asks for one. -/
def Program.way? (p : Program) (name : String) : Option (Option Transition) :=
  if name = stutterName then some none
  else if name = "" then none
  else (p.transition? name).map some

namespace Session

variable {T : Trust} {fixed : Bool} {s t : Session} {e : Encoding}
  {constraints : List (Option Formula)} {names : List String}

/-! ## Steps -/

/-- What is asserted to constrain a step. -/
structure ConstrainedStep where
  /-- The ways that are open, each from its state on and under an indicator. -/
  guards : List ((Nat × Option Transition) × Guard)
  terms : List Term
  choices : List Choice

/-- Terms constrain a step as its name asks, and leave some choices. -/
inductive Constrains (e : Encoding) (index : Nat) : String → ConstrainedStep → Prop
  /-- There is one way to go. -/
  | fixed {name : String} {way : Option Transition} {t : Term}
      (hWay : e.program.way? name = some way) (hTerm : e.EncodesWay index way t) :
      Constrains e index name ⟨[], [t], [(name, none)]⟩
  /-- All ways are open, and one of them is taken. -/
  | free {guards : List ((Nat × Option Transition) × Guard)}
      (hWays : guards.map Prod.fst =
        (e.program.transitions.map some ++ [none]).map (Prod.mk index)) :
      Constrains e index "" ⟨guards,
        guards.map (fun g => g.2.term) ++ [Term.disj (guards.map fun g => g.2.indicator.term)],
        guards.map fun g => (wayName g.1.2, some g.2.indicator)⟩

/-- The term of a way from a state on. -/
abbrev wayFrom (e : Encoding) (place : Nat × Option Transition) : Fresh Term :=
  e.step place.1 place.2

/-- A step to a state that there is can be asked for. -/
structure Steppable (e : Encoding) (index : Nat) (name : String) : Prop where
  checked : e.program.Checked
  index_lt : index < e.keys.length
  next_lt : nextState index < e.keys.length
  takes : e.program.Takes name

theorem constrainStep_ensures {wanted : String} (h : T.Sure → Steppable e index wanted) :
    (T.onSession false).Ensures (constrainStep e index wanted) s fun choices t =>
      ∃ step : ConstrainedStep, choices = step.choices ∧ Constrains e index wanted step ∧
        Guards (wayFrom e) s.prover.fresh t.prover.fresh step.guards ∧
        s.prover.Adds step.terms t.prover := by
  have hTotal : ∀ way ∈ Generalizer.ways e.program, T.Sure → Total (e.step index way) :=
    fun way hWay hSure => total_step (h hSure).checked hWay (h hSure).index_lt (h hSure).next_lt
  have hTransition : ∀ r ∈ e.program.transitions, T.Sure → Total (e.step index (some r)) :=
    fun r hr => hTotal (some r) (mem_cons_of_mem _ (mem_map_of_mem hr))
  -- one way is asserted as it is
  have hFixed : ∀ {way : Option Transition} {step : SessionM Term},
      (T.onSession false).Ensures step s (s.Lowers (e.step index way)) →
      e.program.way? wanted = some way →
      (T.onSession false).Ensures (do
        let term ← step
        assert term
        return [(wanted, none)]) s fun choices t =>
          ∃ step : ConstrainedStep, choices = step.choices ∧ Constrains e index wanted step ∧
            Guards (wayFrom e) s.prover.fresh t.prover.fresh step.guards ∧
            s.prover.Adds step.terms t.prover := by
    intro way step hStep hWay
    refine hStep.bind fun term t _ ht => ?_
    refine (assert_ensures term).bind fun _ u _ hu => ensures_pure ?_
    refine ⟨_, rfl, .fixed hWay ⟨_, _, ht.run⟩, guards_nil _ ?_, hu.2.after ht.inForce⟩
    rw [hu.1]
    exact (rises_step way).ok ht.run
  refine ensures_ite (fun hStutter => ?_) fun hStutter =>
    ensures_ite (fun hNamed => ?_) fun hOpen => ?_
  · subst hStutter
    exact hFixed (stutter_ensures (hTotal none mem_cons_self)) (if_pos rfl)
  · split
    · rename_i hNone
      refine ensures_throw (Trust.fails_of_not_sure rfl fun hSure => ?_)
      have hSome := ((h hSure).takes.resolve_left hNamed).resolve_left hStutter
      rw [hNone] at hSome
      cases hSome
    · rename_i r hr
      refine hFixed (transition_ensures (hTransition r (mem_of_find?_eq_some hr))) ?_
      rw [Program.way?, if_neg hStutter, if_neg hNamed, hr]
      rfl
  · obtain rfl : wanted = "" := not_not.mp hOpen
    -- each way gets an indicator, and stuttering comes last
    refine (guards_ensures (wayFrom e) (fun place i => ((wayName place.2, some i), i.term))
      (fun r => (index, some r)) e.program.transitions fun r hr t => ?_).bind
        fun choices t _ hChoices => ?_
    · exact guarded_ensures (wayFrom e) (index, some r) (rises_step _)
        (fun t => transition_ensures (hTransition r hr)) _ _
    obtain ⟨guards, hGuards, hTags, rfl, hAdds⟩ := hChoices
    refine (guarded_ensures (wayFrom e) (index, none) (rises_step _)
      (fun t => stutter_ensures (hTotal none mem_cons_self)) _ _).bind fun rest u _ hRest => ?_
    obtain ⟨g, hGuard, rfl, hAdds'⟩ := hRest
    refine (assert_ensures _).bind fun _ v _ hv => ensures_pure ?_
    have hWays : (guards ++ [((index, none), g)]).map Prod.fst =
        (e.program.transitions.map some ++ [none]).map (Prod.mk index) := by
      simp [hTags]
    refine ⟨_, ?_, .free hWays, ?_, ?_⟩
    · simp [wayName]
    · rw [hv.1]
      exact hGuards.append hGuard
    · have hAll := (hAdds.trans hAdds').trans hv.2
      simpa [Function.comp_def] using hAll

theorem constrainSteps_ensures {places : List (String × Nat)}
    (h : T.Sure → ∀ place ∈ places, Steppable e place.2 place.1) :
    (T.onSession false).Ensures (places.mapM fun (name, index) => constrainStep e index name) s
      fun choices t => ∃ steps : List ConstrainedStep, choices = steps.map ConstrainedStep.choices ∧
        Forall₂ (fun place step => Constrains e place.2 place.1 step) places steps ∧
        Guards (wayFrom e) s.prover.fresh t.prover.fresh (steps.flatMap ConstrainedStep.guards) ∧
        s.prover.Adds (steps.flatMap ConstrainedStep.terms) t.prover := by
  induction places generalizing s with
  | nil =>
    rw [mapM_nil]
    exact ensures_pure ⟨[], rfl, .nil, guards_nil _ (Nat.le_refl _), Prover.adds_nil rfl⟩
  | cons place places ih =>
    rw [mapM_cons]
    refine (constrainStep_ensures fun hSure => h hSure place mem_cons_self).bind
      fun choices t _ ht => ?_
    obtain ⟨step, rfl, hStep, hGuards, hAdds⟩ := ht
    refine (ih fun hSure place hPlace => h hSure place (mem_cons_of_mem _ hPlace)).bind
      fun rest u _ hu => ensures_pure ?_
    obtain ⟨steps, rfl, hSteps, hGuards', hAdds'⟩ := hu
    exact ⟨step :: steps, rfl, .cons hStep hSteps, hGuards.append hGuards', hAdds.trans hAdds'⟩

/-! ## Runs -/

/-- The conditions that are given, with the states they are about. -/
def conditions (constraints : List (Option Formula)) : List (Formula × Nat) :=
  constraints.zipIdx.filterMap fun place => place.1.map fun f => (f, place.2)

theorem mem_conditions {f : Formula} :
    (f, index) ∈ conditions constraints ↔ constraints[index]? = some (some f) := by
  rw [conditions, mem_filterMap]
  constructor
  · rintro ⟨⟨c, i⟩, hPlace, hEq⟩
    obtain ⟨g, rfl, hEq⟩ := Option.map_eq_some_iff.mp hEq
    cases hEq
    exact mem_zipIdx_iff_getElem?.mp hPlace
  · intro h
    exact ⟨(some f, index), mem_zipIdx_iff_getElem?.mpr h, rfl⟩

theorem conditions_ensures {places : List (Option Formula × Nat)}
    (h : T.Sure → ∀ f index, (some f, index) ∈ places → Total (e.encode f index [])) :
    (T.onSession false).Ensures (places.forM fun (constraint, index) =>
      match constraint with
      | some f => do
        let term ← encode e f index
        assert term
      | none => pure ()) s fun _ t => ∃ ts, s.prover.Adds ts t.prover ∧
        Forall₂ (fun place t => Encodes e place.1 place.2 t)
          (places.filterMap fun place => place.1.map fun f => (f, place.2)) ts := by
  induction places generalizing s with
  | nil => exact ensures_pure ⟨[], Prover.adds_nil rfl, .nil⟩
  | cons place places ih =>
    obtain ⟨constraint, index⟩ := place
    replace ih := fun {s : Session} => ih (s := s)
      fun hSure f i hf => h hSure f i (mem_cons_of_mem _ hf)
    cases constraint with
    | none => exact ih
    | some f =>
      refine Ensures.bind (lowerAndAssert_ensures (encode_ensures fun hSure =>
        h hSure f index mem_cons_self)) fun _ t _ ht => ?_
      obtain ⟨term, n, hRun, -, hAdds⟩ := ht
      refine ih.imp fun _ u _ hu => ?_
      obtain ⟨ts, hts, hEncodes⟩ := hu
      exact ⟨term :: ts, hAdds.trans hts, .cons ⟨_, _, hRun⟩ hEncodes⟩

/-- What is asserted to ask for a run. -/
structure RunTerms where
  initial : Term
  conditions : List Term
  steps : List ConstrainedStep

/-- All terms of a query for a run, in the order in which they are asserted. -/
def RunTerms.all (r : RunTerms) : List Term :=
  r.initial :: (r.conditions ++ r.steps.flatMap ConstrainedStep.terms)

/-- Terms ask for a run that meets some conditions and takes some steps. -/
structure AsksRun (e : Encoding) (constraints : List (Option Formula)) (names : List String)
    (run : RunTerms) : Prop where
  initial : Encodes e e.program.initial 0 run.initial
  conditions : Forall₂ (fun place t => Encodes e place.1 place.2 t) (conditions constraints)
    run.conditions
  steps : Forall₂ (fun place step => Constrains e place.2 place.1 step) names.zipIdx run.steps
  guards : ∃ n n', Guards (wayFrom e) n n' (run.steps.flatMap ConstrainedStep.guards)

/-- A run can be asked for. -/
structure Traceable (p : Program) (constraints : List (Option Formula)) (names : List String) :
    Prop where
  checked : p.Checked
  length : names.length + 1 = constraints.length
  resolves : ∀ f, some f ∈ constraints → f.Resolves p []
  takes : ∀ name ∈ names, p.Takes name

/-- **The terms of a query for a run are asserted**, and nothing else. -/
theorem askRun_ensures {α : Type} {next : List (List Choice) → SessionM α}
    {Q : α → Session → Prop}
    (h : T.Sure → Traceable e.program constraints names ∧ constraints.length < UInt32.size ∧
      e.keys.length = constraints.length)
    (hNext : ∀ run t, T.Proceeds false s t → AsksRun e constraints names run →
      s.prover.Adds run.all t.prover →
      (T.onSession false).Ensures (next (run.steps.map ConstrainedStep.choices)) t Q) :
    (T.onSession false).Ensures (do
      let initial ← encode e e.program.initial 0
      assert initial
      constraints.zipIdx.forM fun (constraint, index) =>
        match constraint with
        | some f => do
          let term ← encode e f index
          assert term
        | none => pure ()
      let choices ← names.zipIdx.mapM fun (name, index) => constrainStep e index name
      next choices) s Q := by
  refine (encode_ensures fun hSure => ?_).bind fun initial t hst ht => ?_
  · obtain ⟨hTraceable, -, hKeys⟩ := h hSure
    have hLength := hTraceable.length
    exact total_encode hTraceable.checked (hTraceable.checked.sorted_initial.resolves (by simp))
      (by omega)
  refine (assert_ensures initial).bind fun _ u htu hu => ?_
  refine (conditions_ensures fun hSure f index hf => ?_).bind fun _ v huv hv => ?_
  · obtain ⟨hTraceable, -, hKeys⟩ := h hSure
    have hIn := mem_zipIdx_iff_getElem?.mp hf
    have hIndex := (List.getElem?_eq_some_iff.mp hIn).1
    exact total_encode hTraceable.checked (hTraceable.resolves f (mem_of_getElem? hIn)) (by omega)
  obtain ⟨conditions, hAdds, hConditions⟩ := hv
  refine (constrainSteps_ensures fun hSure place hPlace => ?_).bind fun choices w hvw hw => ?_
  · obtain ⟨hTraceable, hWord, hKeys⟩ := h hSure
    have hLength := hTraceable.length
    have hIn := mem_zipIdx_iff_getElem?.mp hPlace
    have hIndex := (List.getElem?_eq_some_iff.mp hIn).1
    have hNext : nextState place.2 = place.2 + 1 := Nat.mod_eq_of_lt (by omega)
    exact ⟨hTraceable.checked, by omega, by omega, hTraceable.takes _ (mem_of_getElem? hIn)⟩
  obtain ⟨steps, rfl, hSteps, hGuards, hAdds'⟩ := hw
  have hsw := (T.onSession false).trans ((T.onSession false).trans hst htu)
    ((T.onSession false).trans huv hvw)
  refine hNext ⟨initial, conditions, steps⟩ w hsw ⟨ht.encodes, hConditions, hSteps, _, _, hGuards⟩
    ((hu.2.after ht.inForce).trans (hAdds.trans hAdds'))

/-- How a query for a run was settled: it was denied, or a trace was read from a model of it and got
names for its steps. -/
def Sighted (T : Trust) (query : Query) (e : Encoding) (choices : List (List Choice))
    (found : Option Sighting) (t : Session) : Prop :=
  match found with
  | none => ∃ core, T.Kept t.prover.asks → T.Tells query (.unsat core)
  | some sighting => (∃ m, T.Kept t.prover.asks → T.Tells query (.sat m)) ∧
      ∃ m, e.readModel m = .ok sighting.shown ∧
        sighting.named = (nameSteps m choices sighting.shown).mapError
          (fun fault => .readback (.model fault)) ∧
        Vouched T query.question.states [] (· ∈ query.assertions.flatten) m t

/-- The conditions that a search for a run looks at, since it counts states by words. -/
def counted (constraints : List (Option Formula)) : List (Option Formula) :=
  constraints.take (constraints.length % UInt32.size)

theorem length_counted (constraints : List (Option Formula)) :
    (counted constraints).length = constraints.length % UInt32.size := by
  rw [counted, length_take, Nat.min_eq_left (Nat.mod_le _ _)]

theorem counted_eq_self (h : names.length + 1 = constraints.length)
    (hCounted : names.length + 1 = (counted constraints).length) :
    counted constraints = constraints := by
  rw [length_counted] at hCounted
  rw [counted, ← hCounted, h, take_length]

/-- A query for a run was asked in a session: it asserts the definitions of derived relations and
the terms for the run, on top of what was in force. -/
def Looks (T : Trust) (s : Session) (constraints : List (Option Formula)) (names : List String)
    (description : String) (found : Option Sighting) (t : Session) : Prop :=
  let e : Encoding := ⟨s.program, s.label, stepKeys constraints.length⟩
  names.length + 1 = constraints.length ∧ constraints.length < UInt32.size ∧
    ∃ ts run, AreDefinitions e (range constraints.length) ts ∧ AsksRun e constraints names run ∧
      Sighted T ⟨.run description constraints names, (ts ++ run.all).reverse :: s.prover.inForce, []⟩
        e (run.steps.map ConstrainedStep.choices) found t

/-- **A run is looked for with one query**, which asks for it, and a trace that is found is shown
by a model. A run through more states than can be counted is refused. -/
theorem sightTrace_ensures (hs : T.Sound s.prover)
    (h : T.Sure → Traceable s.program constraints names)
    (hCount : T.Sure → constraints.length < UInt32.size ∨
      ¬ T.Firm ∧ ∀ count steps, T.Excuses (.traceQuery count steps))
    (hReads : T.Firm → ∀ count, Reads T ⟨s.program, s.label, stepKeys count⟩)
    (description : String) :
    (T.onSession fixed).Ensures (sightTrace constraints names description) s
      (Looks T s (counted constraints) names description) := by
  unfold sightTrace
  refine ensures_ite (fun hRefused => ensures_throw ?_) fun hCounted => ?_
  · by_cases hSure : T.Sure
    · have hLength := (h hSure).length
      rcases hCount hSure with hLess | ⟨hFirm, hExcuses⟩
      · rw [Nat.mod_eq_of_lt hLess] at hRefused
        omega
      · exact ⟨rfl, fun _ _ => hExcuses _ _, fun h => absurd h hFirm⟩
    · exact Trust.fails_of_not_sure rfl hSure
  obtain ⟨hPos, hNames⟩ := not_or.mp hCounted
  rw [ne_eq, not_not, ← length_counted] at hNames
  have hWord : (counted constraints).length < UInt32.size := by
    rw [length_counted]
    exact Nat.mod_lt _ (by decide)
  have hTraceable : T.Sure → Traceable s.program (counted constraints) names := by
    intro hSure
    rw [counted_eq_self (h hSure).length hNames]
    exact h hSure
  have hKeys : ∀ count, (stepKeys count).length = count := fun count => by simp [stepKeys]
  refine (overSteps_ensures fun _ => Nat.pos_of_ne_zero hPos).bind fun e t hst ht => ?_
  rw [← length_counted] at ht
  obtain ⟨rfl, ht⟩ := ht
  refine (query_ensures (Q := Looks T s (counted constraints) names description) (hst.sound hs)
    (fun hSure => (hTraceable hSure).checked) fun ts u hAre hForce htu hu => ?_).imp
      fun _ _ _ h => h.1
  refine askRun_ensures (fun hSure => ⟨hTraceable hSure, hWord, hKeys _⟩)
    fun run v huv hAsks hAdds => ?_
  have hv := huv.sound hu
  obtain ⟨scope, scopes, hBefore, hAfter⟩ := hAdds
  obtain ⟨rfl, rfl⟩ := cons.inj (hForce.symm.trans hBefore)
  rw [← reverse_append, ht] at hAfter
  rw [hKeys] at hAre
  have hLooks : ∀ found w, Sighted T ⟨.run description (counted constraints) names,
      (ts ++ run.all).reverse :: s.prover.inForce, []⟩ ⟨s.program, s.label,
        stepKeys (counted constraints).length⟩ (run.steps.map ConstrainedStep.choices) found w →
      Looks T s (counted constraints) names description found w := fun found w hFound =>
    ⟨hNames, hWord, ts, run, hAre, hAsks, hFound⟩
  refine (check_ensures hv [] _).bind fun b w hvw hw => ?_
  rw [hAfter] at hw
  obtain ⟨hSettles, hHeard⟩ := hw
  refine ensures_ite (fun hb => ?_) fun hb => ?_
  · subst hb
    obtain ⟨m, hLast⟩ := hSettles
    have hTells := hHeard.tells
    rw [hLast] at hTells
    have hVouched : Vouched T (Question.run description (counted constraints) names).states []
        (· ∈ ((ts ++ run.all).reverse :: s.prover.inForce).flatten) m w :=
      ⟨_, rfl, rfl, fun _ hu => hu, hTells⟩
    refine (minimalModel_ensures (hvw.sound hv) hLast (fun u hu => ?_) hVouched).bind
      fun small x hwx hSmall => ?_
    · refine hvw.prover.inForce ?_
      rw [Prover.InForce, hAfter]
      exact hu
    refine (readModel_ensures (fun hFirm => ⟨hReads hFirm _, (hKeys _).symm⟩) hSmall).bind
      fun shown y _ hy => ?_
    obtain ⟨hRead, rfl⟩ := hy
    have hSighted : ∀ z, T.Proceeds false y z → Looks T s (counted constraints) names description
        (some ⟨shown, (nameSteps small (run.steps.map ConstrainedStep.choices) shown).mapError
          fun fault => .readback (.model fault)⟩) z.closed := by
      intro z hyz
      have hLater := hSmall.mono hyz fun _ h => h
      exact hLooks _ _ ⟨⟨m, fun hKept => hTells (hwx.kept (hyz.kept hKept))⟩, small, hRead, rfl,
        hLater⟩
    dsimp only
    split
    · exact (logging_ensures _).bind fun _ z hyz _ => ensures_pure (hSighted z hyz)
    · exact ensures_pure (hSighted y ((T.onSession false).refl y))
  · rw [Bool.not_eq_true] at hb
    subst hb
    obtain ⟨core, hLast⟩ := hSettles
    exact ensures_pure (hLooks _ _ ⟨core, fun hKept => hLast ▸ hHeard.tells hKept⟩)

theorem findTrace_ensures (hs : T.Sound s.prover)
    (h : T.Sure → Traceable s.program constraints names)
    (hCount : T.Sure → constraints.length < UInt32.size ∨
      ¬ T.Firm ∧ ∀ count steps, T.Excuses (.traceQuery count steps))
    (hReads : T.Firm → ∀ count, Reads T ⟨s.program, s.label, stepKeys count⟩)
    (description : String)
    (hNamed : T.Firm → ∀ sighting t, Looks T s (counted constraints) names description
      (some sighting) t → T.Kept t.prover.asks → ∃ trace, sighting.named = .ok trace) :
    (T.onSession fixed).Ensures (findTrace constraints names description) s fun found t =>
      ∃ sighted, Looks T s (counted constraints) names description sighted t ∧
        sighted.map Sighting.named = found.map .ok := by
  refine (sightTrace_ensures hs h hCount hReads description).bind fun sighted t _ ht => ?_
  cases sighted with
  | none => exact ensures_pure ⟨none, ht, rfl⟩
  | some sighting =>
    refine (ensures_liftExcept (Q := fun trace u => u = t ∧ sighting.named = .ok trace)
      (fun _ h => ⟨rfl, h⟩) fun error hError => ?_).bind fun trace u _ hu => ?_
    · have hLooks := ht
      obtain ⟨-, -, ts, run, -, -, -, m, -, hMapped, -⟩ := ht
      rw [hMapped] at hError
      cases hSteps : nameSteps m (run.steps.map ConstrainedStep.choices) sighting.shown with
      | ok trace =>
        rw [hSteps] at hError
        cases hError
      | error fault =>
        rw [hSteps] at hError
        cases hError
        refine Trust.fails_of_answer rfl rfl fun hFirm hKept => ?_
        obtain ⟨trace, hTrace⟩ := hNamed hFirm sighting t hLooks hKept
        rw [hMapped, hSteps] at hTrace
        cases hTrace
    · obtain ⟨rfl, hTrace⟩ := hu
      exact ensures_pure ⟨some sighting, ht, congrArg some hTrace⟩

/-! ## Records -/

/-- A trace was read from a model of a query for a run, asked while `base` was in force. -/
def Shows (s : Session) (p : Program) (label : String) (base : List Term)
    (constraints : List (Option Formula)) (names : List String) (trace : Trace) : Prop :=
  names.length + 1 = constraints.length ∧ constraints.length < UInt32.size ∧
    ∃ (e : Encoding) (m : SolverModel) (run : RunTerms) (needed : Term → Prop) (shown : Trace),
      e = ⟨p, label, stepKeys constraints.length⟩ ∧ s.Modelled needed constraints.length m ∧
      (∀ t ∈ base, needed t) ∧ Defines e needed ∧ AsksRun e constraints names run ∧
      (∀ t ∈ run.all, needed t) ∧ e.readModel m = .ok shown ∧
      nameSteps m (run.steps.map ConstrainedStep.choices) shown = .ok trace

theorem Shows.of_recordedIn {label : String} {base base' : List Term} {trace : Trace}
    (h : s.Shows p label base constraints names trace) (hst : s.RecordedIn t)
    (hBase : ∀ u ∈ base', u ∈ base) : t.Shows p label base' constraints names trace := by
  obtain ⟨hNames, hLength, e, m, run, needed, shown, he, hm, hNeeded, hRest⟩ := h
  exact ⟨hNames, hLength, e, m, run, needed, shown, he, hm.of_recordedIn hst,
    fun u hu => hNeeded u (hBase u hu), hRest⟩

/-- What a search for a run leaves in the record: the verdict on its question, and a model
that shows the trace if there is one. -/
def Looked (s : Session) (p : Program) (label : String) (base : List Term)
    (constraints : List (Option Formula)) (names : List String) (description : String) :
    Option Trace → Prop
  | none => ∃ core, s.Told (.run description constraints names) (.unsat core)
  | some trace => (∃ m, s.Told (.run description constraints names) (.sat m)) ∧
      s.Shows p label base constraints names trace

theorem Sighted.recorded {query : Query} {e : Encoding} {choices : List (List Choice)}
    (h : Sighted (.recording t.prover.asks Sure limit) query e choices sighted t) :
    ∃ answer, t.prover.Recorded query answer ∧ Prover.Settles sighted.isSome answer.verdict := by
  cases sighted with
  | none =>
    obtain ⟨core, hTells⟩ := h
    obtain ⟨answer, hRecorded, hVerdict⟩ := Trust.exists_recorded hTells
    exact ⟨answer, hRecorded, core, hVerdict⟩
  | some sighting =>
    obtain ⟨⟨m, hTells⟩, -⟩ := h
    obtain ⟨answer, hRecorded, hVerdict⟩ := Trust.exists_recorded hTells
    exact ⟨answer, hRecorded, m, hVerdict⟩

theorem Looks.looked {description : String} {found : Option Trace}
    (h : Looks (.recording t.prover.asks Sure limit) s constraints names description sighted t)
    (hFound : sighted.map Sighting.named = found.map .ok) :
    t.Looked s.program s.label s.prover.base constraints names description found := by
  obtain ⟨hNames, hWord, ts, run, hAre, hAsks, hSighted⟩ := h
  obtain ⟨answer, hRecorded, hSettles⟩ := hSighted.recorded
  cases sighted with
  | none =>
    cases found with
    | some trace => cases hFound
    | none => exact hSettles.imp fun core hVerdict => ⟨_, answer, hRecorded, rfl, hVerdict⟩
  | some sighting =>
    cases found with
    | none => cases hFound
    | some trace =>
      obtain ⟨m, hVerdict⟩ := hSettles
      obtain ⟨-, small, hRead, hMapped, hVouched⟩ := hSighted
      have hTrace := mapError_eq_ok.mp (hMapped.symm.trans (Option.some.inj hFound))
      refine ⟨⟨m, _, answer, hRecorded, rfl, hVerdict⟩, hNames, hWord, _, small, run, _, _, rfl,
        hVouched.modelled, fun u hu => ?_, hAre.defines (by simp [stepKeys]) fun u hu => ?_, hAsks,
        fun u hu => ?_, hRead, hTrace⟩
      · exact mem_append_right _ (Prover.mem_inForce_of_mem_base hu)
      · simp [hu]
      · simp [hu]

/-- **Looking for a run leaves a verdict in the record**, and makes no misstep unless there are more
states than can be counted. -/
theorem findTrace_records (hNames : names.length + 1 = constraints.length)
    (h : Sure → Traceable s.program constraints names ∧ constraints.length ≤ limit)
    (description : String) :
    ((Trust.recording [] Sure limit).onSession fixed).Ensures
      (findTrace constraints names description) s fun found t =>
        t.Looked s.program s.label s.prover.base constraints names description found := by
  refine (Trust.ensures_recording fun final => findTrace_ensures
    (Trust.sound_recording final Sure limit _) (fun hSure => (h hSure).1) (fun hSure => ?_)
    False.elim description False.elim).imp fun found t _ ht => ?_
  · rcases Nat.lt_or_ge constraints.length UInt32.size with hLess | hMany
    · exact .inl hLess
    · exact .inr ⟨id, fun count steps =>
        ⟨Nat.le_trans hMany (h hSure).2, count, steps, rfl⟩⟩
  · obtain ⟨sighted, hLooks, hFound⟩ := ht
    rw [counted_eq_self hNames hLooks.1] at hLooks
    exact hLooks.looked hFound

/-- The conditions on a run that ends in a violation of a property. -/
def violating (property : Formula) (depth : Nat) : List (Option Formula) :=
  replicate depth none ++ [some (.not property)]

theorem traceable_violating (hChecked : p.Checked) (hProperty : property.Resolves p [])
    (depth : Nat) : Traceable p (violating property depth) (replicate depth "") := by
  refine ⟨hChecked, by simp [violating], fun f hf => ?_,
    fun name hName => .inl (eq_of_mem_replicate hName)⟩
  simp only [violating, mem_append, mem_replicate, mem_singleton, reduceCtorEq, and_false,
    false_or] at hf
  cases hf
  exact .not hProperty

theorem findViolation_ensures {depth : Nat}
    (h : Sure → s.program.Checked ∧ property.Resolves s.program [] ∧ depth < limit) :
    ((Trust.recording [] Sure limit).onSession fixed).Ensures (findViolation property depth) s
      fun found t => ∃ description, t.Looked s.program s.label s.prover.base
        (violating property depth) (replicate depth "") description found := by
  refine (findTrace_records (by simp) (fun hSure => ⟨?_, ?_⟩) _).imp
    fun found t _ ht => ⟨_, ht⟩
  · exact traceable_violating (h hSure).1 (h hSure).2.1 depth
  · have hDepth : depth + 1 ≤ limit := (h hSure).2.2
    simpa using hDepth

end Session

end InvariantSearch
