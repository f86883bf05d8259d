import InvariantSearch.Proofs.Session.Settling

/-!
# Asking for predecessors

A question about the predecessors of a diagram is asked way by way, and its answer says what the
verdicts say.

* `Unreached` — by a verdict on record, a way does not lead from some states into a diagram. The
  verdict may be about a diagram with more literals, as long as its core is left. `Isolated` — no
  way leads there.
* `Generalizer.Asks` — a query is the one about a way into a diagram.
* `Generalizer.Replies` — an answer about a way is what a verdict on such a query says.
* `Generalizer.Surveys` — an answer names the first way that was found, or rests on a reply for
  each way.

* `Generalizer.Judges` — verdicts that are as trusted tell which ways do not lead into a diagram.

Main results: `predecessor_ensures`, and what such an answer says by the judgement of its verdicts:
`Surveys.firstWay` and `Surveys.free`.
-/

namespace InvariantSearch

open Discipline Session Encoding Diagram

open List hiding get modify

variable {found : Predecessor} {p : Program} {d : Diagram} {states : Formula}

/-! ## Work in a session -/

/-- What work in a session keeps to, whatever state it has besides. It leaves nothing asserted. -/
def Trust.onWork (T : Trust) (σ : Type) : Discipline Error (Session × σ) where
  Leads s t := T.Proceeds true s.1 t.1
  Fails error s := T.Fails error s.1.prover
  refl s := (T.onSession true).refl s.1
  trans h h' := (T.onSession true).trans h h'

namespace WorkM

variable {T : Trust} {σ α : Type} {s : Session × σ}

theorem inSession_ensures {act : SessionM α} {Q : α → Session → Prop}
    (h : (T.onSession true).Ensures act s.1 Q) :
    (T.onWork σ).Ensures (inSession act) s fun a t => Q a t.1 ∧ t.2 = s.2 := by
  unfold Ensures at h ⊢
  unfold inSession
  dsimp only
  cases hRun : act s.1 with
  | ok a t =>
    rw [hRun] at h
    exact ⟨h.1, h.2, rfl⟩
  | error e t =>
    rw [hRun] at h
    exact h

theorem exists_of_kept {act : WorkM σ α} {Q : α → Session × σ → Prop} (hFirm : T.Firm)
    (hSpares : ∀ error, ¬ T.Spares error) (h : (T.onWork σ).Ensures act s Q)
    (hKept : T.Kept (left (act s)).1.prover.asks) :
    ∃ a t, act s = .ok a t ∧ Q a t ∧ T.Kept t.1.prover.asks := by
  cases hRun : act s with
  | ok a t =>
    rw [hRun] at hKept
    exact ⟨a, t, rfl, (h.ok hRun).2, hKept⟩
  | error e t =>
    rw [hRun] at hKept
    exact absurd ((h.error hRun).2.spared hFirm hKept) (hSpares e)

theorem update_ensures (f : σ → σ) :
    (T.onWork σ).Ensures (update f) s fun _ t => t.1 = s.1 ∧ t.2 = f s.2 :=
  ⟨(T.onSession true).refl s.1, rfl, rfl⟩

theorem logging_ensures (f : Log → Log) :
    (T.onWork σ).Ensures (logging f) s fun _ t => t.2 = s.2 :=
  (inSession_ensures (Session.logging_ensures f)).imp fun _ _ _ h => h.2

end WorkM

/-! ## Diagrams without predecessors -/

/-- By a verdict that was told, a way does not lead from some states into a diagram. -/
def Unreached (told : Question → Verdict → Prop) (states : Formula) (d : Diagram)
    (way : Option Transition) : Prop :=
  ∃ context d' core, told (.predecessor context states d' way) (.unsat core) ∧
    d'.vars = d.vars ∧ ∀ f ∈ d'.coreLiterals core, f ∈ d.enabled.map Conjunct.formula

/-- By verdicts that were told, nothing leads from some states into a diagram. -/
def Isolated (told : Question → Verdict → Prop) (p : Program) (states : Formula)
    (d : Diagram) : Prop :=
  ∀ way ∈ Generalizer.ways p, Unreached told states d way

theorem Isolated.mono {told told' : Question → Verdict → Prop} (h : Isolated told p states d)
    (hMono : ∀ q v, told q v → told' q v) : Isolated told' p states d := by
  intro way hWay
  obtain ⟨context, d', core, hTold, hRest⟩ := h way hWay
  exact ⟨context, d', core, hMono _ _ hTold, hRest⟩

/-- The literals that a core names are at some positions, and on. -/
def Diagram.Covers (d : Diagram) (core : Option (List Nat)) (positions : List Nat) : Prop :=
  ∀ f ∈ d.coreLiterals core, ∃ i ∈ positions, ∃ c, d.conjuncts[i]? = some c ∧
    c.enabled = true ∧ c.formula = f

theorem Diagram.Covers.unreached {told : Question → Verdict → Prop} {context : String}
    {way : Option Transition} {core : Option (List Nat)} {positions : List Nat}
    (h : d.Covers core positions) (hTold : told (.predecessor context states d way) (.unsat core))
    {test : Nat → Bool} (hTest : ∀ i ∈ positions, test i = true) :
    Unreached told states (d.keepWhere test) way := by
  refine ⟨context, d, core, hTold, rfl, fun f hf => ?_⟩
  obtain ⟨i, hi, c, hc, hOn, rfl⟩ := h f hf
  exact mem_map_of_mem (mem_enabled_keepWhere hc hOn (hTest i hi))

/-! ## Resolving -/

/-- All names in a diagram can be resolved, and its variables have declared sorts. -/
structure Diagram.Resolves (p : Program) (d : Diagram) : Prop where
  vars : ∀ x ∈ d.vars, p.hasSort x.sort = true
  conjuncts : ∀ c ∈ d.conjuncts, c.formula.Resolves p (d.vars.map Var.name)

theorem Diagram.resolves_of_check (hVars : ∀ x ∈ d.vars, p.hasSort x.sort = true)
    (hConjuncts : ∀ c ∈ d.conjuncts, p.check (Formula.thereIs d.vars c.formula) .singleState = .ok
      ()) : d.Resolves p := by
  refine ⟨hVars, fun c hc => ?_⟩
  have hSorted := Program.check_eq_ok (hConjuncts c hc)
  have hResolves := hSorted.resolves (by simp)
  unfold Formula.thereIs at hResolves
  split at hResolves
  · rename_i hEmpty
    rw [isEmpty_iff.mp hEmpty]
    exact hResolves
  · cases hResolves with
    | ex _ h => simpa using h

namespace Generalizer

open WorkM

variable {T : Trust} {e : Encoding} {frame : Formula} {d : Diagram} {context : String}
  {wanted : Wanted} {way : Option Transition} {answer : PredecessorAnswer} {s t : Session}
  {inForce : List (List Term)}

/-! ## Literals -/

/-- The literals of a diagram that are on, with their positions. -/
def placed (d : Diagram) : List (Conjunct × Nat) :=
  d.conjuncts.zipIdx.filter fun (c, _) => c.enabled

theorem map_fst_placed (d : Diagram) : (placed d).map Prod.fst = d.enabled := by
  have h := filter_map (f := Prod.fst) (p := Conjunct.enabled) (l := d.conjuncts.zipIdx)
  rw [zipIdx_map_fst] at h
  exact h.symm

theorem getElem?_of_mem_placed {c : Conjunct} {i : Nat} (h : (c, i) ∈ placed d) :
    d.conjuncts[i]? = some c ∧ c.enabled = true := by
  obtain ⟨hIn, hOn⟩ := mem_filter.mp h
  exact ⟨mem_zipIdx_iff_getElem?.mp hIn, hOn⟩

theorem mem_conjuncts_of_placed {place : Conjunct × Nat} (h : place ∈ placed d) :
    place.1 ∈ d.conjuncts :=
  (mem_zipIdx' (mem_filter.mp h).1).2 ▸ getElem_mem _

theorem covers_corePositions {literals : List (Nat × Term)}
    (h : Forall₂ (fun place literal => literal.1 = place.2) (placed d) literals)
    (core : Option (List Nat)) :
    d.Covers core (corePositions literals (Prover.coreTerms (literals.map Prod.snd) core)) := by
  -- A literal counts as soon as its indicator is among the terms of the core.
  have hCount : ∀ place literal, place ∈ placed d → literal ∈ literals → literal.1 = place.2 →
      literal.2 ∈ Prover.coreTerms (literals.map Prod.snd) core →
      ∃ i ∈ corePositions literals (Prover.coreTerms (literals.map Prod.snd) core), ∃ c,
        d.conjuncts[i]? = some c ∧ c.enabled = true ∧ c.formula = place.1.formula := by
    rintro ⟨c, i⟩ literal hPlace hLiteral rfl hCore
    obtain ⟨hc, hOn⟩ := getElem?_of_mem_placed hPlace
    refine ⟨literal.1, mem_map_of_mem (mem_filter.mpr ⟨hLiteral, ?_⟩), c, hc, hOn, rfl⟩
    exact contains_iff_mem.mpr hCore
  intro f hf
  cases core with
  | none =>
    rw [coreLiterals, ← map_fst_placed, map_map] at hf
    obtain ⟨place, hPlace, rfl⟩ := mem_map.mp hf
    obtain ⟨literal, hLiteral, hEq⟩ := exists_right_of_forall₂ h hPlace
    exact hCount place literal hPlace hLiteral hEq (mem_map_of_mem hLiteral)
  | some positions =>
    rw [coreLiterals, mem_filterMap] at hf
    obtain ⟨k, hk, hf⟩ := hf
    rw [← map_fst_placed, map_map, getElem?_map, Option.map_eq_some_iff] at hf
    obtain ⟨place, hPlace, rfl⟩ := hf
    obtain ⟨hkPlaces, hPlaceEq⟩ := List.getElem?_eq_some_iff.mp hPlace
    have hkLiterals : k < literals.length := h.length_eq ▸ hkPlaces
    have hEq := h.get hkPlaces hkLiterals
    rw [get_eq_getElem, get_eq_getElem, hPlaceEq] at hEq
    refine hCount place literals[k] (mem_of_getElem? hPlace) (getElem_mem _) hEq ?_
    exact mem_filterMap.mpr ⟨k, hk, by simp [hkLiterals]⟩

/-! ## Queries -/

/-- The terms of a step into a diagram: what is said of the first state, the step, fresh constants
for the variables, and the literals under their indicators. Numbers up to `second` are used for the
constants, and then up to `third` for the rest. -/
structure StepTerms where
  before : Term
  step : Term
  consts : List SolverConst
  scope : Scope
  first : Nat
  second : Nat
  third : Nat
  guards : List ((Conjunct × Nat) × Guard)

/-- What is asserted of a step. -/
def StepTerms.asserted (terms : StepTerms) : List Term :=
  terms.before :: terms.step :: terms.guards.map fun g => g.2.term

/-- The indicators of a step, with the positions of their literals. -/
def StepTerms.literals (terms : StepTerms) : List (Nat × Term) :=
  terms.guards.map fun g => (g.1.2, g.2.indicator.term)

/-- Terms say that a state of a frame leads into a diagram by a way. -/
structure IsStep (e : Encoding) (frame : Formula) (d : Diagram) (way : Option Transition)
    (terms : StepTerms) : Prop where
  before : Encodes e frame 0 terms.before
  step : e.EncodesWay 0 way terms.step
  binds : e.bindVars [] d.vars terms.first = .ok (terms.consts, terms.scope) terms.second
  guards : Guards (fun place => e.encode place.1.formula 1 terms.scope) terms.second
    terms.third terms.guards
  places : terms.guards.map Prod.fst = placed d

/-- A query asks whether a way leads from a frame into a diagram: the definitions of derived
relations and the step are asserted in a scope of their own, on top of what is in force, and
there is an indicator for each literal. -/
structure Asks (e : Encoding) (inForce : List (List Term)) (frame : Formula) (d : Diagram)
    (context : String) (way : Option Transition) (query : Query) (terms : StepTerms)
    (definitions : List Term) : Prop where
  step : IsStep e frame d way terms
  defined : AreDefinitions e (range e.keys.length) definitions
  query_eq : query = ⟨.predecessor context frame d way,
    (definitions ++ terms.asserted).reverse :: inForce, terms.literals.map Prod.snd⟩

/-- Names in a question about predecessors can be resolved, where that is relied on. -/
structure Askable (T : Trust) (p : Program) (frame : Formula) (d : Diagram) : Prop where
  checked : T.Sure → p.Checked
  frame : T.Sure → frame.Resolves p []
  diagram : T.Sure → d.Resolves p

theorem assertLiterals_ensures {scope : Scope}
    (hTotal : T.Sure → ∀ c ∈ d.conjuncts, Encoding.Total (e.encode c.formula 1 scope)) :
    (T.onSession false).Ensures (assertLiterals e scope d) s fun literals t =>
      ∃ guards : List ((Conjunct × Nat) × Guard),
        Guards (fun place => e.encode place.1.formula 1 scope) s.prover.fresh t.prover.fresh guards ∧
        guards.map Prod.fst = placed d ∧
        literals = guards.map (fun g => (g.1.2, g.2.indicator.term)) ∧
        s.prover.Adds (guards.map fun g => g.2.term) t.prover := by
  refine (guards_ensures (fun place : Conjunct × Nat => e.encode place.1.formula 1 scope)
    (fun place i => (place.2, i.term)) id (placed d) fun place hPlace s => ?_).imp
      fun literals t _ ht => ?_
  · exact guarded_ensures _ place (rises_encode _ _ _) (fun t => encodeWith_ensures
      fun hSure => hTotal hSure _ (mem_conjuncts_of_placed hPlace)) _ _
  · obtain ⟨guards, hGuards, hPlaces, hRest⟩ := ht
    exact ⟨guards, hGuards, hPlaces.trans (map_id _), hRest⟩

theorem wayTerm_ensures (hTotal : T.Sure → Encoding.Total (e.step 0 way)) :
    (T.onSession false).Ensures (wayTerm e way) s (s.Lowers (e.step 0 way)) := by
  cases way with
  | none => exact stutter_ensures hTotal
  | some r => exact transition_ensures hTotal

/-- **A step into a diagram is asserted** as it should be. -/
theorem assertStep_ensures (h : Askable T e.program frame d)
    (hWay : way ∈ ways e.program) (hKeys : 1 < e.keys.length) :
    (T.onSession false).Ensures (assertStep e frame d way) s fun literals t =>
      ∃ terms, IsStep e frame d way terms ∧ literals = terms.literals ∧
        s.prover.Adds terms.asserted t.prover := by
  have hFirst : 0 < e.keys.length := Nat.lt_of_succ_lt hKeys
  refine (encode_ensures fun hSure =>
    total_encode (h.checked hSure) (h.frame hSure) hFirst).bind fun before t _ ht => ?_
  refine (assert_ensures before).bind fun _ u _ hu => ?_
  refine (wayTerm_ensures fun hSure =>
    total_step (h.checked hSure) hWay hFirst hKeys).bind fun step v _ hv => ?_
  refine (assert_ensures step).bind fun _ w _ hw => ?_
  have hBind := fun hSure => (hasTerms_nil []).bindVars_total (h.diagram hSure).vars
  refine (encoding_ensures (fun hSure => total_of_gives (hBind hSure))
    (rises_bindVars d.vars [])).bind fun bound x _ hx => ?_
  refine (assertLiterals_ensures fun hSure c hc => ?_).imp fun literals y _ hy => ?_
  · obtain ⟨_, n', hRun, hTerms⟩ := hBind hSure w.prover.fresh
    have hEq := hx.run.symm.trans hRun
    injection hEq with hBound
    rw [append_nil] at hTerms
    rw [hBound]
    exact total_of_gives (encode_of_resolves (h.checked hSure).symbols hKeys
      ((h.diagram hSure).conjuncts c hc) hTerms)
  · obtain ⟨guards, hGuards, hPlaces, hLiterals, hAdds⟩ := hy
    refine ⟨⟨before, step, bound.1, bound.2, _, _, _, guards⟩,
      ⟨ht.encodes, ⟨_, _, hv.run⟩, hx.run, hGuards, hPlaces⟩, hLiterals, ?_⟩
    exact (hu.2.after ht.inForce).trans ((hw.2.after hv.inForce).trans (hAdds.after hx.inForce))

/-! ## Answers -/

/-- An answer about a way is what a verdict on a query says, which is as trusted. -/
def Says (T : Trust) (e : Encoding) (wanted : Wanted) (way : Option Transition) (query : Query)
    (literals : List (Nat × Term)) (answer : PredecessorAnswer) (t : Session) : Prop :=
  match answer.predecessor with
  | some found => found.transition = wayName way ∧ (wanted.trace = true → found.trace ≠ none) ∧
      (∃ m, T.Kept t.prover.asks → T.Tells query (.sat m)) ∧
      ∀ trace, found.trace = some trace → ∃ m read, e.readModel m = .ok read ∧
        trace = read.setTransition 0 (wayName way) ∧
        Vouched T 2 query.assumptions (fun u => u ∈ query.assertions.flatten) m t
  | none => ∃ core, (T.Kept t.prover.asks → T.Tells query (.unsat core)) ∧
      (wanted.core = true →
        answer.core = corePositions literals (Prover.coreTerms query.assumptions core))

theorem Says.mono {query : Query} {literals : List (Nat × Term)} {fixed : Bool}
    (h : Says T e wanted way query literals answer s) (hst : T.Proceeds fixed s t) :
    Says T e wanted way query literals answer t := by
  unfold Says at h ⊢
  split
  · rename_i found hFound
    rw [hFound] at h
    obtain ⟨hName, hWanted, ⟨m, hTells⟩, hTrace⟩ := h
    refine ⟨hName, hWanted, ⟨m, fun hKept => hTells (hst.kept hKept)⟩, fun trace hFound => ?_⟩
    obtain ⟨m, read, hRead, hEq, hVouched⟩ := hTrace trace hFound
    exact ⟨m, read, hRead, hEq, hVouched.mono hst fun _ h => h⟩
  · rename_i hNone
    rw [hNone] at h
    obtain ⟨core, hTells, hCore⟩ := h
    exact ⟨core, fun hKept => hTells (hst.kept hKept), hCore⟩

/-- An answer about a way rests on a query about it. -/
def Replies (T : Trust) (e : Encoding) (inForce : List (List Term)) (frame : Formula)
    (d : Diagram) (context : String) (wanted : Wanted) (way : Option Transition)
    (answer : PredecessorAnswer) (t : Session) : Prop :=
  ∃ query terms definitions, Asks e inForce frame d context way query terms definitions ∧
    Says T e wanted way query terms.literals answer t

theorem Replies.mono {fixed : Bool}
    (h : Replies T e inForce frame d context wanted way answer s) (hst : T.Proceeds fixed s t) :
    Replies T e inForce frame d context wanted way answer t := by
  obtain ⟨query, terms, definitions, hAsks, hSays⟩ := h
  exact ⟨query, terms, definitions, hAsks, hSays.mono hst⟩

/-- What is found about some ways in turn: the first that leads into the diagram, or none of them,
and the positions that their cores name besides `core`. -/
def Surveys (T : Trust) (e : Encoding) (inForce : List (List Term)) (frame : Formula)
    (d : Diagram) (context : String) (wanted : Wanted) (ways : List (Option Transition))
    (core : List Nat) (answer : PredecessorAnswer) (t : Session) : Prop :=
  match answer.predecessor with
  | some found => ∃ before way after, ways = before ++ way :: after ∧
      (∀ other ∈ before, ∃ core, Replies T e inForce frame d context wanted other ⟨none, core⟩ t) ∧
      ∃ core, Replies T e inForce frame d context wanted way ⟨some found, core⟩ t
  | none => ∃ cores : List (List Nat), Forall₂ (fun way core =>
      Replies T e inForce frame d context wanted way ⟨none, core⟩ t) ways cores ∧
      ∀ i, i ∈ answer.core ↔ i ∈ core ∨ i ∈ cores.flatten

theorem Surveys.cons {rest : List (Option Transition)} {core core' : List Nat}
    (hWay : Replies T e inForce frame d context wanted way ⟨none, core'⟩ t)
    (h : Surveys T e inForce frame d context wanted rest (core ++ core') answer t) :
    Surveys T e inForce frame d context wanted (way :: rest) core answer t := by
  unfold Surveys at h ⊢
  split
  · rename_i found hFound
    rw [hFound] at h
    obtain ⟨before, found, after, rfl, hBefore, hFound⟩ := h
    exact ⟨way :: before, found, after, rfl,
      forall_mem_cons.mpr ⟨⟨core', hWay⟩, hBefore⟩, hFound⟩
  · rename_i hNone
    rw [hNone] at h
    obtain ⟨cores, hCores, hMem⟩ := h
    refine ⟨core' :: cores, .cons hWay hCores, fun i => ?_⟩
    rw [hMem i, mem_append, flatten_cons, mem_append, or_assoc]

/-! ## Ways -/

theorem askWay_ensures (hs : T.Sound s.prover) (hKeys : e.keys.length = 2)
    (hReads : T.Firm → wanted.trace = true → Reads T e) (literals : List (Nat × Term)) :
    (T.onSession false).Ensures
      (askWay e (.predecessor context frame d way) wanted way literals) s fun answer t =>
        Says T e wanted way ⟨.predecessor context frame d way, s.prover.inForce,
          literals.map Prod.snd⟩ literals answer t ∧ s.prover.asked < t.prover.asked := by
  refine (check_ensures hs _ _).bind fun found t hst hFound => ?_
  obtain ⟨hSettles, hHeard⟩ := hFound
  have hAsked : ∀ {u : Session}, T.Proceeds false t u → s.prover.asked < u.prover.asked :=
    fun htu => Nat.lt_of_lt_of_le hHeard.asked (Trust.asked_le htu.prover.events)
  have hTells := hHeard.tells
  cases found with
  | true =>
    obtain ⟨m, hLast⟩ := hSettles
    rw [hLast] at hTells
    refine ensures_ite (fun _ => ?_) fun hFalse => absurd rfl hFalse
    refine ensures_ite (fun hTrace => ?_) fun hTrace => ensures_pure ⟨⟨rfl,
      fun h => absurd h hTrace, ⟨m, hTells⟩, fun _ h => by cases h⟩, hHeard.asked⟩
    have hVouched : Vouched T (Question.predecessor context frame d way).states
        (literals.map Prod.snd) s.prover.InForce m t :=
      ⟨⟨.predecessor context frame d way, s.prover.inForce, literals.map Prod.snd⟩, rfl, rfl,
        fun _ hu => hu, hTells⟩
    have hReadable : T.Firm →
        Reads T e ∧ (Question.predecessor context frame d way).states = e.keys.length :=
      fun hFirm => ⟨hReads hFirm hTrace, hKeys.symm⟩
    refine (minimalTrace_ensures hReadable (hst.sound hs) hLast
      (fun u hu => hst.prover.inForce hu) hVouched).bind fun read u htu hu => ensures_pure
        ⟨⟨rfl, fun _ => Option.some_ne_none _, ⟨m, fun hKept => hTells (htu.kept hKept)⟩, ?_⟩,
          hAsked htu⟩
    rintro trace ⟨⟩
    obtain ⟨m', hRead, hVouched⟩ := hu
    exact ⟨m', read, hRead, rfl, hVouched⟩
  | false =>
    obtain ⟨core, hLast⟩ := hSettles
    rw [hLast] at hTells
    refine ensures_ite (fun hTrue => by cases hTrue) fun _ => ?_
    refine ensures_ite (fun _ => ?_) fun hCore => ensures_pure
      ⟨⟨core, hTells, fun h => absurd h hCore⟩, hHeard.asked⟩
    refine (proving_ensures (Prover.core_ensures hLast)).bind fun terms u htu hTerms =>
      ensures_pure ⟨⟨core, fun hKept => hTells (htu.kept hKept), fun _ => ?_⟩, hAsked htu⟩
    rw [hTerms.1, hHeard.assumptions]

section Ways

variable {s : Session × Generalizer} (h : Askable T e.program frame d) (hKeys : e.keys.length = 2)
  (hReads : T.Firm → wanted.trace = true → Reads T e)

include h hKeys hReads

theorem tryWay_ensures (hs : T.Sound s.1.prover) (hWay : way ∈ ways e.program) :
    (T.onWork Generalizer).Ensures (tryWay e frame d context wanted way) s fun answer t =>
      Replies T e s.1.prover.inForce frame d context wanted way answer t.1 ∧
        t.2.useCores = s.2.useCores ∧ s.1.asked < t.1.asked := by
  refine (inSession_ensures (pose_ensures
    (P := fun literals t => ∃ terms definitions, IsStep e frame d way terms ∧
      AreDefinitions e (range e.keys.length) definitions ∧ literals = terms.literals ∧
      t.prover.inForce = (definitions ++ terms.asserted).reverse :: s.1.prover.inForce)
    (Q := fun answer t => Replies T e s.1.prover.inForce frame d context wanted way answer t ∧
      s.1.prover.asked < t.prover.asked) hs h.checked
    (fun definitions t hAre hForce _ => ?_) fun literals u hsu hu hP => ?_)).bind fun r t _ hr => ?_
  · refine (assertStep_ensures h hWay (hKeys ▸ Nat.lt_succ_self 1)).imp fun literals u _ hu => ?_
    obtain ⟨terms, hIs, hLiterals, scope, scopes, hBefore, hAfter⟩ := hu
    obtain ⟨rfl, rfl⟩ := cons.inj (hForce.symm.trans hBefore)
    exact ⟨terms, definitions, hIs, hAre, hLiterals, by rw [hAfter, reverse_append]⟩
  · obtain ⟨terms, definitions, hIs, hAre, rfl, hForce⟩ := hP
    refine (askWay_ensures hu hKeys hReads _).imp fun answer v _ hv => ?_
    rw [hForce] at hv
    have hReplies : Replies T e s.1.prover.inForce frame d context wanted way answer v :=
      ⟨_, terms, definitions, ⟨hIs, hAre, rfl⟩, hv.1⟩
    have hAsked : s.1.prover.asked < v.prover.asked :=
      Nat.lt_of_le_of_lt (Trust.asked_le ((suffix_cons _ _).trans hsu.prover.events)) hv.2
    exact ⟨hReplies, hAsked⟩
  · refine (update_ensures _).bind fun _ u _ hu => ?_
    refine ensures_liftExcept (fun answer hAnswer => ?_) fun error hError => ?_
    · rw [hu.1, hu.2, hr.2]
      exact ⟨(hr.1.1 answer hAnswer).1, rfl, (hr.1.1 answer hAnswer).2⟩
    · show T.Fails error u.1.prover
      rw [hu.1]
      exact hr.1.2 error hError

theorem tryWays_ensures (hs : T.Sound s.1.prover) (rest : List (Option Transition))
    (hWays : ∀ way ∈ rest, way ∈ ways e.program) (core : List Nat) :
    (T.onWork Generalizer).Ensures (tryWays e frame d context wanted rest core) s fun answer t =>
      Surveys T e s.1.prover.inForce frame d context wanted rest core answer t.1 ∧
        t.2.useCores = s.2.useCores ∧ (rest ≠ [] → s.1.asked < t.1.asked) := by
  induction rest generalizing s core with
  | nil => exact ensures_pure ⟨⟨[], .nil, by simp⟩, rfl, fun h => absurd rfl h⟩
  | cons way rest ih =>
    obtain ⟨hWay, hRest⟩ := forall_mem_cons.mp hWays
    rw [tryWays]
    refine (tryWay_ensures h hKeys hReads hs hWay).bind fun answer t hst ht => ?_
    obtain ⟨hReplies, hCores, hAsked⟩ := ht
    obtain ⟨found, core'⟩ := answer
    cases found with
    | some found =>
      exact ensures_pure ⟨⟨[], way, rest, rfl, fun _ h => (by cases h), core', hReplies⟩, hCores,
        fun _ => hAsked⟩
    | none =>
      refine (ih (hst.sound hs) hRest (core ++ core')).imp fun answer u htu hu => ?_
      rw [hst.prover.inForce_eq] at hu
      exact ⟨.cons (hReplies.mono htu) hu.1, hu.2.1.trans hCores,
        fun _ => Nat.lt_of_lt_of_le hAsked htu.recordedIn.asked_le⟩

end Ways

/-- **A question about predecessors is answered**, unless an answer is not as trusted: by the first
way that leads into the diagram, or with the positions that the cores name. -/
theorem predecessor_ensures {s : Session × Generalizer} (hProgram : s.1.program = p)
    (h : Askable T p frame d)
    (hReads : T.Firm → wanted.trace = true → Reads T ⟨p, s.1.label, stepKeys 2⟩)
    (hs : T.Sound s.1.prover) :
    (T.onWork Generalizer).Ensures (predecessor frame d context wanted) s fun answer t =>
      (∃ core, Surveys T ⟨p, s.1.label, stepKeys 2⟩ s.1.prover.inForce frame d context wanted
          (ways p) [] ⟨answer.predecessor, core⟩ t.1 ∧
        answer.core = (range d.conjuncts.length).filter core.contains) ∧
      t.2.useCores = s.2.useCores ∧ s.1.asked < t.1.asked := by
  subst hProgram
  refine (inSession_ensures (overSteps_ensures fun _ => Nat.two_pos)).bind fun e t hst ht => ?_
  obtain ⟨⟨rfl, hProver⟩, hOwn⟩ := ht
  refine (tryWays_ensures (e := ⟨s.1.program, s.1.label, stepKeys 2⟩) h rfl hReads (hst.sound hs)
    (ways s.1.program) (fun _ h => h) []).bind fun answer u _ hu => ensures_pure ?_
  rw [hProver, hOwn] at hu
  exact ⟨⟨answer.core, hu.1, rfl⟩, hu.2.1,
    Nat.lt_of_le_of_lt hst.recordedIn.asked_le (hu.2.2 (by simp [ways]))⟩

/-! ## What answers say -/

section Meaning

variable {query : Query} {terms : StepTerms} {definitions : List Term} {core : List Nat}

theorem IsStep.forall₂ (h : IsStep e frame d way terms) :
    Forall₂ (fun place literal => literal.1 = place.2) (placed d) terms.literals := by
  rw [← h.places, StepTerms.literals, forall₂_map_left_iff, forall₂_map_right_iff]
  exact forall₂_same.mpr fun _ _ => rfl

theorem IsStep.isEnabled_of_mem_corePositions (h : IsStep e frame d way terms) {named : List Term}
    {i : Nat} (hi : i ∈ corePositions terms.literals named) : d.isEnabled i = true := by
  obtain ⟨literal, hLiteral, rfl⟩ := mem_map.mp hi
  obtain ⟨⟨c, i⟩, hPlace, hEq⟩ := exists_left_of_forall₂ h.forall₂ (mem_filter.mp hLiteral).1
  obtain ⟨hc, hOn⟩ := getElem?_of_mem_placed hPlace
  rw [hEq, isEnabled, hc]
  exact hOn

theorem Replies.granted (h : Replies T e inForce frame d context wanted way ⟨some found, core⟩ t)
    (hKept : T.Kept t.prover.asks) :
    found.transition = wayName way ∧ ∃ query terms definitions m,
      Asks e inForce frame d context way query terms definitions ∧ T.Tells query (.sat m) := by
  obtain ⟨query, terms, definitions, hAsks, hName, -, ⟨m, hTells⟩, -⟩ := h
  exact ⟨hName, query, terms, definitions, m, hAsks, hTells hKept⟩

theorem Replies.denied (h : Replies T e inForce frame d context wanted way ⟨none, core⟩ t)
    (hKept : T.Kept t.prover.asks) :
    ∃ query terms definitions named positions,
      Asks e inForce frame d context way query terms definitions ∧
      T.Tells query (.unsat named) ∧ d.Covers named positions ∧
      (∀ i ∈ positions, d.isEnabled i = true) ∧ (wanted.core = true → core = positions) := by
  obtain ⟨query, terms, definitions, hAsks, named, hTells, hCore⟩ := h
  have hAssumptions : query.assumptions = terms.literals.map Prod.snd := by rw [hAsks.query_eq]
  rw [hAssumptions] at hCore
  exact ⟨query, terms, definitions, named, _, hAsks, hTells hKept,
    covers_corePositions hAsks.step.forall₂ named,
    fun _ hi => hAsks.step.isEnabled_of_mem_corePositions hi, hCore⟩

/-- Verdicts that are as trusted tell that a way does not lead into a diagram, or into what a core
leaves of it, for those that they are asked to judge. That it does lead there matters only where
answers decide. A way that does not lead into a diagram does not lead into one with more literals. -/
structure Judges (T : Trust) (e : Encoding) (frame : Formula)
    (Fit : List (List Term) → Diagram → Prop) (Free : Option Transition → Diagram → Prop) :
    Prop where
  mono : ∀ {way small d}, small.Thins d → Free way small → Free way d
  found : ∀ {way inForce d context query terms definitions m}, T.Firm → Fit inForce d →
    way ∈ ways e.program → Asks e inForce frame d context way query terms definitions →
      T.Tells query (.sat m) → ¬ Free way d
  free : ∀ {way inForce d context query terms definitions core positions} {test : Nat → Bool},
    Fit inForce d → way ∈ ways e.program →
      Asks e inForce frame d context way query terms definitions → T.Tells query (.unsat core) →
        d.Covers core positions → (∀ i ∈ positions, test i = true) → Free way (d.keepWhere test)

variable {Fit : List (List Term) → Diagram → Prop} {Free : Option Transition → Diagram → Prop}
  (hJudges : Judges T e frame Fit Free) (hFit : Fit inForce d)

include hJudges hFit

/-- A way that is not found does not lead into the diagram, nor into what the core leaves of it. -/
theorem Replies.free (h : Replies T e inForce frame d context wanted way ⟨none, core⟩ t)
    (hWay : way ∈ ways e.program) (hKept : T.Kept t.prover.asks) :
    Free way d ∧ (wanted.core = true → (∀ i ∈ core, d.isEnabled i = true) ∧
      ∀ test : Nat → Bool, (∀ i ∈ core, test i = true) → Free way (d.keepWhere test)) := by
  obtain ⟨query, terms, definitions, named, positions, hAsks, hTells, hCovers, hOn, hCore⟩ :=
    h.denied hKept
  refine ⟨?_, fun hWanted => ?_⟩
  · have hFree := hJudges.free hFit hWay hAsks hTells hCovers fun _ _ => rfl
    rwa [keepWhere_true] at hFree
  · rw [hCore hWanted]
    exact ⟨hOn, fun test hTest => hJudges.free hFit hWay hAsks hTells hCovers hTest⟩

/-- **The way that is found is the first one** that leads into the diagram. -/
theorem Surveys.firstWay {core' : List Nat} (hFirm : T.Firm)
    (h : Surveys T e inForce frame d context wanted (ways e.program) core ⟨some found, core'⟩ t)
    (hKept : T.Kept t.prover.asks) :
    ∃ before way after, ways e.program = before ++ way :: after ∧
      found.transition = wayName way ∧ ¬ Free way d ∧ ∀ other ∈ before, Free other d := by
  obtain ⟨before, way, after, hWays, hBefore, core, hWay⟩ := h
  obtain ⟨hName, query, terms, definitions, m, hAsks, hTells⟩ := hWay.granted hKept
  refine ⟨before, way, after, hWays, hName, ?_, fun other hOther => ?_⟩
  · exact hJudges.found hFirm hFit (hWays ▸ mem_append_right _ mem_cons_self) hAsks hTells
  · obtain ⟨core, hReplies⟩ := hBefore other hOther
    exact (hReplies.free hJudges hFit (hWays ▸ mem_append_left _ hOther) hKept).1

/-- **Where no way is found, none leads into the diagram**, nor into what the cores leave of it. -/
theorem Surveys.free
    (h : Surveys T e inForce frame d context wanted (ways e.program) [] ⟨none, core⟩ t)
    (hKept : T.Kept t.prover.asks) :
    (∀ way ∈ ways e.program, Free way d) ∧ (wanted.core = true →
      (∀ i ∈ core, d.isEnabled i = true) ∧ ∀ test : Nat → Bool, (∀ i ∈ core, test i = true) →
        ∀ way ∈ ways e.program, Free way (d.keepWhere test)) := by
  obtain ⟨cores, hCores, hMem⟩ := h
  have hReply : ∀ way ∈ ways e.program, ∃ core' ∈ cores,
      Replies T e inForce frame d context wanted way ⟨none, core'⟩ t :=
    fun way hWay => exists_right_of_forall₂ hCores hWay
  refine ⟨fun way hWay => ?_, fun hWanted => ⟨fun i hi => ?_, fun test hTest way hWay => ?_⟩⟩
  · obtain ⟨core', -, hReplies⟩ := hReply way hWay
    exact (hReplies.free hJudges hFit hWay hKept).1
  · obtain ⟨core', hCore', hi⟩ := mem_flatten.mp (((hMem i).mp hi).resolve_left (by simp))
    obtain ⟨way, hWay, hReplies⟩ := exists_left_of_forall₂ hCores hCore'
    exact ((hReplies.free hJudges hFit hWay hKept).2 hWanted).1 i hi
  · obtain ⟨core', hCore', hReplies⟩ := hReply way hWay
    refine ((hReplies.free hJudges hFit hWay hKept).2 hWanted).2 test fun i hi => hTest i ?_
    exact (hMem i).mpr (.inr (mem_flatten_of_mem hCore' hi))

end Meaning

end Generalizer

end InvariantSearch
