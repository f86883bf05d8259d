import InvariantSearch.Proofs.Search.DiagramNames
import InvariantSearch.Proofs.Search.Shrinking
import InvariantSearch.Proofs.Session.Bounded

/-!
# What a search does, and what it rests on

Whatever a search does to what it knows, it does by moves, and what it returns rests on the
record.

* `Search.following` — the discipline: the session goes on, what the search is about
  stays, and the state changes by moves of a kind. No more states are learned than
  queries are asked. `Search.resting` — nothing that is known changes, and nothing stays
  asserted.
* `Search.Stems` — where the obligation at the bottom of the stack comes from.
* `Search.Explained` — what is known when a self-check fails. `Search.Excused` — an error is not
  due to a misstep: a frame that there is not is asked for, or a formula that cannot be encoded.
* `Search.Footing` — a search makes no misstep from here.
* `Search.Refuted` — what a counterexample rests on.
* `Search.Excludes` — by a verdict that was told, a frame has no violation of a
  property.
* `Search.Tried` — what is known after a predicate was tried to be pushed.

Main results: one account for each query that a search asks.
-/

namespace InvariantSearch

open Discipline Session List SearchState Trust

variable {Sure : Prop} {t : Session × Search} {index : Nat} {o : Obligation}
  {above : List Obligation} {conclusion : Conclusion} {state : SearchState} {f : Formula}

namespace Search

variable {s t : Session × Search} {u : Session × Search} {d : Diagram}

open WorkM

/-! ## Where obligations come from -/

/-- The properties whose violations are looked for. -/
def chosen (s : Search) : List Formula :=
  match s.options.order with
  | .declared => s.properties
  | .deepest => [s.safety]

/-- By the record of a session, a diagram is that of a state which violates a property that a
search looks at. -/
def Violates (t : Session) (s : Session × Search) (d : Diagram) : Prop :=
  ∃ property ∈ s.2.chosen, ∃ trace simplify,
    t.Pictures s.1.program s.1.label s.1.prover.base 1 (.not property) none trace ∧
      Diagram.ofTrace s.1.program trace 0 simplify = .ok d

/-- By a verdict that was told, something leads into a diagram. -/
def Reached (told : Question → Verdict → Prop) (d : Diagram) : Prop :=
  ∃ context states way m, told (.predecessor context states d way) (.sat m)

theorem Reached.mono {told told' : Question → Verdict → Prop} (h : Reached told d)
    (hMono : ∀ q v, told q v → told' q v) : Reached told' d := by
  obtain ⟨context, states, way, m, hTold⟩ := h
  exact ⟨context, states, way, m, hMono _ _ hTold⟩

/-- Where the obligation at the bottom of a stack comes from, with others above it: it was there
before, or it is a violation in the last frame. If it has a predecessor above it, then it had one
before, or a verdict told so. -/
structure Stems (s t : Session × Search) (o : Obligation)
    (above : List Obligation) : Prop where
  root : s.2.state.obligations.head? = some o ∨ Violates t.1 s o.diagram ∧
    ∃ n state, Steps (Move t.1.Told s.1.program) n s.2.state state ∧
      o.frame + 1 = state.frames.length
  reached : above ≠ [] → Reached t.1.Told o.diagram ∨
    ∃ above', s.2.state.obligations = o :: above' ∧ above' ≠ []

/-! ## The discipline of a search -/

/-- A search went from one state to another by moves of a kind. -/
structure Follows (s t : Session × Search) : Prop where
  session : s.1.Continues t.1
  options : t.2.options = s.2.options
  safety : t.2.safety = s.2.safety
  properties : t.2.properties = s.2.properties
  moves : ∃ n, Steps (Move t.1.Told s.1.program) n s.2.state t.2.state ∧
    s.1.asked + n ≤ t.1.asked
  stack : ∀ o above, t.2.state.obligations = o :: above → o.may = false → Stems s t o above

theorem Follows.told (h : Follows s t) (q : Question) (v : Verdict) (hTold : s.1.Told q v) :
    t.1.Told q v :=
  hTold.of_recordedIn h.session.recorded

theorem Follows.chosen (h : Follows s t) : t.2.chosen = s.2.chosen := by
  rw [Search.chosen, h.options, h.properties, h.safety, Search.chosen]

theorem Follows.violates {u : Session} (h : Follows s t) (hViolates : Violates u t d) :
    Violates u s d := by
  obtain ⟨property, hProperty, trace, simplify, hPictures, hDiagram⟩ := hViolates
  rw [h.session.program, h.session.label] at hPictures
  rw [h.session.program] at hDiagram
  rw [h.chosen] at hProperty
  exact ⟨property, hProperty, trace, simplify, hPictures.of_recordedIn (suffix_refl _)
    fun _ ht => h.session.base.subset ht, hDiagram⟩

theorem Violates.of_recordedIn {t u : Session} (h : Violates t s d) (htu : t.RecordedIn u) :
    Violates u s d := by
  obtain ⟨property, hProperty, trace, simplify, hPictures, hDiagram⟩ := h
  exact ⟨property, hProperty, trace, simplify, hPictures.of_recordedIn htu fun _ h => h, hDiagram⟩

theorem Stems.of_recordedIn (h : Stems s t o above) (htu : t.1.RecordedIn u.1) :
    Stems s u o above := by
  have hTold : ∀ q v, t.1.Told q v → u.1.Told q v := fun _ _ hTold => hTold.of_recordedIn htu
  refine ⟨h.root.imp_right ?_, fun hAbove => (h.reached hAbove).imp_left fun h => h.mono hTold⟩
  rintro ⟨hViolates, n, state, hSteps, hFrame⟩
  exact ⟨hViolates.of_recordedIn htu, n, state, hSteps.mono fun _ _ _ hMove => hMove.mono hTold,
    hFrame⟩

theorem Follows.stems (h : Follows s t) (htu : t.1.RecordedIn u.1) (hMay : o.may = false)
    (hStems : Stems t u o above) : Stems s u o above := by
  have hBefore : ∀ above', t.2.state.obligations = o :: above' → Stems s u o above' :=
    fun above' hAbove' => (h.stack o above' hAbove' hMay).of_recordedIn htu
  refine ⟨?_, fun hAbove => ?_⟩
  · rcases hStems.root with hHead | ⟨hViolates, k, state, hSteps, hFrame⟩
    · obtain ⟨above', hAbove'⟩ := head?_eq_some_iff.mp hHead
      exact (hBefore above' hAbove').root
    · obtain ⟨n, hMoves, -⟩ := h.moves
      rw [h.session.program] at hSteps
      refine Or.inr ⟨h.violates hViolates, n + k, state, Steps.trans ?_ hSteps, hFrame⟩
      exact hMoves.mono fun _ _ _ hMove =>
        hMove.mono fun _ _ hTold => hTold.of_recordedIn htu
  · rcases hStems.reached hAbove with hReached | ⟨above', hAbove', hSome⟩
    · exact Or.inl hReached
    · exact (hBefore above' hAbove').reached hSome

theorem Follows.trans (h : Follows s t) (h' : Follows t u) : Follows s u := by
  obtain ⟨n, hSteps, hAsked⟩ := h.moves
  obtain ⟨k, hSteps', hAsked'⟩ := h'.moves
  refine ⟨h.session.trans h'.session, h'.options.trans h.options,
    h'.safety.trans h.safety, h'.properties.trans h.properties, ⟨n + k, ?_, by omega⟩,
    fun o above hStack hMay => h.stems h'.session.recorded hMay (h'.stack o above hStack hMay)⟩
  rw [h.session.program] at hSteps'
  exact (hSteps.mono fun _ _ _ hMove => hMove.mono h'.told).trans hSteps'

theorem stems_of_beginning (h : t.2.state.obligations <+: s.2.state.obligations) :
    ∀ o above, t.2.state.obligations = o :: above → o.may = false → Stems s t o above := by
  rintro o above hStack -
  obtain ⟨rest, hRest⟩ := h
  rw [hStack, cons_append] at hRest
  refine ⟨Or.inl (by rw [← hRest]; rfl), fun hAbove => Or.inr ⟨_, hRest.symm, ?_⟩⟩
  exact append_ne_nil_of_left_ne_nil hAbove rest

/-- A search asks, counts or logs something, and knows what it knew before. -/
structure Still (s t : Session × Search) : Prop where
  session : s.1.Continues t.1
  options : t.2.options = s.2.options
  safety : t.2.safety = s.2.safety
  properties : t.2.properties = s.2.properties
  state : t.2.state = s.2.state
  inForce : t.1.prover.inForce = s.1.prover.inForce

theorem Still.refl (s : Session × Search) : Still s s := ⟨.refl s.1, rfl, rfl, rfl, rfl, rfl⟩

theorem Still.trans (h : Still s t) (h' : Still t u) : Still s u :=
  ⟨h.session.trans h'.session, h'.options.trans h.options, h'.safety.trans h.safety,
    h'.properties.trans h.properties, h'.state.trans h.state, h'.inForce.trans h.inForce⟩

theorem Still.follows (h : Still s t) : Follows s t :=
  ⟨h.session, h.options, h.safety, h.properties,
    ⟨0, h.state ▸ .refl _, h.session.recorded.asked_le⟩,
    stems_of_beginning (h.state ▸ prefix_refl _)⟩

/-- What is known when a self-check fails. No obligation that would disprove nothing ever
ends a search. -/
def Explained : Error → Session × Search → Prop
  | .mayEnded, _ => False
  | .smoke predicate index _, t =>
    (∃ o, t.2.state.obligations.getLast? = some o ∧ o.frame = index) ∧
      (index < t.2.state.frames.length → t.2.state.frameHas index predicate = true) ∧
      ∃ description m, t.1.Told (.run description (violating predicate index)
        (replicate index "")) (.sat m)
  | .notInductive index predicate _ _, t =>
    t.2.state.frameHas (index + 1) predicate = true ∧
      ∃ before, frameFormula t.1.program t.2.state index = .ok before ∧
        ∃ r ∈ t.1.program.transitions, ∃ m, t.1.Told (.consecution before predicate r) (.sat m)
  | _, _ => True

theorem explained_of_isSelfCheck {e : Error} (h : e.isSelfCheck = false) (t : Session × Search) :
    Explained e t := by
  cases e <;> trivial

/-- What the computations of a search keep to. -/
def following : Discipline Error (Session × Search) where
  Leads := Follows
  Fails := Explained
  refl s := (Still.refl s).follows
  trans := Follows.trans

/-- An error is not due to a misstep, unless there are so many frames that a run through them
cannot be counted. -/
def Excused (error : Error) (t : Session × Search) : Prop :=
  error.isMisstep = false ∨
    UInt32.size ≤ t.2.state.frames.length ∧ ∃ states steps, error = .traceQuery states steps

/-- What computations keep to that change nothing. If they are sure of what they ask for then they
make no misstep. -/
def resting (Sure : Prop) : Discipline Error (Session × Search) where
  Leads := Still
  Fails error t := Explained error t ∧ (Sure → Excused error t)
  refl := .refl
  trans := .trans

/-- All that a search asks for is there: its formulas can be encoded, its obligations belong to
frames, and the chain of its top leads through no more states than there are frames. -/
structure Footing (s : Session × Search) : Prop where
  checked : s.1.program.Checked
  safety : s.2.safety.Resolves s.1.program []
  chosen : ∀ property ∈ s.2.chosen, property.Resolves s.1.program []
  predicates : ∀ frame ∈ s.2.state.frames, ∀ f ∈ frame, f.Resolves s.1.program []
  diagrams : ∀ o ∈ s.2.state.obligations, o.diagram.Resolves s.1.program
  frame : ∀ o ∈ s.2.state.obligations, o.frame < s.2.state.frames.length
  transition : ∀ o ∈ s.2.state.obligations, s.1.program.Takes o.transition
  chain : s.2.state.chain.length ≤ s.2.state.frames.length

/-! ## Parts of a search -/

section Parts

variable {s : Session × Search} {α : Type} {Sure : Prop}

theorem follows_of_rests {act : SearchM α} {Q : α → Session × Search → Prop}
    (h : (resting Sure).Ensures act s Q) :
    following.Ensures act s fun a t => Still s t ∧ Q a t :=
  h.change (fun _ _ hStill hQ => ⟨hStill.follows, hStill, hQ⟩)
    fun _ _ hStill hFails => ⟨hStill.follows, hFails.1⟩

/-- So many states has a run through the frames of a search. -/
def span (s : Session × Search) : Nat := max s.2.state.frames.length 1

theorem excused_of_fails {final : List (Query × Option Answer)} {error : Error} {q : Prover}
    (h : (recording final Sure (span s)).Fails error q)
    (hFrames : t.2.state.frames = s.2.state.frames) (hSure : Sure) : Excused error t := by
  cases hMisstep : error.isMisstep with
  | false => exact .inl hMisstep
  | true =>
    obtain ⟨hMany, hQuery⟩ := h.noMisstep hSure hMisstep
    refine .inr ⟨?_, hQuery⟩
    rw [hFrames]
    -- there are more than one
    have hSize : 1 < UInt32.size := by decide
    unfold span at hMany
    omega

/-- What is done in the session changes nothing, as long as the record is what it goes by. -/
theorem inSession_rests {act : SessionM α} {Q : α → Session → Prop}
    (h : ((recording [] Sure (span s)).onSession true).Ensures act s.1 Q) :
    (resting Sure).Ensures (inSession act) s fun a t => t.2 = s.2 ∧ Q a t.1 := by
  unfold Ensures inSession at *
  obtain ⟨session, own⟩ := s
  dsimp only at *
  split at h
  · rename_i a t hRun
    rw [hRun]
    exact ⟨⟨h.1.continues, rfl, rfl, rfl, rfl, h.1.prover.inForce_eq⟩, rfl, h.2⟩
  · rename_i e t hRun
    rw [hRun]
    exact ⟨⟨h.1.continues, rfl, rfl, rfl, rfl, h.1.prover.inForce_eq⟩,
      explained_of_isSelfCheck h.2.noSelfCheck _, excused_of_fails h.2 rfl⟩

theorem inGeneralizer_rests {act : WorkM Generalizer α}
    {Q : List (Query × Option Answer) → α → Session × Generalizer → Prop}
    (h : ∀ final, ((recording final Sure (span s)).onWork Generalizer).Ensures act
      (s.1, s.2.generalizer) (Q final)) :
    (resting Sure).Ensures (inGeneralizer act) s fun a t =>
      Q t.1.prover.asks a (t.1, t.2.generalizer) := by
  unfold Ensures inGeneralizer inPart at *
  dsimp only at *
  cases hRun : act (s.1, s.2.generalizer) with
  | ok a t =>
    have hQ := h t.1.prover.asks
    rw [hRun] at hQ
    exact ⟨⟨hQ.1.continues, rfl, rfl, rfl, rfl, hQ.1.prover.inForce_eq⟩, hQ.2⟩
  | error e t =>
    have hFails := h []
    rw [hRun] at hFails
    exact ⟨⟨hFails.1.continues, rfl, rfl, rfl, rfl, hFails.1.prover.inForce_eq⟩,
      explained_of_isSelfCheck hFails.2.noSelfCheck _, excused_of_fails (s := s) hFails.2 rfl⟩

theorem logging_rests (f : Log → Log) :
    (resting Sure).Ensures (logging f) s fun _ t => t.2 = s.2 :=
  (inSession_rests (Session.logging_ensures f)).imp fun _ _ _ h => h.1

theorem count_rests (f : SearchStats → SearchStats) :
    (resting Sure).Ensures (count f) s fun _ t => t.1 = s.1 :=
  ⟨⟨.refl s.1, rfl, rfl, rfl, rfl, rfl⟩, rfl⟩

theorem change_follows {f : SearchState → SearchState}
    (h : Move s.1.Told s.1.program 0 s.2.state (f s.2.state))
    (hStack : (f s.2.state).obligations <+: s.2.state.obligations) :
    following.Ensures (change f) s fun _ t => t.1 = s.1 ∧ t.2.state = f s.2.state :=
  ⟨⟨.refl s.1, rfl, rfl, rfl, ⟨0, .single h, Nat.le_refl _⟩,
    stems_of_beginning (t := (s.1, { s.2 with state := f s.2.state })) hStack⟩, rfl, rfl⟩

theorem frameFormula_eq_ok {p : Program} (h : frameFormula p state index = .ok f) :
    ∃ frame, state.frames[index]? = some frame ∧
      f = Formula.conj (if index = 0 then p.initial :: frame else frame) := by
  unfold frameFormula at h
  obtain ⟨frame, hFrame, h⟩ := bind_eq_ok.mp h
  unfold Search.frame at hFrame
  split at hFrame
  · rename_i predicates hPredicates
    cases hFrame
    cases h
    exact ⟨_, hPredicates, rfl⟩
  · cases hFrame

theorem Footing.resolves_frameFormula (hs : Footing s)
    (h : frameFormula s.1.program s.2.state index = .ok f) : f.Resolves s.1.program [] := by
  obtain ⟨frame, hFrame, rfl⟩ := frameFormula_eq_ok h
  have hPredicates := hs.predicates frame (mem_of_getElem? hFrame)
  refine Formula.resolves_conj fun g hg => ?_
  split at hg
  · rcases mem_cons.mp hg with rfl | hg
    · exact hs.checked.sorted_initial.resolves (by simp)
    · exact hPredicates g hg
  · exact hPredicates g hg

theorem currentFormula_rests (index : Nat) (hIndex : Sure → index < s.2.state.frames.length) :
    (resting Sure).Ensures (currentFormula index) s fun f t =>
      t = s ∧ frameFormula s.1.program s.2.state index = .ok f := by
  refine ensures_session (ensures_own ?_)
  refine ensures_liftExcept (fun f hf => ⟨rfl, hf⟩) fun e he => ?_
  unfold frameFormula frame at he
  split at he
  · cases he
  · rename_i hNone
    cases he
    refine ⟨explained_of_isSelfCheck rfl _, fun hSure => ?_⟩
    rw [getElem?_eq_getElem (hIndex hSure)] at hNone
    cases hNone

theorem diagramOf_rests (trace : Trace) (index : Nat) :
    (resting Sure).Ensures (diagramOf trace index) s fun d t =>
      t.2 = s.2 ∧ ∃ simplify, Diagram.ofTrace s.1.program trace index simplify = .ok d := by
  refine ensures_own ?_
  exact (inSession_rests (diagram_ensures id trace index _)).imp fun d u _ hu =>
    ⟨hu.1, _, hu.2⟩

end Parts

/-! ## Counterexamples -/

section Counterexamples

/-- A condition that no state with a property meets. -/
def Contradicts (f property : Formula) : Prop :=
  f = .not property ∨ ∃ fs, f = Formula.conj (fs ++ [.not property])

/-- A search came to a state whose stack ends at frame 0, and its obligations give a chain of
conditions into a violation of safety. -/
def Descends (s : Session × Search) (t : Session) (chain : List Formula) : Prop :=
  ∃ u o, Follows s u ∧ u.1.RecordedIn t ∧ u.2.state.obligations.getLast? = some o ∧
    o.frame = 0 ∧ o.may = false ∧ chain = (chainSteps s.2.safety [] u.2.state.chain).1

/-- A search that began in one session ends in another with a counterexample. A trace that is
given was shown by a model, together with all that was assumed at the beginning. A chain comes
from the stack. -/
def Refuted (s : Session × Search) (t : Session) (conclusion : Conclusion) : Prop :=
  ∃ c, conclusion = .disproved c ∧
    (∀ shown, c.trace = some shown → ∃ constraints names f,
      constraints.getLast? = some (some f) ∧ Contradicts f s.2.safety ∧
        t.Shows s.1.program s.1.label s.1.prover.base constraints names shown) ∧
    (c.chain ≠ [] → Descends s t c.chain)

theorem Refuted.of_recordedIn {t u : Session} (h : Refuted s t conclusion) (htu : t.RecordedIn u) :
    Refuted s u conclusion := by
  obtain ⟨c, hConclusion, hTrace, hChain⟩ := h
  refine ⟨c, hConclusion, fun shown hShown => ?_, fun hSome => ?_⟩
  · obtain ⟨constraints, names, f, hLast, hf, hShows⟩ := hTrace shown hShown
    exact ⟨constraints, names, f, hLast, hf, hShows.of_recordedIn htu fun _ h => h⟩
  · obtain ⟨v, o, hFollows, hRecorded, hRest⟩ := hChain hSome
    exact ⟨v, o, hFollows, hRecorded.trans htu, hRest⟩

theorem Follows.shown {u : Session} {trace : Option Trace}
    (h : Follows s t) (hTrace : ∀ shown, trace = some shown → ∃ constraints names f,
      constraints.getLast? = some (some f) ∧ Contradicts f t.2.safety ∧
        u.Shows t.1.program t.1.label t.1.prover.base constraints names shown) :
    ∀ shown, trace = some shown → ∃ constraints names f,
      constraints.getLast? = some (some f) ∧ Contradicts f s.2.safety ∧
        u.Shows s.1.program s.1.label s.1.prover.base constraints names shown := by
  intro shown hShown
  obtain ⟨constraints, names, f, hLast, hf, hShows⟩ := hTrace shown hShown
  rw [h.session.program, h.session.label] at hShows
  rw [h.safety] at hf
  exact ⟨constraints, names, f, hLast, hf,
    hShows.of_recordedIn (suffix_refl _) fun _ ht => h.session.base.subset ht⟩

theorem Follows.refuted {u : Session} (h : Follows s t) (hRefuted : Refuted t u conclusion) :
    Refuted s u conclusion := by
  obtain ⟨c, hConclusion, hTrace, hChain⟩ := hRefuted
  refine ⟨c, hConclusion, h.shown hTrace, fun hSome => ?_⟩
  obtain ⟨v, o, hFollows, hRest⟩ := hChain hSome
  rw [h.safety] at hRest
  exact ⟨v, o, h.trans hFollows, hRest⟩

theorem length_chainSteps (safety : Formula) (pending : List Formula) (chain : List Obligation)
    (hChain : chain ≠ []) :
    (chainSteps safety pending chain).2.length + 1 =
      (chainSteps safety pending chain).1.length := by
  fun_induction chainSteps safety pending chain with
  | case1 => exact absurd rfl hChain
  | case2 => rfl
  | case3 pending o rest hRest condition hStutter ih => exact ih (by simpa using hRest)
  | case4 pending o rest hRest condition hStutter states transitions hSteps ih =>
    rw [hSteps] at ih
    simpa using ih (by simpa using hRest)

/-- The last of the conditions is the root's diagram and the negation of safety. Conditions of
obligations that stutter into it are joined to it. -/
theorem getLast?_chainSteps (safety : Formula) (pending : List Formula)
    (chain : List Obligation) {root : Obligation} (hRoot : chain.getLast? = some root) :
    ∃ joined, (∀ f ∈ joined, f ∈ pending ∨ ∃ o ∈ chain, o.transition = stutterName ∧
        f = o.diagram.toFormula) ∧
      (chainSteps safety pending chain).1.getLast? =
        some (Formula.conj (joined ++ [root.diagram.toFormula, .not safety])) := by
  fun_induction chainSteps safety pending chain with
  | case1 => cases hRoot
  | case2 pending o =>
    obtain rfl := Option.some.inj hRoot
    exact ⟨pending, fun f hf => Or.inl hf, rfl⟩
  | case3 pending o rest hRest condition hStutter ih =>
    rw [getLast?_cons_of_ne_nil (by simpa using hRest)] at hRoot
    obtain ⟨joined, hJoined, hLast⟩ := ih hRoot
    refine ⟨joined, fun f hf => ?_, hLast⟩
    rcases hJoined f hf with hf | ⟨o', ho', hRest⟩
    · refine (mem_append.mp hf).imp_right fun hf => ?_
      exact ⟨o, mem_cons_self, hStutter, mem_singleton.mp hf⟩
    · exact Or.inr ⟨o', mem_cons_of_mem o ho', hRest⟩
  | case4 pending o rest hRest condition hStutter states transitions hSteps ih =>
    rw [getLast?_cons_of_ne_nil (by simpa using hRest)] at hRoot
    rw [hSteps] at ih
    obtain ⟨joined, hJoined, hLast⟩ := ih hRoot
    refine ⟨joined, fun f hf => Or.inr ?_, by rw [getLast?_cons, hLast]; rfl⟩
    obtain hf | ⟨o', ho', hRest⟩ := hJoined f hf
    · cases hf
    · exact ⟨o', mem_cons_of_mem o ho', hRest⟩

theorem mem_lineage (stack : List Obligation) (steps position : Nat) :
    position ∈ lineage stack steps position := by
  unfold lineage
  split
  · exact mem_cons_self
  · split
    · exact mem_cons_self
    · exact mem_cons_self

theorem chain_ne_nil {s : SearchState} (h : s.obligations ≠ []) : s.chain ≠ [] := by
  obtain ⟨top, hTop⟩ := Nat.exists_eq_succ_of_ne_zero (mt length_eq_zero_iff.mp h)
  have hFirst : top ∈ s.topLineage := by
    unfold topLineage
    rw [hTop]
    exact mem_lineage _ _ _
  have hSome : s.obligations[top]? = some (s.obligations[top]) := getElem?_eq_getElem _
  exact ne_nil_of_mem (mem_filterMap.mpr ⟨top, hFirst, hSome⟩)

theorem concretize_ensures {s : Session} {limit : Nat} {safety : Formula} {states : List Formula}
    {transitions : List String} (hLength : transitions.length + 1 = states.length)
    (hLast : states.getLast? = some f) (hf : Contradicts f safety)
    (h : Sure → Traceable s.program (states.map some) transitions ∧ safety.Resolves s.program [] ∧
      states.length ≤ limit) :
    ((recording [] Sure limit).onSession true).Ensures (concretize safety states transitions) s
      fun r t => ∀ shown, r.1 = some shown → ∃ constraints names g,
        constraints.getLast? = some (some g) ∧ Contradicts g safety ∧
          t.Shows s.program s.label s.prover.base constraints names shown := by
  refine (findTrace_records (by simpa using hLength) (fun hSure => ⟨(h hSure).1, ?_⟩) _).bind
    fun found t hst ht => ?_
  · simpa using (h hSure).2.2
  cases found with
  | some trace =>
    refine ensures_pure fun shown hShown => ?_
    obtain rfl := Option.some.inj hShown
    exact ⟨_, transitions, f, by simp [hLast], hf, ht.2⟩
  | none =>
    refine (findViolation_ensures fun hSure => ?_).bind fun found u htu hu => ?_
    · rw [hst.program]
      have hLimit := (h hSure).2.2
      exact ⟨(h hSure).1.checked, (h hSure).2.1, by omega⟩
    obtain ⟨description, hu⟩ := hu
    cases found with
    | none => exact ensures_pure fun shown hShown => by cases hShown
    | some trace =>
      refine ensures_pure fun shown hShown => ?_
      obtain rfl := Option.some.inj hShown
      have hShows := hu.2
      rw [hst.program, hst.label] at hShows
      refine ⟨_, _, .not safety, by simp [violating], Or.inl rfl,
        hShows.of_recordedIn ⟨[], rfl⟩ fun v hv => hst.prover.base.subset hv⟩

end Counterexamples

/-! ## Obligations -/

section Obligations

variable {s : Session × Search}

theorem smokeTest_rests {predicate : Formula} (hTop : s.2.state.obligations.getLast? = some o)
    (hIn : o.frame < s.2.state.frames.length → s.2.state.frameHas o.frame predicate = true)
    (h : Sure → s.1.program.Checked ∧ predicate.Resolves s.1.program [] ∧ o.frame <
      s.2.state.frames.length) :
    (resting Sure).Ensures (smokeTest predicate o.frame) s fun _ _ => True := by
  refine (count_rests _).bind fun _ t hst ht => ?_
  refine (inSession_rests (findViolation_ensures fun hSure => ?_)).bind fun found u htu hu => ?_
  · obtain ⟨hChecked, hPredicate, hFrame⟩ := h hSure
    rw [ht]
    refine ⟨hChecked, hPredicate, Nat.lt_of_lt_of_le hFrame ?_⟩
    rw [span, hst.state]
    exact Nat.le_max_left _ _
  have hState := (hst.trans htu).state
  obtain ⟨-, description, hLooked⟩ := hu
  cases found with
  | none => exact ensures_pure trivial
  | some trace =>
    obtain ⟨⟨m, hTold⟩, -⟩ := hLooked
    refine ensures_throw ⟨⟨⟨o, ?_, rfl⟩, ?_, description, m, hTold⟩, fun _ => .inl rfl⟩
    · rw [hState]
      exact hTop
    · rw [hState]
      exact hIn

theorem frameHas_learn (f : Formula) (h : index < state.frames.length) :
    (state.learn f index).frameHas index f = true := by
  unfold SearchState.frameHas SearchState.learn
  rw [getElem?_mapIdx, getElem?_eq_getElem h]
  simp [mem_insertNew]

/-- A predecessor of the top goes on top, and says nothing new about the bottom unless that is
the top itself. -/
theorem stems_of_push {top : Obligation}
    (hTop : s.2.state.obligations.getLast? = some top) (hReached : Reached t.1.Told top.diagram)
    (hPush : t.2.state = s.2.state.pushObligation o) :
    ∀ root above, t.2.state.obligations = root :: above → root.may = false →
      Stems s t root above := by
  rintro root above hStack -
  rw [hPush, pushObligation] at hStack
  cases hOld : s.2.state.obligations with
  | nil => simp [hOld] at hTop
  | cons first rest =>
    rw [hOld, cons_append] at hStack
    obtain ⟨rfl, rfl⟩ := cons.inj hStack
    refine ⟨Or.inl (by rw [hOld]; rfl), fun _ => ?_⟩
    cases rest with
    | nil =>
      obtain rfl : first = top := by simpa [hOld] using hTop
      exact Or.inl hReached
    | cons second rest => exact Or.inr ⟨_, hOld, by simp⟩

end Obligations

/-! ## Violations of safety -/

section Violations

variable {s : Session × Search}

/-- By a verdict that was told, a frame has no violation of a property. The verdict may be
about fewer predicates than the frame has now. -/
def Excludes (told : Question → Verdict → Prop) (p : Program) (state : SearchState) (index : Nat)
    (property : Formula) : Prop :=
  ∃ frame old core, state.frames[index]? = some frame ∧ (∀ f ∈ old, f ∈ frame) ∧
    told (.badState index (Formula.conj (if index = 0 then p.initial :: old else old)) property)
      (.unsat core)

theorem Excludes.of_gains {told told' : Question → Verdict → Prop} {p : Program}
    {state' : SearchState} {property : Formula} (h : Excludes told p state index property)
    (hGains : Gains state state') (hMono : ∀ q v, told q v → told' q v) :
    Excludes told' p state' index property := by
  obtain ⟨frame, old, core, hFrame, hOld, hTold⟩ := h
  obtain ⟨more, hMore, hSubset⟩ := hGains.2 index frame hFrame
  exact ⟨more, old, core, hMore, fun f hf => hSubset f (hOld f hf), hMono _ _ hTold⟩

/-- A trace that is found in a frame pictures the condition of the frame and the violation, or
else a verdict says that there is none. -/
theorem findBadState_rests (index : Nat) (property : Formula)
    (h : Sure → Footing s ∧ index < s.2.state.frames.length ∧ property.Resolves s.1.program []) :
    (resting Sure).Ensures (findBadState index property) s fun found t =>
      ∃ formula, frameFormula s.1.program s.2.state index = .ok formula ∧
        match found with
        | none => ∃ core, t.1.Told (.badState index formula property) (.unsat core)
        | some trace => ∀ f, f = formula ∨ f = .not property →
            t.1.Pictures s.1.program s.1.label s.1.prover.base 1 f none trace := by
  refine (inSession_rests (overSteps_ensures fun _ => Nat.one_pos)).bind fun e t hst ht => ?_
  obtain ⟨hOwn, rfl, hProver⟩ := ht
  refine (currentFormula_rests index fun hSure => by
    rw [hOwn]; exact (h hSure).2.1).bind fun formula u _ hu => ?_
  obtain ⟨rfl, hFormula⟩ := hu
  rw [hst.session.program, hOwn] at hFormula
  have hChecked : Sure → s.1.program.Checked := fun hSure => (h hSure).1.checked
  have hResolves : ∀ f, f = formula ∨ f = .not property → Sure → f.Resolves s.1.program [] := by
    intro f hf hSure
    obtain ⟨hs, -, hProperty⟩ := h hSure
    rcases hf with rfl | rfl
    · exact hs.resolves_frameFormula hFormula
    · exact .not hProperty
  let e : Encoding := ⟨s.1.program, s.1.label, stepKeys 1⟩
  have hTotal : ∀ f, f = formula ∨ f = .not property → Sure → Encoding.Total (e.encode f 0 []) :=
    fun f hf hSure => Encoding.total_encode (hChecked hSure) (hResolves f hf hSure) Nat.one_pos
  -- The terms that are asserted, and what comes of them.
  refine (inSession_rests (ensures_recording fun final => pose_ensures
    (P := fun (_ : Unit) w => ∃ ts states bad, AreDefinitions e (range 1) ts ∧
      Encodes e formula 0 states ∧ Encodes e (.not property) 0 bad ∧
      w.prover.inForce = (ts ++ [states, bad]).reverse :: u.1.prover.inForce)
    (Q := fun found w => ∃ ts states bad, AreDefinitions e (range 1) ts ∧
      Encodes e formula 0 states ∧ Encodes e (.not property) 0 bad ∧
      Settled (.recording final Sure (span u)) ⟨.badState index formula property,
        (ts ++ [states, bad]).reverse :: u.1.prover.inForce, []⟩ e found w)
    (e := e) (sound_recording final Sure (span u) _) hChecked (fun ts v hAre hForce _ => ?_)
    fun _ v _ hv hP => ?_)).bind fun r v huv hv => ?_
  · refine (encode_ensures (hTotal _ (.inl rfl))).bind fun states w _ hw => ?_
    refine (assert_ensures states).bind fun _ x _ hx => ?_
    refine (encode_ensures (hTotal _ (.inr rfl))).bind fun bad y _ hy => ?_
    refine (assert_ensures bad).imp fun _ z _ hz => ⟨ts, states, bad, hAre, hw.encodes, hy.encodes, ?_⟩
    obtain ⟨scope, scopes, hBefore, hAfter⟩ :=
      (hx.2.after hw.inForce).trans (hz.2.after hy.inForce)
    obtain ⟨rfl, rfl⟩ := cons.inj (hForce.symm.trans hBefore)
    simp [hAfter]
  · obtain ⟨ts, states, bad, hAre, hStates, hBad, hForce⟩ := hP
    refine (settle_ensures hv False.elim).imp fun found w _ hw => ?_
    rw [hForce] at hw
    exact ⟨ts, states, bad, hAre, hStates, hBad, hw⟩
  · refine (count_rests _).bind fun _ w hvw hw => ?_
    refine ensures_liftExcept (fun found hFound => ⟨formula, hFormula, ?_⟩) fun error hError => ?_
    · obtain ⟨ts, states, bad, hAre, hStates, hBad, hSettled⟩ := hv.2.1 found hFound
      rw [hw]
      cases found with
      | none => exact hSettled.sought
      | some trace =>
        intro f hf
        refine hSettled.pictures (fun u hu => ?_) (hAre.defines rfl fun u hu => ?_) ?_
          fun _ hNone => by cases hNone
        · rw [hProver]
          exact mem_append_right _ (Prover.mem_inForce_of_mem_base hu)
        · simp [hu]
        · rcases hf with rfl | rfl
          · exact ⟨states, by simp, hStates⟩
          · exact ⟨bad, by simp, hBad⟩
    · have hFails := hv.2.2 error hError
      exact ⟨explained_of_isSelfCheck hFails.noSelfCheck _,
        excused_of_fails hFails (by rw [(huv.trans hvw).state])⟩

end Violations

/-! ## Pushing, checks and checkpoints -/

section Pushing

variable {s : Session × Search}

/-- What is known after a predicate of a frame was tried to be pushed: a trace keeps it from
that, or a verdict for each transition says that none does. -/
def Tried (t : Session × Search) (predicate : Formula) (index : Nat) (leak : Option Trace) : Prop :=
  ∃ before, frameFormula t.1.program t.2.state index = .ok before ∧
    match leak with
    | none => ∀ r ∈ t.1.program.transitions, ∃ core,
        t.1.Told (.consecution before predicate r) (.unsat core)
    | some trace => trace.Fits t.1.program

/-- A trace shows how a transition leads out of what is known to be kept. -/
def Leaks (first : Session) (s : Session × Search) (index : Nat) (trace : Trace) : Prop :=
  ∃ before, frameFormula first.program s.2.state index = .ok before ∧
    ∃ r ∈ first.program.transitions,
      s.1.Pictures first.program first.label first.prover.base 2 before (some r) trace

theorem Leaks.since {first later : Session} {trace : Trace} (h : Leaks later s index trace)
    (hFirst : first.Continues later) : Leaks first s index trace := by
  obtain ⟨before, hBefore, r, hr, hPictures⟩ := h
  rw [hFirst.program] at hBefore hr hPictures
  rw [hFirst.label] at hPictures
  exact ⟨before, hBefore, r, hr, hPictures.of_recordedIn (suffix_refl _)
    fun _ ht => hFirst.base.subset ht⟩

theorem findLeak_ensures {s : Session} {limit : Nat} {assumption predicate : Formula}
    {rs : List Transition}
    (h : Sure → s.program.Checked ∧ assumption.Resolves s.program [] ∧ predicate.Resolves s.program
      [] ∧ ∀ r ∈ rs, r ∈ s.program.transitions) :
    ((recording [] Sure limit).onSession true).Ensures (findLeak assumption predicate rs) s
      fun leak t => match leak with
      | none => ∀ r ∈ rs, ∃ core, t.Told (.consecution assumption predicate r) (.unsat core)
      | some trace => ∃ r ∈ rs,
          t.Pictures s.program s.label s.prover.base 2 assumption (some r) trace := by
  induction rs generalizing s with
  | nil => exact ensures_pure (by simp)
  | cons r rs ih =>
    refine (violatesConsecution_records fun hSure => ?_).bind fun found t hst ht => ?_
    · obtain ⟨hChecked, hAssumption, hPredicate, hrs⟩ := h hSure
      exact ⟨hChecked, hAssumption, hPredicate, hrs r mem_cons_self⟩
    cases found with
    | some trace => exact ensures_pure ⟨r, mem_cons_self, ht.2 trace rfl⟩
    | none =>
      refine (ih fun hSure => ?_).imp fun leak u htu hu => ?_
      · rw [hst.program]
        obtain ⟨hChecked, hAssumption, hPredicate, hrs⟩ := h hSure
        exact ⟨hChecked, hAssumption, hPredicate, fun r' hr' => hrs r' (mem_cons_of_mem r hr')⟩
      cases leak with
      | none =>
        obtain ⟨core, hTold⟩ := ht.1
        exact forall_mem_cons.mpr ⟨⟨core, hTold.of_recordedIn htu.recordedIn⟩, hu⟩
      | some trace =>
        obtain ⟨r', hr', hPictures⟩ := hu
        rw [hst.program, hst.label] at hPictures
        exact ⟨r', mem_cons_of_mem r hr', hPictures.of_recordedIn (suffix_refl _)
          fun _ ht => hst.prover.base.subset ht⟩

theorem pushLeak_rests (predicate : Formula) (index : Nat)
    (h : Sure → Footing s ∧ index < s.2.state.frames.length ∧ predicate.Resolves s.1.program []) :
    (resting Sure).Ensures (pushLeak predicate index) s fun leak t =>
      t.2 = s.2 ∧ Tried t predicate index leak ∧
        ∀ trace, leak = some trace → Leaks s.1 t index trace := by
  refine (currentFormula_rests index fun hSure => (h hSure).2.1).bind fun before t _ ht => ?_
  obtain ⟨rfl, hBefore⟩ := ht
  refine ensures_session ?_
  refine (inSession_rests (findLeak_ensures fun hSure => ?_)).imp fun leak v huv hv => ?_
  · obtain ⟨hs, -, hPredicate⟩ := h hSure
    exact ⟨hs.checked, hs.resolves_frameFormula hBefore, hPredicate, fun _ hr => hr⟩
  obtain ⟨hOwn, hLeak⟩ := hv
  rw [← hOwn] at hBefore
  refine ⟨hOwn, ⟨before, ?_, ?_⟩, fun trace hTrace => ?_⟩
  · rw [huv.session.program]
    exact hBefore
  · rw [huv.session.program]
    cases leak with
    | none => exact hLeak
    | some trace =>
      obtain ⟨r, -, hPictures⟩ := hLeak
      exact hPictures.fits
  · subst hTrace
    exact ⟨before, hBefore, hLeak⟩

theorem Footing.resolves_frameHas (hs : Footing s) (hf : s.2.state.frameHas index f = true) :
    f.Resolves s.1.program [] := by
  unfold frameHas at hf
  cases hFrame : s.2.state.frames[index]? with
  | none => simp [hFrame] at hf
  | some frame =>
    rw [hFrame] at hf
    exact hs.predicates frame (mem_of_getElem? hFrame) f (contains_iff_mem.mp hf)

theorem checkInductiveTrace_rests (h : Sure → Footing s) :
    (resting Sure).Ensures checkInductiveTrace s fun _ t => t.2 = s.2 := by
  refine ensures_own (ensures_session ?_)
  refine ensures_forM (I := fun (v : Session × Search) => v.2 = s.2) ?_ rfl
  intro index hIndex v huv hv
  refine (currentFormula_rests index fun _ => ?_).bind fun before w _ hw => ?_
  · rw [hv]
    have hRange := mem_range.mp hIndex
    omega
  obtain ⟨rfl, hBefore⟩ := hw
  refine ensures_forM (I := fun (x : Session × Search) => x.2 = s.2) ?_ hv
  intro predicate hPredicate x hwx hx
  have hHas : s.2.state.frameHas (index + 1) predicate = true := contains_iff_mem.mpr hPredicate
  refine ensures_forM (I := fun (y : Session × Search) => y.2 = s.2) ?_ hx
  intro r hr y hxy hy
  have hProgram : y.1.program = s.1.program := ((huv.trans hwx).trans hxy).session.program
  have hFormula : frameFormula s.1.program s.2.state index = .ok before := by
    rw [← hv, ← huv.session.program]
    exact hBefore
  refine (inSession_rests (violatesConsecution_records fun hSure => ?_)).bind fun found z hyz hz => ?_
  · have hs := h hSure
    rw [hProgram]
    exact ⟨hs.checked, hs.resolves_frameFormula hFormula, hs.resolves_frameHas hHas, hr⟩
  have hState : z.2 = s.2 := hz.1.trans hy
  cases found with
  | none => exact ensures_pure hState
  | some trace =>
    obtain ⟨-, m, hTold⟩ := hz.2.1
    refine ensures_throw ⟨⟨?_, before, ?_, r, ?_, m, hTold⟩, fun _ => .inl rfl⟩
    · rw [hState]
      exact hHas
    · rw [hyz.session.program, hProgram, hState]
      exact hFormula
    · rw [hyz.session.program, hProgram]
      exact hr

theorem writeCheckpoint_rests : (resting Sure).Ensures writeCheckpoint s fun _ t => t.2 = s.2 := by
  refine ensures_own ?_
  refine ensures_ite (fun _ => ensures_pure rfl) fun _ => ?_
  refine ensures_session ?_
  refine (inSession_rests (proving_ensures
    (Prover.onDisk_ensures (fun _ => rfl) (fun _ => rfl) id _))).bind fun _ v _ hv => ?_
  exact (logging_rests _).imp fun _ w _ hw => hw.trans hv.1

end Pushing

end Search

end InvariantSearch
