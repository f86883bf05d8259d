import InvariantSearch.Proofs.Search.Approximation

/-!
# Soundness of a search

What a search proves is so. Only verdicts that exclude states count for this: models
may show anything, queries may be interrupted or fail, and the search may be run again
after that.

Main results: `invariant_of_proved` — the predicates of a proof hold initially, are
kept by every transition and imply safety. `course_approximates` — at every point of a
search, frames hold in the states that are reached within their steps, so that no
self-check fails.
-/

namespace InvariantSearch

open Formula List SearchState Generalizer

variable {told : Question → Verdict → Prop} {s : SearchState} {options : SearchOptions}

/-! ## Fixpoints -/

theorem fixpoint?_eq_some {index : Nat} (h : s.fixpoint? = some index) :
    1 ≤ index ∧ ∃ frame next, s.frames[index]? = some frame ∧ s.frames[index + 1]? = some next ∧
      ∀ f ∈ frame, f ∈ next := by
  have hRange := mem_range'_1.mp (mem_of_find?_eq_some h)
  have hSame := find?_some h
  have hFrame : s.frames[index]? = some s.frames[index] := getElem?_eq_getElem (by omega)
  have hNext : s.frames[index + 1]? = some s.frames[index + 1] := getElem?_eq_getElem (by omega)
  refine ⟨hRange.1, _, _, hFrame, hNext, fun f hf => ?_⟩
  rw [hFrame, hNext, sameFrame, Bool.and_eq_true, all_eq_true] at hSame
  exact contains_iff_mem.mp (hSame.2 f hf)

/-! ## Safety -/

namespace Search

variable {p : Program} {D : Domain} {search : Search} {σ : State D}

theorem safety_eq_conj (hNew : Search.new p options = .ok search) :
    search.safety = conj search.chosen := by
  obtain ⟨safety, hSafety, hNew⟩ := bind_eq_ok.mp hNew
  cases hNew
  unfold chosen
  dsimp only
  split
  · -- One by one: the properties are the conjuncts of safety.
    split
    · rfl
    · rename_i hName
      have hName : options.safetyName = "" := by simpa using hName
      rw [Program.safety, hName, if_pos rfl] at hSafety
      split at hSafety
      · cases hSafety
      · exact (Except.ok.inj hSafety).symm
  · rfl

theorem holdsIn_safety (hNew : Search.new p options = .ok search)
    (h : ∀ property ∈ search.chosen, property.HoldsIn σ) : search.safety.HoldsIn σ := by
  rw [safety_eq_conj hNew]
  exact holds_conj.mpr h

theorem Excludes.holdsIn {index : Nat} {property : Formula} (h : Excludes told p s index property)
    (hTrusted : Trusted told p) (hD : D.Inhabits p) (hσ : IsState p σ) {frame : List Formula}
    (hFrame : s.frames[index]? = some frame) (hIn : InFrame p index frame σ) :
    property.HoldsIn σ := by
  obtain ⟨frame', old, core, hFrame', hOld, hTold⟩ := h
  rw [hFrame] at hFrame'
  obtain rfl := Option.some.inj hFrame'
  by_contra hNot
  exact hTrusted _ core rfl hTold ⟨D, hD, σ, hσ,
    holdsIn_frame.mpr ⟨hIn.1, fun f hf => hIn.2 f (hOld f hf)⟩, hNot⟩

/-! ## Frames at every point -/

/-- In every domain with elements of all sorts, the predicates of frames hold initially, each
frame leads into the next one by every transition, and a frame holds in the states that are
reached within its steps. -/
structure OverApproximates (p : Program) (s : SearchState) : Prop where
  initial : ∀ D : Domain, D.Inhabits p → ∀ (i : Nat) (frame : List Formula),
    s.frames[i]? = some frame → ∀ f ∈ frame, ∀ σ : State D, IsInitial p σ → f.HoldsIn σ
  step : ∀ D : Domain, D.Inhabits p → ∀ (i : Nat) (before : Formula) (next : List Formula),
    frameFormula p s i = .ok before → s.frames[i + 1]? = some next → ∀ r ∈ p.transitions,
      ∀ σ τ : State D, IsState p σ → IsState p τ → before.HoldsIn σ → Takes p r σ τ →
        ∀ f ∈ next, f.HoldsIn τ
  reached : ∀ D : Domain, D.Inhabits p → ∀ (i : Nat) (frame : List Formula),
    s.frames[i]? = some frame → ∀ f ∈ frame, ∀ σ : State D, Reachable p i σ → f.HoldsIn σ

/-- All verdicts on questions about the program are right. -/
def AllTruthful (told : Question → Verdict → Prop) (p : Program) : Prop :=
  ∀ q v, q.isDefinite = true → told q v → q.Truthful p v

theorem AllTruthful.trusted (h : AllTruthful told p) : Trusted told p := by
  intro q core hq hTold
  refine h q _ ?_ hTold
  cases q <;> first | rfl | cases hq

theorem overApproximates_of_steps {n : Nat} (h : Steps (Move told p) n .empty s)
    (hNames : (p.symbols.map Symbol.name).Nodup) (hTrusted : Trusted told p) :
    OverApproximates p s := by
  have hShape := h.wellFormed (wellFormed_empty p)
  have hApprox : ∀ D : Domain, D.Inhabits p → Approximates p D s := fun D hD =>
    h.approximates hNames hTrusted hD (wellFormed_empty p) (approximates_empty p D)
  refine ⟨fun D hD i frame hFrame f hf σ hσ => (hApprox D hD).initial i frame hFrame σ hσ f hf,
    fun D hD i before next hBefore hNext r hr σ τ hσ hτ hIn hTakes => ?_,
    fun D hD i frame hFrame f hf σ hσ =>
      (hApprox D hD).holdsIn_of_reachable hShape hσ hFrame f hf⟩
  obtain ⟨frame, hFrame, rfl⟩ := frameFormula_eq_ok hBefore
  exact (hApprox D hD).step i frame next hFrame hNext r hr σ τ hσ hτ hTakes (holdsIn_frame.mp hIn)

/-- **Where frames approximate reachability and verdicts are right, no self-check fails.** -/
theorem isSelfCheck_of_explained {e : Error} {t : Session × Search} (h : Explained e t)
    (hShape : t.2.state.WellFormed t.1.program) (hApprox : OverApproximates t.1.program t.2.state)
    (hTruthful : AllTruthful t.1.Told t.1.program) : e.isSelfCheck = false := by
  cases e with
  | mayEnded => exact h.elim
  | smoke predicate index trace =>
    -- A run into a violation would have a frame's predicate fail within its steps.
    obtain ⟨⟨o, hTop, rfl⟩, hIn, description, m, hTold⟩ := h
    obtain ⟨D, hD, σ, hRun, hConstraints⟩ := hTruthful _ _ rfl hTold
    have hIndex := hShape.stack.frame_lt o (mem_of_getLast? hTop)
    obtain ⟨frame, hFrame, hf⟩ := SearchState.WellFormed.mem_of_frameHas (hIn hIndex)
    have hReached := hRun.reachable o.frame (by simp)
    refine absurd (hApprox.reached D hD o.frame frame hFrame predicate hf _ hReached) ?_
    have hBad := hConstraints o.frame (.not predicate) (by simp [Session.violating])
    exact holds_not.mp hBad
  | notInductive index predicate name trace =>
    obtain ⟨hIn, before, hBefore, r, hr, m, hTold⟩ := h
    obtain ⟨D, hD, σ, τ, hσ, hτ, hBeforeHolds, hTakes, hNot⟩ := hTruthful _ _ rfl hTold
    obtain ⟨next, hNext, hf⟩ := SearchState.WellFormed.mem_of_frameHas hIn
    exact absurd (hApprox.step D hD index before next hBefore hNext r hr σ τ hσ hτ hBeforeHolds
      hTakes predicate hf) hNot
  | _ => rfl

/-! ## A sample

The verdicts on the lamp's queries are right. -/

theorem lamp_declared : lamp.Declared := by
  have hSymbol := Program.Declared.symbol (s := ⟨"broken", .relation [] none, true⟩) .empty rfl
  have hInit := hSymbol.initial (f := ⟨"", .not (.id "broken")⟩) rfl
  have hTransition := hInit.transition (t := ⟨"use", [], .empty, .bool true⟩) rfl
  have hInvariant := hTransition.invariant (i := ⟨⟨"works", .not (.id "broken")⟩, true⟩) rfl
  exact hInvariant.validate rfl

/-- The states in which the lamp is broken, or not. -/
def lampState (D : Domain) (broken : Bool) : State D := fun _ args =>
  .truth (args = [] ∧ broken = true)

theorem isState_lampState (D : Domain) (broken : Bool) : IsState lamp (lampState D broken) where
  fits x hx args := by
    obtain rfl := mem_singleton.mp hx
    cases args with
    | nil => exact ⟨fun _ => rfl, fun h => absurd .nil h⟩
    | cons a args => exact ⟨fun h => (by cases h), fun _ => by simp [lampState]⟩
  axiomatic f hf := absurd hf not_mem_nil
  defined x hx f hf := by
    obtain rfl := mem_singleton.mp hx
    cases hf

theorem holdsIn_broken : (Formula.id "broken").HoldsIn σ ↔ (σ "broken" []).Holds := by
  simp [Formula.HoldsIn, Formula.Holds, Formula.value, Valuation.empty]

theorem holdsIn_lampState {broken : Bool} :
    (Formula.id "broken").HoldsIn (lampState D broken) ↔ broken = true := by
  simp [holdsIn_broken, lampState]

theorem works_lampState (D : Domain) : (Formula.not (.id "broken")).HoldsIn (lampState D false) :=
  holds_not.mpr fun h => by simpa using holdsIn_lampState.mp h

/-- A step into a broken lamp starts from a broken lamp. -/
theorem not_broken_of_goes {way : Option Transition} (hWay : way ∈ ways lamp) {τ : State D}
    (h : Goes lamp way σ τ) (hσ : (Formula.not (.id "broken")).HoldsIn σ) :
    ¬ (Formula.id "broken").HoldsIn τ := by
  have hKept : ∀ mods, mods = NameSet.empty →
      (⟨"broken", .relation [] none, true⟩ : Symbol) ∈ Encoding.kept lamp mods := by
    rintro _ rfl
    decide
  have hSame : σ "broken" = τ "broken" := by
    rcases mem_cons.mp hWay with rfl | hWay
    · exact Stutters.keeps h _ (hKept _ rfl)
    · obtain rfl := mem_singleton.mp hWay
      exact Takes.keeps h _ (hKept _ rfl)
  rw [holdsIn_broken, ← hSame, ← holdsIn_broken]
  exact holds_not.mp hσ

/-- The domain without elements. -/
def noElements : Domain := ⟨Empty, Empty.elim, fun x => x.elim⟩

theorem inhabits_noElements : noElements.Inhabits lamp := by
  simp [Domain.Inhabits, lamp, Program.empty]

/-- The verdicts that are given on the lamp, the last one first. -/
def lampRecord : List (Question × Verdict) :=
  [(.consecution (.not (.id "broken")) (.not (.id "broken")) ⟨"use", [], .empty, .bool true⟩,
      .unsat none),
    (.badState 1 (.not (.id "broken")) (.not (.id "broken")), .unsat none),
    (.predecessor "obligation 0 at frame 1" (.not (.id "broken"))
      ⟨[], [⟨.relation, false, .id "broken"⟩]⟩ none, .sat .empty),
    (.predecessor "obligation 0 at frame 1" (.not (.id "broken"))
      ⟨[], [⟨.relation, true, .id "broken"⟩]⟩ (some ⟨"use", [], .empty, .bool true⟩),
      .unsat none),
    (.predecessor "obligation 0 at frame 1" (.not (.id "broken"))
      ⟨[], [⟨.relation, true, .id "broken"⟩]⟩ none, .unsat none),
    (.badState 1 (.bool true) (.not (.id "broken")), .sat brokenModel),
    (.run "bounded check of (not broken) at depth 0" [some (.not (.not (.id "broken")))] [],
      .unsat none)]

theorem truthful_lampRecord : ∀ entry ∈ lampRecord, entry.1.Truthful lamp entry.2 := by
  rintro ⟨q, v⟩ hIn
  dsimp only
  have hUse : some ⟨"use", [], .empty, .bool true⟩ ∈ ways lamp := by decide
  simp only [lampRecord, mem_cons, Prod.mk.injEq, not_mem_nil, or_false] at hIn
  rcases hIn with ⟨rfl, rfl⟩ | ⟨rfl, rfl⟩ | ⟨rfl, rfl⟩ | ⟨rfl, rfl⟩ | ⟨rfl, rfl⟩ | ⟨rfl, rfl⟩ |
    ⟨rfl, rfl⟩
  · rintro ⟨D, -, σ, τ, -, -, hσ, hTakes, hNot⟩
    exact hNot (holds_not.mpr (not_broken_of_goes hUse hTakes hσ))
  · rintro ⟨D, -, σ, -, hσ, hNot⟩
    exact hNot hσ
  · refine ⟨noElements, inhabits_noElements, lampState _ false, lampState _ false,
      isState_lampState _ _, isState_lampState _ _, works_lampState _, .refl _ _, fun f hf => ?_⟩
    simp [Diagram.coreLiterals, Diagram.enabled] at hf
  · rintro ⟨D, -, σ, τ, -, -, hσ, hGoes, hτ⟩
    exact not_broken_of_goes hUse hGoes hσ (hτ _ (mem_singleton.mpr rfl))
  · rintro ⟨D, -, σ, τ, -, -, hσ, hGoes, hτ⟩
    exact not_broken_of_goes mem_cons_self hGoes hσ (hτ _ (mem_singleton.mpr rfl))
  · refine ⟨noElements, inhabits_noElements, lampState _ true, isState_lampState _ _,
      Formula.holds_bool.mpr rfl, ?_⟩
    exact fun h => Formula.holds_not.mp h (holdsIn_lampState.mpr rfl)
  · rintro ⟨D, -, σ, hRun, hConstraints⟩
    have hBad := hConstraints 0 _ rfl
    exact holds_not.mp hBad hRun.initial

theorem allTruthful_lamp : AllTruthful (Discipline.left (run 5
    (sessionOf lamp lampVerdicts, coreless (.not (.id "broken"))))).1.Told lamp := by
  have hVerdicts : (Discipline.left (run 5
      (sessionOf lamp lampVerdicts, coreless (.not (.id "broken"))))).1.verdicts = lampRecord := by
    decide +kernel
  intro q v _ hTold
  exact truthful_lampRecord (q, v) (hVerdicts ▸ hTold.mem_verdicts)

theorem new_lamp : Search.new lamp { SearchOptions.standard with useCores := false } =
    .ok (coreless (.not (.id "broken"))) := rfl

/-! ## Main results -/

/-- **Soundness.** Whatever models show and however often the search is interrupted, fails and
is run again: when it proves safety and all verdicts that exclude states are right, then the
invariant holds in all initial states, every transition keeps it, and it implies safety. -/
theorem invariant_of_proved {session : Session} (hDeclared : session.program.Declared)
    {options : SearchOptions} {search : Search}
    (hNew : Search.new session.program options = .ok search) {s t : Session × Search}
    (hCourse : Course (session, search) s) {fuel : Nat} {r : SearchResult}
    (hRun : run fuel s = .ok r t) {index : Nat} {invariant : List Formula}
    (hProved : r.conclusion = .proved index invariant)
    (hTrusted : ∀ q core, q.isExclusion = true → t.1.Told q (.unsat core) →
      q.Truthful session.program (.unsat core))
    {D : Domain} (hD : D.Inhabits session.program) :
    (∀ σ : State D, IsInitial session.program σ → (conj invariant).HoldsIn σ) ∧
      (∀ r ∈ session.program.transitions, ∀ σ τ : State D, IsState session.program σ →
        IsState session.program τ → Takes session.program r σ τ →
        (conj invariant).HoldsIn σ → (conj invariant).HoldsIn τ) ∧
      ∀ σ : State D, IsState session.program σ → (conj invariant).HoldsIn σ →
        search.safety.HoldsIn σ := by
  obtain ⟨hFollows, hConcluded⟩ := (run_follows fuel).ok hRun
  have hConcluded := hCourse.follows.concluded hFollows.session.recorded
    (hConcluded (by rw [hProved]; exact fun h => by cases h))
  rw [hProved] at hConcluded
  obtain ⟨_, h, -⟩ | ⟨n, before, index', hSteps, hState, hFixpoint, hConclusion, hExcludes⟩ :=
    hConcluded
  · cases h
  dsimp only at hSteps
  rw [state_of_new hNew] at hSteps
  have hShape := hSteps.wellFormed (SearchState.wellFormed_empty _)
  have hApprox := hSteps.approximates hDeclared.nodup_names hTrusted hD
    (SearchState.wellFormed_empty _) (approximates_empty _ D)
  -- The invariant is a frame above frame 0 that goes on to the next one.
  obtain ⟨hPositive, frame, next, hFrame, hNext, hSubset⟩ := fixpoint?_eq_some hFixpoint
  rw [hFrame] at hConclusion
  obtain ⟨rfl, rfl⟩ := Conclusion.proved.inj hConclusion
  rw [hState] at hFrame hNext
  have hIn : ∀ σ : State D, (conj invariant).HoldsIn σ →
      InFrame session.program index invariant σ :=
    fun σ hσ => ⟨fun hZero => by omega, holds_conj.mp hσ⟩
  refine ⟨fun σ hσ => ?_, fun r hr σ τ hσ hτ hTakes hInv => ?_, fun σ hσ hInv => ?_⟩
  · exact holds_conj.mpr (hApprox.simplify.initial index invariant hFrame σ hσ)
  · refine holds_conj.mpr fun f hf => ?_
    exact hApprox.simplify.step index invariant next hFrame hNext r hr σ τ hσ hτ hTakes (hIn σ hInv) f
      (hSubset f hf)
  · refine holdsIn_safety hNew fun property hProperty => ?_
    have hLength := (List.getElem?_eq_some_iff.mp hNext).1
    rw [SearchState.simplify, length_siftFrames] at hLength
    obtain ⟨old, hOld, -⟩ := sifted hFrame
    have hLast : before.frames[before.frames.length - 2]? =
        some before.frames[before.frames.length - 2] := List.getElem?_eq_getElem (by omega)
    -- Its predicates imply those it had before pruning, and so those of later frames.
    refine (hExcludes property hProperty).holdsIn hTrusted hD hσ hLast
      ⟨fun hZero => by omega, fun f hf => ?_⟩
    exact hApprox.holdsIn_of_simplify hFrame hOld (hIn σ hInv).2 f
      (hShape.subset (by omega) hOld hLast f hf)

/-- The lamp's search proves that it is never broken. -/
theorem invariant_of_proved_lamp :
    (∀ σ : State noElements, IsInitial lamp σ →
        (conj [.not (.id "broken")]).HoldsIn σ) ∧
      (∀ r ∈ lamp.transitions, ∀ σ τ : State noElements, IsState lamp σ → IsState lamp τ →
        Takes lamp r σ τ → (conj [.not (.id "broken")]).HoldsIn σ →
        (conj [.not (.id "broken")]).HoldsIn τ) ∧
      ∀ σ : State noElements, IsState lamp σ → (conj [.not (.id "broken")]).HoldsIn σ →
        (not (.id "broken")).HoldsIn σ := by
  obtain ⟨r, t, hRun, hProved⟩ : ∃ r t,
      run 5 (sessionOf lamp lampVerdicts, coreless (.not (.id "broken"))) = .ok r t ∧
        r.conclusion = .proved 1 [.not (.id "broken")] := by
    decide +kernel
  have hTruthful := allTruthful_lamp
  rw [hRun] at hTruthful
  exact invariant_of_proved lamp_declared new_lamp .fresh hRun hProved hTruthful.trusted
    inhabits_noElements

/-- **Frames approximate reachability at every point of a search**, while all verdicts are
right. The search goes from state to state by moves; `state` is any of the states that it
passes, in the middle of an iteration as well. So no self-check fails in a run. -/
theorem course_approximates {session : Session} (hDeclared : session.program.Declared)
    {options : SearchOptions} {search : Search}
    (hNew : Search.new session.program options = .ok search) {s : Session × Search}
    (hCourse : Course (session, search) s)
    (hTruthful : AllTruthful s.1.Told session.program) :
    (∃ n, Steps (Move s.1.Told session.program) n search.state s.2.state) ∧
      (∀ n k state, Steps (Move s.1.Told session.program) n search.state state →
        Steps (Move s.1.Told session.program) k state s.2.state →
        OverApproximates session.program state) ∧
      ∀ fuel e t, run fuel s = .error e t → AllTruthful t.1.Told session.program →
        e.isSelfCheck = false := by
  rw [state_of_new hNew]
  refine ⟨?_, fun n k state hSteps _ => ?_, fun fuel e t hRun hTruthful' => ?_⟩
  · obtain ⟨n, hSteps, -⟩ := hCourse.follows.moves
    dsimp only at hSteps
    rw [state_of_new hNew] at hSteps
    exact ⟨n, hSteps⟩
  · exact overApproximates_of_steps hSteps hDeclared.nodup_names hTruthful.trusted
  · obtain ⟨hFollows, hExplained⟩ := (run_follows fuel).error hRun
    have hAll := hCourse.follows.trans hFollows
    obtain ⟨n, hSteps, -⟩ := hAll.moves
    dsimp only at hSteps
    rw [state_of_new hNew] at hSteps
    have hProgram : t.1.program = session.program := hAll.session.program
    refine isSelfCheck_of_explained hExplained ?_ ?_ ?_
    · rw [hProgram]
      exact hSteps.wellFormed (SearchState.wellFormed_empty _)
    · rw [hProgram]
      exact overApproximates_of_steps hSteps hDeclared.nodup_names hTruthful'.trusted
    · rw [hProgram]
      exact hTruthful'

/-- At the end of the lamp's search, its three frames approximate reachability. -/
theorem course_approximates_lamp :
    let s := Discipline.left (run 5 (sessionOf lamp lampVerdicts, coreless (.not (.id "broken"))))
    OverApproximates lamp s.2.state ∧ s.2.state.frames =
      [[.not (.id "broken")], [.not (.id "broken")], [.not (.id "broken")]] := by
  intro s
  obtain ⟨⟨n, hSteps⟩, hPoints, -⟩ :=
    course_approximates lamp_declared new_lamp (.run 5 .fresh) allTruthful_lamp
  exact ⟨hPoints n 0 _ hSteps (.refl _), by decide +kernel⟩

end Search

end InvariantSearch
