import InvariantSearch.Proofs.Search.Counterexample

/-!
# Searches that go on from the state of another one

A search state has the obligations that are left, but it does not say which property
they come from. A search for another property that is restored from it takes over the
root of the stack, and when the stack comes down to frame 0 it reports the chain as a
violation of its own property.

* `Pursued` — a search came to a point, in a session where all that was told is true. It
  may go on from the state of another search, which may have done so itself.
* `Depicts` — a diagram is that of a state which violates a property.
* `Rooted` — the invariant of such searches: the obligation at the bottom of the stack
  depicts a violation of a property of one of them.

Main result: `exists_violation_of_resumed` says what the last condition of a reported
chain is, and which property is violated there. `stale_root_refutes` is a search for a
property that always holds, and that ends with a chain.
-/

namespace InvariantSearch

open List Formula Discipline Session

variable {safety : Formula}

namespace Search

variable {s first t : Session × Search} {past : List Formula} {d : Diagram} {p : Program}

/-! ## Searches one after another -/

/-- A search on a program, whatever was done with it since it is new. -/
inductive Opened (p : Program) : Session × Search → Prop
  | fresh {label : String} {prover : ProverOptions} {script : Script} {heedsInterrupts : Bool}
      {log : Log} {session : Session} {options : SearchOptions} {search : Search}
      (hStart : start p label (.start prover script heedsInterrupts log) = .ok () session)
      (hNew : Search.new p options = .ok search) : Opened p (session, search)
  | course {s t : Session × Search} (h : Opened p s) (hCourse : Course s t) : Opened p t
  | restored {s t : Session × Search} {state : SearchState} (h : Opened p s)
      (hRestore : restore state s = .ok () t) : Opened p t

/-- All verdicts that a session was given are right, and all models are true. -/
structure Honest (p : Program) (s : Session) : Prop where
  truthful : AllTruthful s.Told p
  faithful : s.Faithful

theorem Honest.of_recordedIn {s t : Session} (h : Honest p t) (hst : s.RecordedIn t)
    (hProgram : t.program = s.program) (hLabel : t.label = s.label) : Honest p s := by
  refine ⟨fun q v hq hTold => h.truthful q v hq (hTold.of_recordedIn hst),
    fun query answer m hRecorded hVerdict => ?_⟩
  rw [← hProgram, ← hLabel]
  exact h.faithful query answer m (hst.subset hRecorded) hVerdict

/-- A search came to a point, and all it was told is true. It began with nothing, or went on from
the state of another search. The properties are its own and those of the searches before it. -/
inductive Pursued (p : Program) : List Formula → Session × Search → Prop
  | fresh {first s : Session × Search} (hOpened : Opened p first)
      (hEmpty : first.2.state = .empty) (hCourse : Course first s) (hHonest : Honest p s.1) :
      Pursued p [first.2.safety] s
  | resumed {past : List Formula} {before opened first s : Session × Search}
      (hBefore : Pursued p past before) (hOpened : Opened p opened)
      (hRestore : restore before.2.state opened = .ok () first) (hCourse : Course first s)
      (hHonest : Honest p s.1) : Pursued p (first.2.safety :: past) s

/-! ## What is known of an opened search -/

/-- A search is about the program of its session, which assumes the axioms. -/
structure Sited (p : Program) (s : Session × Search) : Prop where
  program : s.1.program = p
  proper : Session.Proper p
  base : Session.Assumes p s.1.label s.1.prover.base
  sorted : ∀ property ∈ s.2.chosen, p.Sorted .singleState property
  safety : s.2.safety = conj s.2.chosen

theorem Sited.of_continues (h : Sited p s) (hst : s.1.Continues t.1)
    (hChosen : t.2.chosen = s.2.chosen) (hSafety : t.2.safety = s.2.safety) : Sited p t where
  program := hst.program.trans h.program
  proper := h.proper
  base f hf := by
    obtain ⟨u, hu, hEncodes⟩ := h.base f hf
    rw [hst.label]
    exact ⟨u, hst.base.subset hu, hEncodes⟩
  sorted := hChosen ▸ h.sorted
  safety := by rw [hSafety, hChosen, h.safety]

theorem Opened.sited (h : Opened p s) (hDeclared : p.Declared) : Sited p s := by
  induction h with
  | fresh hStart hNew =>
    obtain ⟨hProgram, rfl, hValidated, hBase⟩ := assumes_of_start rfl hStart
    have hProper := proper_of_validated hDeclared hValidated
    exact ⟨hProgram, hProper, hBase, sorted_chosen hProper.checked hNew, safety_eq_conj hNew⟩
  | course _ hCourse ih =>
    exact ih.of_continues hCourse.follows.session hCourse.follows.chosen hCourse.follows.safety
  | restored _ hRestore ih =>
    obtain ⟨hContinues, hOwn⟩ := own_of_restore hRestore
    exact ih.of_continues hContinues (by rw [hOwn]; rfl) (by rw [hOwn])

/-! ## Where roots come from -/

/-- A diagram is that of a state in which a property does not hold. -/
def Depicts (p : Program) (safety : Formula) (d : Diagram) : Prop :=
  ∃ label m trace simplify, Encoding.Reads ⟨p, label, stepKeys 1⟩ m trace ∧
    trace.domain.Inhabits p ∧ IsState p (trace.meaning p 0) ∧
    ¬ safety.HoldsIn (trace.meaning p 0) ∧ Diagram.ofTrace p trace 0 simplify = .ok d

/-- Some state meets the literals of a diagram. -/
def Occurs (p : Program) (d : Diagram) : Prop :=
  ∃ (D : Domain) (t : State D), IsState p t ∧ ExistsOf d.vars (d.Matches t) .empty

theorem Reached.occurs {told : Question → Verdict → Prop} (h : Reached told d)
    (hTruthful : AllTruthful told p) : Occurs p d := by
  obtain ⟨context, states, way, m, hTold⟩ := h
  obtain ⟨D, -, s, t, -, ht, -, -, hMatches⟩ := hTruthful _ _ rfl hTold
  exact ⟨D, t, ht, hMatches⟩

theorem Depicts.exists_state (h : Depicts p safety d) (hProper : Session.Proper p)
    (hOccurs : Occurs p d) :
    ∃ (D : Domain) (σ : State D), D.Inhabits p ∧ IsState p σ ∧ d.toFormula.HoldsIn σ ∧
      ¬ safety.HoldsIn σ := by
  obtain ⟨label, m, trace, simplify, hReads, hInhabits, hState, hNot, hDiagram⟩ := h
  obtain ⟨D, t, ht, hMatches⟩ := hOccurs
  exact ⟨_, _, hInhabits, hState, hReads.holdsIn_diagram hProper.declared.nodup_names
    hProper.checked.symbols (by simp [stepKeys]) hProper.declared.sort_ne_bool hDiagram ht.fits
    hMatches, hNot⟩

theorem Sited.depicts {t : Session} (h : Sited p first) (hContinues : first.1.Continues t)
    (hFaithful : t.Faithful) (hViolates : Violates t first d) : Depicts p first.2.safety d := by
  obtain ⟨property, hProperty, trace, simplify, hPictures, hDiagram⟩ := hViolates
  rw [h.program] at hPictures hDiagram
  obtain ⟨m, needed, hDisplays, hNeeded, hDefines, ⟨u, hu, hEncodes⟩, -⟩ := hPictures.displays
    hFaithful (hContinues.program.trans h.program) hContinues.label h.proper Nat.one_pos
  have hNot := hDisplays.holdsIn h.proper (h.sorted property hProperty).not
    ⟨u, hDisplays.satisfied u hu, hEncodes⟩
  refine ⟨_, m, trace, simplify, hDisplays.reads,
    hDisplays.reads.inhabits hDisplays.complete h.proper.declared.sort_ne_bool,
    hDisplays.isState h.proper h.base hNeeded hDefines Nat.one_pos, fun hSafety => ?_, hDiagram⟩
  rw [h.safety] at hSafety
  exact holds_not.mp hNot (holds_conj.mp hSafety property hProperty)

/-- The obligation at the bottom of a stack was there at the beginning, or is a violation that
was found since. A new one is put into the last frame, which is not frame 0. -/
theorem Sited.root (h : Sited p first) (hShape : first.2.state.WellFormed p)
    (hFollows : Follows first t) (hFaithful : t.1.Faithful) {root : Obligation}
    {above : List Obligation} (hStack : t.2.state.obligations = root :: above)
    (hMust : root.may = false) :
    first.2.state.obligations.head? = some root ∨
      Depicts p first.2.safety root.diagram ∧ root.frame ≠ 0 := by
  refine (hFollows.stack root above hStack hMust).root.imp_right ?_
  rintro ⟨hViolates, n, state, hSteps, hFrame⟩
  refine ⟨h.depicts hFollows.session hFaithful hViolates, fun hZero => ?_⟩
  rw [h.program] at hSteps
  rw [hZero] at hFrame
  exact (Steps.wellFormed hSteps hShape).count hFrame.symm

/-- What holds of the stack of a search and of those it goes on from. The properties are theirs. -/
structure Rooted (p : Program) (past : List Formula) (s : SearchState) : Prop where
  shape : s.WellFormed p
  depicts : ∀ root above, s.obligations = root :: above → root.may = false →
    root.frame ≠ 0 ∧ ∃ safety ∈ past, Depicts p safety root.diagram
  occurs : ∀ root above, s.obligations = root :: above → root.may = false → above ≠ [] →
    Occurs p root.diagram

theorem rooted_empty (p : Program) : Rooted p [] .empty :=
  ⟨SearchState.wellFormed_empty p, fun _ _ h => (by cases h), fun _ _ h => (by cases h)⟩

/-- **Moves keep roots**, where those that are found are violations of the search's own safety. -/
theorem Rooted.follows (h : Rooted p past first.2.state) (hSited : Sited p first)
    (hFollows : Follows first t) (hHonest : Honest p t.1) :
    Rooted p (first.2.safety :: past) t.2.state := by
  obtain ⟨n, hSteps, -⟩ := hFollows.moves
  rw [hSited.program] at hSteps
  refine ⟨Steps.wellFormed hSteps h.shape, fun root above hStack hMust => ?_,
    fun root above hStack hMust hAbove => ?_⟩
  · obtain hHead | ⟨hDepicts, hFrame⟩ :=
      hSited.root h.shape hFollows hHonest.faithful hStack hMust
    · obtain ⟨above', hBefore⟩ := head?_eq_some_iff.mp hHead
      obtain ⟨hFrame, safety, hSafety, hDepicts⟩ := h.depicts root above' hBefore hMust
      exact ⟨hFrame, safety, mem_cons_of_mem _ hSafety, hDepicts⟩
    · exact ⟨hFrame, first.2.safety, mem_cons_self, hDepicts⟩
  · obtain hReached | ⟨above', hBefore, hAbove'⟩ :=
      (hFollows.stack root above hStack hMust).reached hAbove
    · exact hReached.occurs hHonest.truthful
    · exact h.occurs root above' hBefore hMust hAbove'

theorem Rooted.restored {state : SearchState} {opened : Session × Search} (h : Rooted p past state)
    (hRestore : restore state opened = .ok () first) : first.2.state = state := by
  rw [(own_of_restore hRestore).2]
  exact h.shape.normalize_eq

/-- **All searches are rooted**, one after another. -/
theorem Pursued.rooted (h : Pursued p past s) (hDeclared : p.Declared) :
    Rooted p past s.2.state := by
  induction h with
  | fresh hOpened hEmpty hCourse hHonest =>
    refine Rooted.follows ?_ (hOpened.sited hDeclared) hCourse.follows hHonest
    rw [hEmpty]
    exact rooted_empty p
  | resumed _ hOpened hRestore hCourse hHonest ih =>
    refine Rooted.follows ?_ ((hOpened.restored hRestore).sited hDeclared) hCourse.follows hHonest
    rw [ih.restored hRestore]
    exact ih

theorem Rooted.chain {s : SearchState} (h : Rooted p past s) {o : Obligation}
    (hTop : s.obligations.getLast? = some o) (hZero : o.frame = 0) (hMust : o.may = false)
    (safety : Formula) :
    ∃ root above joined, s.obligations = root :: above ∧ root.may = false ∧ above ≠ [] ∧
      (chainSteps safety [] s.chain).1.getLast? =
        some (conj (joined ++ [root.diagram.toFormula, .not safety])) ∧
      ∀ f ∈ joined, ∃ o ∈ above, o.transition = stutterName ∧ f = o.diagram.toFormula := by
  cases hStack : s.obligations with
  | nil =>
    rw [hStack] at hTop
    cases hTop
  | cons root above =>
    have hRoot : root.may = false := by
      rw [← h.shape.stack.may_eq (by rw [hStack]; rfl) o (mem_of_getLast? hTop), hMust]
    have hChain : s.chain.getLast? = some root := by
      rw [h.shape.stack.chain_eq, hStack]
      simp
    obtain ⟨joined, hJoined, hLast⟩ := getLast?_chainSteps safety [] s.chain hChain
    refine ⟨root, above, joined, rfl, hRoot, fun hNil => ?_, hLast, fun f hf => ?_⟩
    · -- alone, the root would be the top, but it is not in frame 0
      rw [hStack, hNil] at hTop
      obtain rfl := Option.some.inj hTop
      exact (h.depicts root above hStack hRoot).1 hZero
    · obtain ⟨o', ho', hStutter, hf⟩ := (hJoined f hf).resolve_left not_mem_nil
      rw [h.shape.stack.chain_eq, mem_reverse, hStack] at ho'
      refine ⟨o', (mem_cons.mp ho').resolve_left fun hSame => ?_, hStutter, hf⟩
      -- nothing leads from the root anywhere
      rw [hSame, (h.shape.stack.root root (by rw [hStack]; rfl)).2.2] at hStutter
      exact absurd hStutter (by decide)

/-- **What a resumed search disproves.** A search, for whichever property, is restored from the
state of another one on the program, which may have been restored itself. All verdicts are right
and all models true. When it disproves safety by its obligations, then the last condition of their
chain is that of the root and the negation of its own safety, to which conditions of obligations
that stutter into the root are joined. There is a state with the root's diagram in which a
property does not hold: the search's own safety, or, if the root was taken over, safety of one
of the searches before it. -/
theorem exists_violation_of_resumed (hDeclared : p.Declared) {past : List Formula}
    {before opened first s t : Session × Search} (hBefore : Pursued p past before)
    (hOpened : Opened p opened) (hRestore : restore before.2.state opened = .ok () first)
    (hCourse : Course first s) {fuel : Nat} {r : SearchResult} (hRun : run fuel s = .ok r t)
    {c : Counterexample} (hDisproved : r.conclusion = .disproved c) (hChain : c.chain ≠ [])
    (hHonest : Honest p t.1) :
    ∃ (root : Obligation) (above : List Obligation) (joined : List Formula),
      c.chain = (chainSteps opened.2.safety [] (root :: above).reverse).1 ∧
      c.chain.getLast? =
        some (conj (joined ++ [root.diagram.toFormula, .not opened.2.safety])) ∧
      (∀ f ∈ joined, ∃ o ∈ above, o.transition = stutterName ∧ f = o.diagram.toFormula) ∧
      ∃ (D : Domain) (σ : State D), D.Inhabits p ∧ IsState p σ ∧ root.diagram.toFormula.HoldsIn σ ∧
        (¬ opened.2.safety.HoldsIn σ ∨
          root ∈ before.2.state.obligations ∧ ∃ safety ∈ past, ¬ safety.HoldsIn σ) := by
  have hSited := (hOpened.restored hRestore).sited hDeclared
  have hRooted := hBefore.rooted hDeclared
  have hState := hRooted.restored hRestore
  have hSafety : first.2.safety = opened.2.safety := by rw [(own_of_restore hRestore).2]
  obtain ⟨hFollows, hConcluded⟩ := (run_follows fuel).ok hRun
  have hConcluded := hCourse.follows.concluded hFollows.session.recorded
    (hConcluded (by rw [hDisproved]; exact fun h => by cases h))
  rw [hDisproved] at hConcluded
  obtain ⟨_, hEq, -, hDescends⟩ | ⟨n, before, index, -, -, -, hConclusion, -⟩ := hConcluded
  · cases hEq
    obtain ⟨u, o, hFollows', hRecorded, hTop, hZero, hMust, hChainSteps⟩ := hDescends hChain
    have hAll := (hCourse.follows.trans hFollows).session
    have hHonest' := hHonest.of_recordedIn hRecorded
      (hAll.program.trans hFollows'.session.program.symm)
      (hAll.label.trans hFollows'.session.label.symm)
    rw [← hState] at hRooted
    have hRooted' := hRooted.follows hSited hFollows' hHonest'
    obtain ⟨root, above, joined, hStack, hRoot, hAbove, hLast, hJoined⟩ :=
      hRooted'.chain hTop hZero hMust first.2.safety
    have hOccurs := hRooted'.occurs root above hStack hRoot hAbove
    rw [← hChainSteps] at hLast
    rw [hRooted'.shape.stack.chain_eq, hStack] at hChainSteps
    rw [← hSafety]
    refine ⟨root, above, joined, hChainSteps, hLast, hJoined, ?_⟩
    obtain hHead | ⟨hDepicts, -⟩ :=
      hSited.root hRooted.shape hFollows' hHonest'.faithful hStack hRoot
    · obtain ⟨above', hOld⟩ := head?_eq_some_iff.mp hHead
      obtain ⟨-, safety, hPast, hDepicts⟩ := hRooted.depicts root above' hOld hRoot
      obtain ⟨D, σ, hD, hσ, hHolds, hNot⟩ := hDepicts.exists_state hSited.proper hOccurs
      rw [hState] at hOld
      exact ⟨D, σ, hD, hσ, hHolds, Or.inr ⟨hOld ▸ mem_cons_self, safety, hPast, hNot⟩⟩
    · obtain ⟨D, σ, hD, hσ, hHolds, hNot⟩ := hDepicts.exists_state hSited.proper hOccurs
      exact ⟨D, σ, hD, hσ, hHolds, Or.inl hNot⟩
  · cases hConclusion

/-! ## A sample -/

/-- The lamp is dropped, and breaks. -/
def drop : Transition := ⟨"drop", [], .ofList ["broken"], .new (.id "broken")⟩

/-- A lamp that breaks when it is dropped. It should work, and it should be there. -/
def fragile : Program :=
  { lamp with
    transitions := [drop]
    invariants := [⟨⟨"works", .not (.id "broken")⟩, true⟩, ⟨⟨"there", .bool true⟩, true⟩] }

theorem fragile_declared : fragile.Declared := by
  have hSymbol := Program.Declared.symbol (s := ⟨"broken", .relation [] none, true⟩) .empty rfl
  have hInit := hSymbol.initial (f := ⟨"", .not (.id "broken")⟩) rfl
  have hTransition := hInit.transition (t := drop) rfl
  have hWorks := hTransition.invariant (i := ⟨⟨"works", .not (.id "broken")⟩, true⟩) rfl
  have hThere := hWorks.invariant (i := ⟨⟨"there", .bool true⟩, true⟩) rfl
  exact hThere.validate rfl

/-- A session about the fragile lamp in which some answers are given in turn. -/
def fragileSession (answers : List Answer) : Session :=
  left
    (start fragile "" (.start .standard ⟨answers, none⟩ true (.new .empty)))

/-- The new search for a property of the fragile lamp. -/
def fragileSearch (name : String) (safety : Formula) : Search :=
  { coreless safety with
    options := { SearchOptions.standard with useCores := false, safetyName := name } }

theorem start_fragile (answers : List Answer) :
    start fragile "" (.start .standard ⟨answers, none⟩ true (.new .empty)) =
      .ok () (fragileSession answers) := rfl

theorem opened_fragile {name : String} (answers : List Answer)
    (hNew : Search.new fragile { SearchOptions.standard with useCores := false, safetyName := name }
      = .ok (fragileSearch name safety)) :
    Opened fragile (fragileSession answers, fragileSearch name safety) :=
  .fresh (start_fragile answers) hNew

theorem isState_fragile (D : Domain) (broken : Bool) : IsState fragile (lampState D broken) :=
  ⟨(isState_lampState D broken).fits, (isState_lampState D broken).axiomatic,
    (isState_lampState D broken).defined⟩

theorem takes_drop (D : Domain) : Takes fragile drop (lampState D false) (lampState D true) where
  shares x hx hImmutable := by
    obtain rfl := mem_singleton.mp hx
    cases hImmutable
  keeps x hx := absurd hx (by decide +revert)
  body := holdsIn_lampState.mpr rfl

/-- The diagram of the broken lamp. -/
def brokenDiagram : Diagram := ⟨[], [⟨.relation, true, .id "broken"⟩]⟩

theorem truthful_stutter (context : String) :
    (Question.predecessor context (.not (.id "broken")) brokenDiagram none).Truthful fragile
      (.unsat none) := by
  rintro ⟨D, -, σ, τ, -, -, hσ, hStutters, hτ⟩
  have hSame := Stutters.same hStutters (x := ⟨"broken", .relation [] none, true⟩)
    (mem_singleton.mpr rfl) rfl
  have hBroken : (Formula.id "broken").HoldsIn τ := hτ _ (mem_singleton.mpr rfl)
  rw [holdsIn_broken, ← hSame, ← holdsIn_broken] at hBroken
  exact holds_not.mp hσ hBroken

theorem truthful_drop (context : String) (m : SolverModel) :
    (Question.predecessor context (.not (.id "broken")) brokenDiagram (some drop)).Truthful fragile
      (.sat m) := by
  refine ⟨noElements, inhabits_noElements, lampState _ false, lampState _ true,
    isState_fragile _ _, isState_fragile _ _, works_lampState _, takes_drop _, fun f hf => ?_⟩
  obtain rfl := mem_singleton.mp hf
  exact holdsIn_lampState.mpr rfl

theorem honest_of_verdicts {s : Session} (hFaithful : s.Faithful)
    (hTrue : ∀ entry ∈ s.verdicts, entry.1.Truthful p entry.2) : Honest p s :=
  ⟨fun q v _ hTold => hTrue (q, v) hTold.mem_verdicts, hFaithful⟩

/-- How a run ended, if it did not fail. -/
def conclusion? (fuel : Nat) (s : Session × Search) : Option Conclusion :=
  match run fuel s with
  | .ok r _ => some r.conclusion
  | .error _ _ => none

theorem exists_result {fuel : Nat} {conclusion : Conclusion}
    (h : conclusion? fuel s = some conclusion) :
    ∃ r, run fuel s = .ok r (left (run fuel s)) ∧ r.conclusion = conclusion := by
  unfold conclusion? at h
  split at h
  · rename_i r t hRun
    exact ⟨r, by rw [hRun]; rfl, Option.some.inj h⟩
  · cases h

/-- The answers in a search that finds a broken lamp, and is interrupted when it asks where that
comes from. -/
def interruptedAnswers : List Answer :=
  [⟨.unsat none, false⟩, ⟨.sat brokenModel, false⟩, ⟨.unknown "interrupted", true⟩]

/-- The search for a lamp that works, where it was interrupted. -/
def interruptedSearch : Session × Search :=
  left (run 9
    (fragileSession interruptedAnswers, fragileSearch "works" (.not (.id "broken"))))

/-- The state in which it was interrupted. The broken lamp is left. -/
def pendingState : SearchState :=
  ⟨[[], []], [], 0, 0, 1, [⟨1, brokenDiagram, "", Obligation.root, false⟩]⟩

theorem interrupted_spec : interruptedSearch.1.Faithful ∧ interruptedSearch.1.verdicts =
      [(.predecessor "obligation 0 at frame 1" (.not (.id "broken")) brokenDiagram none,
          .unknown "interrupted"),
        (.badState 1 (.bool true) (.not (.id "broken")), .sat brokenModel),
        (.run "bounded check of (not broken) at depth 0" [some (.not (.not (.id "broken")))] [],
          .unsat none)] ∧
    interruptedSearch.2.state = pendingState ∧
    conclusion? 9 (fragileSession interruptedAnswers,
      fragileSearch "works" (.not (.id "broken"))) = some .interrupted := by
  decide +kernel

theorem pursued_interrupted : Pursued fragile [.not (.id "broken")] interruptedSearch := by
  refine .fresh (opened_fragile _ rfl) rfl (.run 9 .fresh)
    (honest_of_verdicts interrupted_spec.1 fun entry hEntry => ?_)
  rw [interrupted_spec.2.1] at hEntry
  simp only [mem_cons, not_mem_nil, or_false] at hEntry
  rcases hEntry with rfl | rfl | rfl
  · trivial
  · refine ⟨noElements, inhabits_noElements, lampState _ true, isState_fragile _ _,
      holds_bool.mpr rfl, fun h => ?_⟩
    exact holds_not.mp h (holdsIn_lampState.mpr rfl)
  · rintro ⟨D, -, σ, hRun, hConstraints⟩
    exact holds_not.mp (hConstraints 0 _ rfl) hRun.initial

/-- A model in which the lamp breaks. -/
def breaking : SolverModel :=
  ⟨[], [("s0_broken", ⟨[([], .bool false)], none⟩), ("s1_broken", ⟨[([], .bool true)], none⟩)]⟩

/-- A search that is restored from there. -/
def restoredSearch (answers : List Answer) (name : String) (safety : Formula) : Session × Search :=
  left (restore pendingState (fragileSession answers, fragileSearch name safety))

theorem restore_interrupted (answers : List Answer) (name : String) (safety : Formula) :
    restore interruptedSearch.2.state (fragileSession answers, fragileSearch name safety) =
      .ok () (restoredSearch answers name safety) := by
  rw [interrupted_spec.2.2.1]
  rfl

theorem isRun_drop (D : Domain) :
    IsRun fragile ["drop"] (twoStates (lampState D false) (lampState D true)) where
  states i _ := by cases i <;> exact isState_fragile D _
  initial := holdsIn_initial.mpr fun f hf => by
    obtain rfl := mem_singleton.mp hf
    exact works_lampState D
  steps i name hName := by
    obtain ⟨rfl, rfl⟩ : i = 0 ∧ name = "drop" := by
      cases i with
      | zero => exact ⟨rfl, (Option.some.inj hName).symm⟩
      | succ i => cases hName
    rw [GoesBy, if_neg (by decide), if_neg (by decide)]
    exact ⟨drop, rfl, takes_drop D⟩

/-- The chain of obligations by which the lamp breaks, as a search for some property reports it. -/
def brokenChain (safety : Formula) : List Formula :=
  [.not (.id "broken"), conj [.id "broken", .not safety]]

/-- The answers in a search for a lamp that works: it does not break by itself, but when it is
dropped, and so there is a run. -/
def worksAnswers : List Answer :=
  [⟨.unsat none, false⟩, ⟨.sat breaking, false⟩, ⟨.sat breaking, false⟩]

/-- The counterexample that it ends with. -/
def worksCounterexample : Counterexample :=
  ⟨brokenChain (.not (.id "broken")), ["drop"], some ⟨[], [],
    [[⟨"broken", .relation, [([], "false")]⟩], [⟨"broken", .relation, [([], "true")]⟩]], ["drop"]⟩⟩

theorem works_spec :
    let first := restoredSearch worksAnswers "works" (.not (.id "broken"))
    (left (run 9 first)).1.Faithful ∧ (left (run 9 first)).1.verdicts =
      [(.run "replay of the counterexample chain" [some (.not (.id "broken")),
          some (conj [.id "broken", .not (.not (.id "broken"))])] ["drop"], .sat breaking),
        (.predecessor "obligation 0 at frame 1" (.not (.id "broken")) brokenDiagram (some drop),
          .sat breaking),
        (.predecessor "obligation 0 at frame 1" (.not (.id "broken")) brokenDiagram none,
          .unsat none)] ∧
    conclusion? 9 first = some (.disproved worksCounterexample) := by
  decide +kernel

theorem honest_works : Honest fragile (left
    (run 9 (restoredSearch worksAnswers "works" (.not (.id "broken"))))).1 := by
  refine honest_of_verdicts works_spec.1 fun entry hEntry => ?_
  rw [works_spec.2.1] at hEntry
  simp only [mem_cons, not_mem_nil, or_false] at hEntry
  rcases hEntry with rfl | rfl | rfl
  · refine ⟨noElements, inhabits_noElements, _, isRun_drop _, fun i f hf => ?_⟩
    match i with
    | 0 =>
      obtain rfl := Option.some.inj (Option.some.inj hf)
      exact works_lampState _
    | 1 =>
      obtain rfl := Option.some.inj (Option.some.inj hf)
      have hBroken : (Formula.id "broken").HoldsIn (lampState noElements true) :=
        holdsIn_lampState.mpr rfl
      refine holds_conj.mpr fun f hf => ?_
      rcases mem_pair.mp hf with rfl | rfl
      · exact hBroken
      · exact holds_not.mpr fun h => holds_not.mp h hBroken
  · exact truthful_drop _ _
  · exact truthful_stutter _

/-- A search for a lamp that works goes on, and disproves that. -/
theorem exists_violation_of_resumed_fragile :
    ∃ (root : Obligation) (above : List Obligation) (joined : List Formula),
      brokenChain (.not (.id "broken")) =
        (chainSteps (.not (.id "broken")) [] (root :: above).reverse).1 ∧
      (brokenChain (.not (.id "broken"))).getLast? =
        some (conj (joined ++ [root.diagram.toFormula, .not (.not (.id "broken"))])) ∧
      (∀ f ∈ joined, ∃ o ∈ above, o.transition = stutterName ∧ f = o.diagram.toFormula) ∧
      ∃ (D : Domain) (σ : State D), D.Inhabits fragile ∧ IsState fragile σ ∧
        root.diagram.toFormula.HoldsIn σ ∧
        (¬ (not (.id "broken")).HoldsIn σ ∨ root ∈ interruptedSearch.2.state.obligations ∧
          ∃ safety ∈ [not (.id "broken")], ¬ safety.HoldsIn σ) := by
  obtain ⟨r, hRun, hDisproved⟩ := exists_result works_spec.2.2
  exact exists_violation_of_resumed fragile_declared pursued_interrupted (opened_fragile _ rfl)
    (restore_interrupted _ _ _) .fresh hRun hDisproved (cons_ne_nil _ _) honest_works

/-- The answers in a search for a lamp that is there: it breaks when it is dropped, and it is
there still. -/
def thereAnswers : List Answer :=
  [⟨.unsat none, false⟩, ⟨.sat breaking, false⟩, ⟨.unsat none, false⟩, ⟨.unsat none, false⟩]

theorem not_holdsIn_there {D : Domain} (f : Formula) (σ : State D) :
    ¬ (conj [f, .not (.bool true)]).HoldsIn σ := by
  intro h
  have hNot := holds_conj.mp h (.not (.bool true)) (by simp)
  exact holds_not.mp hNot (holds_bool.mpr rfl)

theorem there_spec :
    let first := restoredSearch thereAnswers "there" (.bool true)
    (left (run 9 first)).1.Faithful ∧ (left (run 9 first)).1.verdicts =
      [(.run "bounded check of true at depth 1" [none, some (.not (.bool true))] [""], .unsat none),
        (.run "replay of the counterexample chain" [some (.not (.id "broken")),
          some (conj [.id "broken", .not (.bool true)])] ["drop"], .unsat none),
        (.predecessor "obligation 0 at frame 1" (.not (.id "broken")) brokenDiagram (some drop),
          .sat breaking),
        (.predecessor "obligation 0 at frame 1" (.not (.id "broken")) brokenDiagram none,
          .unsat none)] ∧
    conclusion? 9 first = some (.disproved ⟨brokenChain (.bool true), ["drop"], none⟩) := by
  decide +kernel

theorem honest_there : Honest fragile (left
    (run 9 (restoredSearch thereAnswers "there" (.bool true)))).1 := by
  refine honest_of_verdicts there_spec.1 fun entry hEntry => ?_
  rw [there_spec.2.1] at hEntry
  simp only [mem_cons, not_mem_nil, or_false] at hEntry
  rcases hEntry with rfl | rfl | rfl | rfl
  · rintro ⟨D, -, σ, -, hConstraints⟩
    exact holds_not.mp (hConstraints 1 _ rfl) (holds_bool.mpr rfl)
  · rintro ⟨D, -, σ, -, hConstraints⟩
    exact not_holdsIn_there _ _ (hConstraints 1 _ rfl)
  · exact truthful_drop _ _
  · exact truthful_stutter _

/-- **A search takes over a root of another property.** A search for a lamp that works is
interrupted. A search for a lamp that is there, which no state can violate, goes on from its
state. All verdicts are right and all models true, and the search ends with a chain whose last
condition holds nowhere. -/
theorem stale_root_refutes :
    ∃ begun r₀ past before opened first r t c, Opened fragile begun ∧ run 9 begun = .ok r₀ before ∧
      r₀.conclusion = .interrupted ∧ Pursued fragile past before ∧ Opened fragile opened ∧
      restore before.2.state opened = .ok () first ∧ run 9 first = .ok r t ∧
      r.conclusion = .disproved c ∧ Honest fragile t.1 ∧
      ∃ last, c.chain.getLast? = some last ∧ ∀ (D : Domain) (σ : State D), ¬ last.HoldsIn σ := by
  obtain ⟨r₀, hBegun, hInterrupted⟩ := exists_result interrupted_spec.2.2.2
  obtain ⟨r, hRun, hDisproved⟩ := exists_result there_spec.2.2
  exact ⟨_, r₀, _, _, _, _, r, _, _, opened_fragile _ rfl, hBegun, hInterrupted,
    pursued_interrupted, opened_fragile _ rfl, restore_interrupted _ _ _, hRun, hDisproved,
    honest_there, _, rfl, fun D σ => not_holdsIn_there _ σ⟩

end Search

end InvariantSearch
