import InvariantSearch.Proofs.Search.Legs

/-!
# A search is made of legs

The functions of a search are followed here once, for any account of it that is sound.

* `Search.Unwinds` — a counterexample was read off the stack, which is empty afterwards.
* `Search.Refutes` — how a search disproves safety.
* `Search.Established` — what a proof rests on: a frame that equals the next one, and
  verdicts that exclude all violations from a frame that is no earlier.

Main results: `explore_walks` — a search is as the account says, whatever the verdicts are, and
what it concludes is established or refuted.
-/

namespace InvariantSearch

variable {t : Session × Search} {o : Obligation} {p : Program} {index : Nat}
  {property predicate : Formula}

namespace Search

open WorkM

/-! ## Counterexamples -/

section Counterexamples

variable {A : Account} {s : Session × Search}

/-- A search came to a state whose stack ends at frame 0. A counterexample was read off it, and
the stack is empty then. -/
def Unwinds (A : Account) (t : Session × Search) (c : Counterexample) : Prop :=
  ∃ u o, A.At u ∧ u.1.RecordedIn t.1 ∧ u.2.state.obligations.getLast? = some o ∧ o.frame = 0 ∧
    o.may = false ∧ (c.chain, c.transitions) = chainSteps u.2.safety [] u.2.state.chain ∧
    t.2.state = { u.2.state with obligations := [] }

/-- A search disproves safety. A trace that is given was shown by a model, together with all
that was assumed at the beginning. A chain was read off the stack. -/
def Refutes (A : Account) (t : Session × Search) (conclusion : Conclusion) : Prop :=
  ∃ c, conclusion = .disproved c ∧
    (∀ shown, c.trace = some shown → ∃ constraints names f,
      constraints.getLast? = some (some f) ∧ Contradicts f A.first.2.safety ∧
        t.1.Shows A.first.1.program A.first.1.label A.first.1.prover.base constraints names
          shown) ∧
    (c.chain ≠ [] → Unwinds A t c)

theorem Refutes.refuted {conclusion : Conclusion} (h : Refutes A t conclusion) :
    Refuted A.first t.1 conclusion := by
  obtain ⟨c, hConclusion, hTrace, hChain⟩ := h
  refine ⟨c, hConclusion, hTrace, fun hSome => ?_⟩
  obtain ⟨u, o, hu, hRecorded, hTop, hZero, hMust, hSteps, -⟩ := hChain hSome
  rw [hu.1.safety] at hSteps
  exact ⟨u, o, hu.1, hRecorded, hTop, hZero, hMust, congrArg Prod.fst hSteps⟩

variable (hA : A.Sound)

include hA

/-- **A counterexample is read off the stack, which is emptied.** -/
theorem counterexample_walks (hTop : s.2.state.obligations.getLast? = some o) (hZero : o.frame = 0)
    (hMust : o.may = false) :
    Walks true A counterexample s fun ending t =>
      t.2.state.obligations = [] ∧ Refutes A t ending.1 := by
  refine .of_at fun hs => own_walks ?_
  have hSome := List.ne_nil_of_mem (List.mem_of_getLast? hTop)
  have hEnd : ∀ (r : Option Trace × String) (u : Session × Search), s.1.RecordedIn u.1 →
      u.2 = s.2 → (∀ shown, r.1 = some shown → ∃ constraints names g,
        constraints.getLast? = some (some g) ∧ Contradicts g s.2.safety ∧
          u.1.Shows s.1.program s.1.label s.1.prover.base constraints names shown) →
      Walks true A
        (do
          change fun state => { state with obligations := [] }
          return (.disproved ⟨(chainSteps s.2.safety [] s.2.state.chain).1,
            (chainSteps s.2.safety [] s.2.state.chain).2, r.1⟩, r.2))
        u fun (ending : Ending) v => v.2.state.obligations = [] ∧ Refutes A v ending.1 := by
    intro r u hRecorded hOwn hTrace
    rw [← hOwn] at hTop
    have hLeg : Leg A.first u (u.1, { u.2 with state := { u.2.state with obligations := [] } }) :=
      .move (.work (.drop 0)) (Or.inr ⟨List.nil_prefix, o, hTop, hZero⟩) (Or.inl rfl)
    refine (change_walks hA hLeg fun _ => Gains.refl u.2.state).bind fun _ v _ hv => walks_pure ?_
    obtain rfl := hv
    rw [hOwn] at hTop ⊢
    exact ⟨rfl, _, rfl, hs.1.shown hTrace, fun _ =>
      ⟨s, o, hs, hRecorded, hTop, hZero, hMust, rfl, rfl⟩⟩
  refine walks_ite (fun _ => ?_) fun _ => ?_
  · refine (walks_of_errand hA (.concretize hTop) (concretize_rests hSome False.elim)).bind
      fun r u _ hu => ?_
    exact hEnd r u hu.1.session.recorded hu.2.1 hu.2.2
  · exact hEnd (none, _) s (List.suffix_refl _) rfl fun shown hShown => (by cases hShown)

/-! ## Blocking -/

theorem discardMay_walks (hTop : s.2.state.obligations.getLast? = some o) (hZero : o.frame = 0) :
    Walks true A discardMay s fun _ t =>
      ∀ o ∈ t.2.state.obligations, o ∈ s.2.state.obligations := by
  refine (logging_walks hA _).bind fun _ t _ ht => ?_
  rw [← ht] at hTop ⊢
  have hLeg : Leg A.first t (t.1, { t.2 with state := t.2.state.discardChain }) :=
    .move (.work (.drop _)) (Or.inr ⟨List.take_prefix _ _, o, hTop, hZero⟩) (Or.inr (.of_eq rfl))
  refine (change_walks hA hLeg fun _ => Gains.refl t.2.state).bind fun _ u _ hu => ?_
  refine (count_walks hA _).imp fun _ v _ hv o ho => ?_
  rw [hv.2, hu] at ho
  exact List.mem_of_mem_take ho

/-- **The stack is worked off to the end.** Only obligations from violations of safety end a
search, and then by a counterexample. -/
theorem processObligations_walks (fuel : Nat) :
    Walks true A (processObligations fuel) s fun r t =>
      t.2.state.obligations = [] ∧ ∀ ending, r = some ending →
        (¬ ∀ o ∈ s.2.state.obligations, o.may = true) ∧ Refutes A t ending.1 := by
  induction fuel generalizing s with
  | zero => exact walks_outOfFuel hA
  | succ fuel ih =>
    refine own_walks ?_
    -- all later rounds, after one that keeps obligations of the one kind among themselves
    have hNext : ∀ u : Session × Search, ((∀ o ∈ s.2.state.obligations, o.may = true) →
        ∀ o ∈ u.2.state.obligations, o.may = true) →
        Walks true A (processObligations fuel) u fun r v =>
          v.2.state.obligations = [] ∧ ∀ ending, r = some ending →
            (¬ ∀ o ∈ s.2.state.obligations, o.may = true) ∧ Refutes A v ending.1 := by
      intro u hMay
      refine ih.imp fun r v _ hv => ⟨hv.1, fun ending hr => ?_⟩
      exact ⟨fun h => (hv.2 ending hr).1 (hMay h), (hv.2 ending hr).2⟩
    dsimp only
    split
    · rename_i hNone
      exact walks_pure ⟨List.getLast?_eq_none_iff.mp hNone, fun _ h => (by cases h)⟩
    · rename_i o hTop
      refine walks_ite (fun hZero => ?_) fun hFrame => ?_
      · refine walks_ite (fun _ => ?_) fun hMust => ?_
        · exact (discardMay_walks hA hTop hZero).bind fun _ u _ hu =>
            hNext u fun h o' ho' => h o' (hu o' ho')
        · refine (counterexample_walks hA hTop hZero (by simpa using hMust)).bind
            fun ending u _ hu => walks_pure ⟨hu.1, fun _ h => ?_⟩
          obtain rfl := Option.some.inj h
          exact ⟨fun h => hMust (h o (List.mem_of_getLast? hTop)), hu.2⟩
      · exact (processTop_walks hA hTop hFrame).bind fun _ u _ hu => hNext u hu

end Counterexamples

section Violations

variable {A : Account} {s : Session × Search}

theorem Grows.excludes (h : Grows true s t)
    (hExcludes : Excludes s.1.Told p s.2.state index property) :
    Excludes t.1.Told p t.2.state index property :=
  hExcludes.of_gains (h.gains rfl) fun _ _ hTold => hTold.of_recordedIn h.session.recorded

theorem Grows.length (h : Grows true s t) : t.2.state.frames.length = s.2.state.frames.length :=
  (h.gains rfl).1

variable (hA : A.Sound)

include hA

/-- A violation in the last frame is exhibited by a trace, or a verdict says that there is
none. -/
theorem findBadState_walks (hIndex : index + 1 = s.2.state.frames.length)
    (hProperty : property ∈ A.first.2.chosen) :
    Walks true A (findBadState index property) s fun found t => t.2.state = s.2.state ∧
      ∃ formula, frameFormula A.first.1.program s.2.state index = .ok formula ∧
        match found with
        | none => Excludes t.1.Told A.first.1.program s.2.state index property
        | some trace => ∀ f, f = formula ∨ f = .not property → t.1.Pictures A.first.1.program
            A.first.1.label A.first.1.prover.base 1 f none trace := by
  refine .of_at fun hs => ?_
  rw [← hs.1.chosen] at hProperty
  refine (walks_of_errand hA (.badState hIndex hProperty)
    (findBadState_rests index property False.elim)).imp fun found t _ ht => ?_
  obtain ⟨hStill, formula, hFormula, hFound⟩ := ht
  rw [hs.1.session.program] at hFormula hFound
  refine ⟨hStill.state, formula, hFormula, ?_⟩
  obtain ⟨frame, hFrame, rfl⟩ := frameFormula_eq_ok hFormula
  cases found with
  | none =>
    obtain ⟨core, hTold⟩ := hFound
    exact ⟨frame, frame, core, hFrame, fun _ hf => hf, hTold⟩
  | some trace =>
    intro f hf
    have hPictures := hFound f hf
    rw [hs.1.session.label] at hPictures
    exact hPictures.of_recordedIn (List.suffix_refl _) fun _ h => hs.1.session.base.subset h

/-- Where no obligation is left, violations of a property are excluded until a verdict says
that there are none. -/
theorem blockProperty_walks (index : Nat) (fuel : Nat) (hEmpty : s.2.state.obligations = [])
    (hProperty : property ∈ A.first.2.chosen) (hIndex : index + 1 = s.2.state.frames.length) :
    Walks true A (blockProperty index property fuel) s fun r t => t.2.state.obligations = [] ∧
      match r with
      | none => Excludes t.1.Told A.first.1.program t.2.state index property
      | some ending => Refutes A t ending.1 := by
  induction fuel generalizing s with
  | zero => exact walks_outOfFuel hA
  | succ fuel ih =>
    refine (findBadState_walks hA hIndex hProperty).bind fun found t hst ht => ?_
    obtain ⟨hState, formula, hFormula, hFound⟩ := ht
    rw [← hState] at hEmpty hIndex hFormula
    cases found with
    | none => exact walks_pure ⟨hEmpty, hState ▸ hFound⟩
    | some bad =>
      refine (diagramOf_walks hA bad 0).bind fun d u htu hu => ?_
      obtain ⟨hOwn, simplify, hDiagram⟩ := hu
      rw [← hOwn] at hEmpty hIndex hFormula
      have hLeg := Leg.bad hEmpty hIndex hFormula hProperty
        (fun f hf => (hFound f hf).of_recordedIn htu.session.recorded fun _ h => h) hDiagram
      refine (change_walks hA hLeg fun _ => Gains.refl u.2.state).bind fun _ v huv _ => ?_
      refine (count_walks hA _).bind fun _ w hvw _ => (logging_walks hA _).bind fun _ x hwx _ => ?_
      refine (processObligations_walks hA fuel).bind fun r y hxy hy => ?_
      have hLength := (huv.trans (hvw.trans (hwx.trans hxy))).length
      cases r with
      | some ending => exact walks_pure ⟨hy.1, (hy.2 ending rfl).2⟩
      | none => exact ih hy.1 (hIndex.trans hLength.symm)

theorem blockProperties_walks (fuel index : Nat) {properties : List Formula}
    (hEmpty : s.2.state.obligations = [])
    (hChosen : ∀ property ∈ properties, property ∈ A.first.2.chosen)
    (hIndex : index + 1 = s.2.state.frames.length) :
    Walks true A (blockProperties fuel index properties) s fun r t =>
      t.2.state.obligations = [] ∧
        match r with
        | none => ∀ property ∈ properties,
            Excludes t.1.Told A.first.1.program t.2.state index property
        | some ending => Refutes A t ending.1 := by
  induction properties generalizing s with
  | nil => exact walks_pure ⟨hEmpty, by simp⟩
  | cons property properties ih =>
    obtain ⟨hProperty, hRest⟩ := List.forall_mem_cons.mp hChosen
    refine (blockProperty_walks hA index fuel hEmpty hProperty hIndex).bind fun r t hst ht => ?_
    cases r with
    | some ending => exact walks_pure ht
    | none =>
      refine (ih ht.1 hRest (hIndex.trans hst.length.symm)).imp fun r u htu hu => ⟨hu.1, ?_⟩
      cases r with
      | none => exact List.forall_mem_cons.mpr ⟨htu.excludes ht.2, hu.2⟩
      | some ending => exact hu.2

/-- **Blocking ends with a counterexample, or with no violation in the last frame.** -/
theorem blockBadStates_walks (fuel : Nat) (hSome : s.2.state.frames ≠ [])
    (hEmpty : s.2.state.obligations = []) :
    Walks true A (blockBadStates fuel) s fun r t => t.2.state.obligations = [] ∧
      match r with
      | none => ∀ property ∈ A.first.2.chosen, Excludes t.1.Told A.first.1.program t.2.state
          (t.2.state.frames.length - 1) property
      | some ending => Refutes A t ending.1 := by
  refine .of_at fun hs => own_walks ?_
  have hIndex : s.2.state.frames.length - 1 + 1 = s.2.state.frames.length :=
    Nat.sub_add_cancel (List.length_pos_iff.mpr hSome)
  refine (blockProperties_walks hA fuel _ hEmpty
    (fun property (h : property ∈ s.2.chosen) => hs.1.chosen ▸ h) hIndex).imp
      fun r u htu hu => ⟨hu.1, ?_⟩
  cases r with
  | none =>
    rw [htu.length, ← hs.1.chosen]
    exact hu.2
  | some ending => exact hu.2

end Violations

/-! ## Pushing -/

section Pushing

variable {A : Account} {s : Session × Search} (hA : A.Sound)

include hA

theorem pushLeak_walks (hIndex : index + 1 < s.2.state.frames.length)
    (hIn : s.2.state.frameHas index predicate = true) :
    Walks true A (pushLeak predicate index) s fun leak t =>
      t.2 = s.2 ∧ Tried t predicate index leak ∧
        ∀ trace, leak = some trace → Leaks A.first.1 t index trace := by
  refine .of_at fun hs => (walks_of_errand hA (.leak hIndex hIn)
    (pushLeak_rests predicate index False.elim)).imp fun leak t _ ht => ?_
  obtain ⟨hOwn, hTried, hLeaks⟩ := ht.2
  exact ⟨hOwn, hTried, fun trace hTrace => (hLeaks trace hTrace).since hs.1.session⟩

/-- Blocking what keeps a predicate from being pushed never ends a search, since the stack
holds nothing else then. -/
theorem blockLeak_walks (fuel : Nat) {leak : Trace} (hEmpty : s.2.state.obligations = [])
    (hIndex : index + 1 < s.2.state.frames.length) (hIn : s.2.state.frameHas index predicate = true)
    (hLeaks : Leaks A.first.1 s index leak) :
    Walks true A (blockLeak fuel predicate index leak) s fun leak t =>
      t.2.state.obligations = [] ∧ Tried t predicate index leak := by
  obtain ⟨before, hBefore, r, hr, hPictures⟩ := hLeaks
  refine (diagramOf_walks hA leak 1).bind fun d t hst ht => ?_
  obtain ⟨hOwn, simplify, hDiagram⟩ := ht
  rw [← hOwn] at hEmpty hIndex hIn hBefore
  have hLeg := Leg.leak hEmpty hIndex hBefore hr
    (hPictures.of_recordedIn hst.session.recorded fun _ h => h) hDiagram
  refine (change_walks hA hLeg fun _ => Gains.refl t.2.state).bind fun _ u htu hu => ?_
  refine (count_walks hA _).bind fun _ v huv hv => ?_
  refine (processObligations_walks hA fuel).bind fun r w hvw hw => ?_
  have htw := htu.trans (huv.trans hvw)
  cases r with
  | some ending =>
    refine absurd ?_ (hw.2 ending rfl).1
    rw [hv.2, hu]
    intro o ho
    dsimp only [SearchState.pushObligation] at ho
    rw [hEmpty] at ho
    rw [List.mem_singleton.mp ho]
  | none =>
    refine (pushLeak_walks hA (htw.length ▸ hIndex) ((htw.gains rfl).frameHas hIn)).imp
      fun leak x _ hx => ⟨?_, hx.2.1⟩
    rw [hx.1]
    exact hw.1

theorem pushPredicate_walks (fuel : Nat) (hEmpty : s.2.state.obligations = [])
    (hIndex : index + 1 < s.2.state.frames.length) (hIn : s.2.state.frameHas index predicate = true) :
    Walks true A (pushPredicate fuel index predicate) s fun _ t => t.2.state.obligations = [] := by
  refine own_walks ?_
  refine walks_ite (fun _ => walks_pure hEmpty) fun _ => ?_
  refine (count_walks hA _).bind fun _ u _ hu => ?_
  rw [← hu.2] at hEmpty hIndex hIn
  refine (pushLeak_walks hA hIndex hIn).bind fun leak v _ hv => ?_
  obtain ⟨hOwn, hTried, hLeaks⟩ := hv
  rw [← hOwn] at hEmpty hIndex hIn
  -- what follows once all has been tried, with or without blocking
  have hPush : ∀ leak w, w.2.state.obligations = [] → w.2.state.frameHas index predicate = true →
      Tried w predicate index leak → Walks true A
        (do
          if leak.isNone then
            change fun s => s.addToFrame predicate (index + 1)
            count fun s => { s with pushed := s.pushed + 1 }
            logging fun log => log.entry .pushing fun _ =>
              "Pushed to frame " ++ toString (index + 1) ++ ": " ++ predicate.render ++ "\n")
        w fun _ x => x.2.state.obligations = [] := by
    intro leak w hEmpty hIn hTried
    refine walks_ite (fun hLeak => ?_) fun _ => walks_pure hEmpty
    obtain rfl := Option.isNone_iff_eq_none.mp hLeak
    obtain ⟨before, hBefore, hKept⟩ := hTried
    have hLeg : Leg A.first w (w.1, { w.2 with
        state := w.2.state.addToFrame predicate (index + 1) }) :=
      .move (.work (.push hBefore hIn hKept)) (Or.inl rfl) (Or.inl hEmpty)
    refine (change_walks hA hLeg fun _ => gains_addToFrame _ _ _).bind fun _ x _ hx => ?_
    refine (count_walks hA _).bind fun _ y _ hy => (logging_walks hA _).imp fun _ z _ hz => ?_
    rw [hz, hy.2, hx]
    exact hEmpty
  dsimp only
  split
  · rename_i trace
    refine walks_ite (fun _ => ?_) fun _ => hPush _ v hEmpty hIn hTried
    refine (blockLeak_walks hA fuel hEmpty hIndex hIn (hLeaks trace rfl)).bind
      fun leak w hvw hw => ?_
    exact hPush leak w hw.1 ((hvw.gains rfl).frameHas hIn) hw.2
  · exact hPush none v hEmpty hIn hTried

theorem pushFrame_walks (fuel : Nat) (hEmpty : s.2.state.obligations = [])
    (hIndex : index + 1 < s.2.state.frames.length) :
    Walks true A (pushFrame fuel index) s fun _ t => t.2.state.obligations = [] := by
  refine own_walks ?_
  refine walks_forM (I := fun (u : Session × Search) => u.2.state.obligations = []) ?_ hEmpty
  intro predicate hPredicate u htu hu
  refine pushPredicate_walks hA fuel hu (htu.length ▸ hIndex) ((htu.gains rfl).frameHas ?_)
  exact List.contains_iff_mem.mpr hPredicate

/-- **Pushing leaves no obligation.** -/
theorem pushPredicates_walks (fuel : Nat) (hEmpty : s.2.state.obligations = []) :
    Walks true A (pushPredicates fuel) s fun _ t => t.2.state.obligations = [] := by
  refine own_walks ?_
  refine walks_forM (I := fun (u : Session × Search) => u.2.state.obligations = []) ?_ hEmpty
  intro index hRange u htu hu
  refine pushFrame_walks hA fuel hu ?_
  rw [htu.length]
  have hRange := List.mem_range'_1.mp hRange
  omega

end Pushing

/-! ## Iterations -/

section Iterations

variable {A : Account} {s : Session × Search}

/-- What a proof rests on: before predicates were pruned for the last time, verdicts excluded
all violations from the last frame but one, and afterwards a frame equals the next. -/
def Established (s t : Session × Search) (conclusion : Conclusion) : Prop :=
  ∃ n before index, Steps (Move t.1.Told s.1.program) n s.2.state before ∧
    t.2.state = before.simplify ∧ t.2.state.fixpoint? = some index ∧
    conclusion = .proved index ((t.2.state.frames[index]?).getD []) ∧
    ∀ property ∈ s.2.chosen,
      Excludes t.1.Told s.1.program before (before.frames.length - 2) property

theorem excludes_addFrame {told : Question → Verdict → Prop} {state : SearchState}
    (h : Excludes told p state index property) : Excludes told p state.addFrame index property := by
  obtain ⟨frame, old, core, hFrame, hOld, hTold⟩ := h
  refine ⟨frame, old, core, ?_, hOld, hTold⟩
  rw [SearchState.addFrame, List.getElem?_append_left (List.getElem?_eq_some_iff.mp hFrame).1]
  exact hFrame

variable (hA : A.Sound)

include hA

theorem simplify_walks :
    Walks false A simplify s fun _ t => t.1 = s.1 ∧ t.2.state = s.2.state.simplify := by
  refine own_walks ?_
  have hLeg : Leg A.first s (s.1, { s.2 with state := s.2.state.simplify }) :=
    .move .simplify (Or.inl rfl) (Or.inr (noneGained_simplify _))
  refine (change_walks hA (f := fun _ => s.2.state.simplify) hLeg fun h => (by cases h)).bind
    fun _ u _ hu => (count_walks hA _).imp fun _ v _ hv => ?_
  rw [hv.1, hv.2, hu]
  exact ⟨rfl, rfl⟩

theorem openFrames_walks :
    Walks false A openFrames s fun r t =>
      match r with
      | none => t.2.state.frames ≠ []
      | some ending => Refutes A t ending.1 := by
  refine .of_at fun hs => own_walks ?_
  refine walks_ite (fun hNone => ?_) fun hSome =>
    walks_pure fun h => hSome (List.isEmpty_iff.mpr h)
  refine (walks_of_errand hA .violation (inSession_rests
    (Session.findViolation_ensures False.elim))).bind fun found u _ hu => ?_
  obtain ⟨-, hOwn, description, hLooked⟩ := hu
  cases found with
  | some trace =>
    -- an initial state violates safety, and no chain is given
    refine walks_pure ⟨_, rfl, hs.1.shown fun shown hShown => ?_, fun hSome => absurd rfl hSome⟩
    obtain rfl := Option.some.inj hShown
    exact ⟨_, _, .not s.2.safety, by simp [Session.violating], Or.inl rfl, hLooked.2⟩
  | none =>
    have hEmpty : u.2.state.frames = [] := by
      rw [hOwn]
      exact List.isEmpty_iff.mp hNone
    have hLeg : Leg A.first u (u.1, { u.2 with state := u.2.state.addFrame.addFrame }) :=
      .move (.begin hEmpty) (Or.inl rfl)
        (Or.inr ((noneGained_addFrame _).trans (noneGained_addFrame _)))
    refine (change_walks hA hLeg fun h => (by cases h)).bind fun _ v _ hv => walks_pure ?_
    simp [hv, SearchState.addFrame]

theorem strengthen_walks (fuel : Nat) (hSome : s.2.state.frames ≠ [])
    (hEmpty : s.2.state.obligations = [])
    (hExcludes : ∀ property ∈ A.first.2.chosen, Excludes s.1.Told A.first.1.program s.2.state
      (s.2.state.frames.length - 1) property) :
    Walks false A
      (do
        change SearchState.addFrame
        pushPredicates fuel
        simplify
        let state := (← own).state
        logging fun log => log.framedEntry .frames fun _ => state.renderFrames
        match state.fixpoint? with
        | some index =>
          return some (.proved index ((state.frames[index]?).getD []),
            "Frames " ++ toString index ++ " and " ++ toString (index + 1) ++ " are equal")
        | none =>
          writeCheckpoint
          return none)
      s fun (r : Option Ending) t => t.2.state.frames ≠ [] ∧
        ∀ ending, r = some ending → Established A.first t ending.1 := by
  have hLeg : Leg A.first s (s.1, { s.2 with state := s.2.state.addFrame }) :=
    .move (.addFrame hSome) (Or.inl rfl) (Or.inr (noneGained_addFrame _))
  refine (change_walks hA hLeg fun h => (by cases h)).bind fun _ t hst ht => ?_
  have hEmptyT : t.2.state.obligations = [] := by
    rw [ht]
    exact hEmpty
  refine (pushPredicates_walks hA fuel hEmptyT).unsteady.at.bind fun _ u _ hu => ?_
  obtain ⟨hAt, htu, -⟩ := hu
  refine (simplify_walks hA).bind fun _ v huv hv => ?_
  refine own_walks ?_
  have hLength : u.2.state.frames.length = s.2.state.frames.length + 1 := by
    rw [htu.length, ht]
    simp [SearchState.addFrame]
  refine (logging_walks hA _).bind fun _ x hwx hx => ?_
  have hSomeX : x.2.state.frames ≠ [] := by
    rw [hx, hv.2]
    refine List.ne_nil_of_length_pos ?_
    rw [SearchState.simplify, length_siftFrames, hLength]
    exact Nat.succ_pos _
  split
  · rename_i index hIndex
    refine walks_pure ⟨hSomeX, fun ending hEnding => ?_⟩
    obtain rfl := Option.some.inj hEnding
    have hTold : ∀ q v, u.1.Told q v → x.1.Told q v := fun _ _ hTold =>
      hTold.of_recordedIn (huv.trans hwx).session.recorded
    obtain ⟨n, hSteps, -⟩ := hAt.1.moves
    refine ⟨n, u.2.state, index, hSteps.mono fun _ _ _ hMove => hMove.mono hTold, ?_, ?_,
      ?_, fun property hProperty => ?_⟩
    · rw [hx, hv.2]
    · rw [hx]
      exact hIndex
    · rw [hx]
    · have hLast : u.2.state.frames.length - 2 = s.2.state.frames.length - 1 := by omega
      have hExcluded : Excludes t.1.Told A.first.1.program t.2.state
          (s.2.state.frames.length - 1) property := by
        rw [ht]
        exact excludes_addFrame (hExcludes property hProperty)
      rw [hLast]
      exact (htu.excludes hExcluded).of_gains (.refl _) hTold
  · refine (walks_of_errand hA .checkpoint writeCheckpoint_rests).bind
      fun _ y _ hy => walks_pure ⟨?_, fun _ h => (by cases h)⟩
    rw [hy.2]
    exact hSomeX

/-- **An iteration that ends a search refutes safety or establishes it.** -/
theorem iterate_walks (fuel : Nat) (hSome : s.2.state.frames ≠ []) :
    Walks false A (iterate fuel) s fun r t => t.2.state.frames ≠ [] ∧
      ∀ ending, r = some ending → Refutes A t ending.1 ∨ Established A.first t ending.1 := by
  have hLeg : Leg A.first s (s.1, { s.2 with
      state := { s.2.state with iterations := s.2.state.iterations + 1 } }) :=
    .move .iterate (Or.inl rfl) (Or.inr (.of_eq rfl))
  refine (change_walks hA hLeg fun h => (by cases h)).bind fun _ t _ ht => ?_
  refine own_walks (session_walks ?_)
  refine (logging_walks hA _).bind fun _ w _ hw => ?_
  have hSomeW : w.2.state.frames ≠ [] := by
    rw [hw, ht]
    exact hSome
  refine (processObligations_walks hA fuel).unsteady.bind fun r x _ hx => ?_
  obtain ⟨hwx, hEmptyX, hEnds⟩ := hx
  have hSomeX := (hwx.gains rfl).ne_nil hSomeW
  cases r with
  | some ending =>
    refine walks_pure ⟨hSomeX, fun _ hEnding => Or.inl ?_⟩
    obtain rfl := Option.some.inj hEnding
    exact (hEnds ending rfl).2
  | none =>
    refine (blockBadStates_walks hA fuel hSomeX hEmptyX).unsteady.bind fun r y _ hy => ?_
    obtain ⟨hxy, hEmptyY, hBlocked⟩ := hy
    have hSomeY := (hxy.gains rfl).ne_nil hSomeX
    cases r with
    | some ending =>
      refine walks_pure ⟨hSomeY, fun _ hEnding => Or.inl ?_⟩
      obtain rfl := Option.some.inj hEnding
      exact hBlocked
    | none =>
      refine walks_ite (fun _ => ?_) fun _ => ?_
      · refine (walks_of_errand hA .inductiveTrace
          (checkInductiveTrace_rests False.elim)).bind fun _ z hyz hz => ?_
        rw [← hz.2] at hEmptyY hSomeY
        refine (strengthen_walks hA fuel hSomeY hEmptyY fun property hProperty => ?_).imp
          fun r a _ ha => ⟨ha.1, fun ending hEnding => Or.inr (ha.2 ending hEnding)⟩
        rw [hz.2]
        exact (hBlocked property hProperty).of_gains (.refl _) fun _ _ hTold =>
          hTold.of_recordedIn hyz.session.recorded
      · exact (strengthen_walks hA fuel hSomeY hEmptyY hBlocked).imp
          fun r a _ ha => ⟨ha.1, fun ending hEnding => Or.inr (ha.2 ending hEnding)⟩

theorem iterateAll_walks (fuel rounds : Nat) (hSome : s.2.state.frames ≠ []) :
    Walks false A (iterateAll fuel rounds) s fun ending t => ending.1 ≠ .interrupted →
      Refutes A t ending.1 ∨ Established A.first t ending.1 := by
  induction rounds generalizing s with
  | zero => exact walks_outOfFuel hA
  | succ rounds ih =>
    refine session_walks (own_walks ?_)
    split
    · exact walks_pure fun h => absurd rfl h
    · refine (iterate_walks hA fuel hSome).bind fun r v _ hv => ?_
      cases r with
      | some ending => exact walks_pure fun _ => hv.2 ending rfl
      | none => exact ih hv.1

/-- **A search is as a sound account says.** If it ends by itself, it refutes safety or
establishes it. -/
theorem explore_walks (fuel : Nat) :
    Walks false A (explore fuel) s fun ending t => ending.1 ≠ .interrupted →
      Refutes A t ending.1 ∨ Established A.first t ending.1 := by
  refine (openFrames_walks hA).bind fun r t _ ht => ?_
  cases r with
  | some ending => exact walks_pure fun _ => Or.inl ht
  | none => exact iterateAll_walks hA fuel fuel ht

end Iterations

end Search

end InvariantSearch
