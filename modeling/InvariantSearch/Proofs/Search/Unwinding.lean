import InvariantSearch.Proofs.Search.Resumption

/-!
# Counterexamples that are read off the stack

When an obligation from a violation of safety comes down to frame 0, the stack is a chain of
diagrams, one for each frame from there up to the root. The search gives it as conditions on the
states of a run and the transitions between them. A stutter is no step of that run, so diagrams
that it leads to and from are conditions on one state.

* `Search.Raised` — the root of the stack is above frame 0.
* `Search.LeftBy` — some obligations of a chain are about one state, which a transition leaves.

Main result: `shape_of_disproved` says what becomes of the chain, whatever the verdicts are.
-/

namespace InvariantSearch

open List

variable {p : Program} {frames : Nat} {stack : List Obligation}

namespace Search

/-! ## Roots -/

section Roots

variable {s t : Session × Search}

/-- The root of the stack is above frame 0. -/
def Raised (s : SearchState) : Prop := ∀ o, s.obligations.head? = some o → 1 ≤ o.frame

/-- A violation is put into the last frame, which is not the only one, and a leak into one that
comes after another. -/
theorem Leg.raised {first : Session × Search} (h : Leg first s t)
    (hShape : s.2.state.WellFormed first.1.program) (hRaised : Raised s.2.state) :
    Raised t.2.state := by
  cases h with
  | quiet hErrand hDone => exact (hErrand.still.ok hDone).1.state ▸ hRaised
  | move hMove hStack hKept =>
    intro o ho
    obtain hSame | ⟨⟨rest, hRest⟩, -⟩ := hStack
    · exact hRaised o (hSame ▸ ho)
    · refine hRaised o ?_
      rw [← hRest, head?_append, ho]
      rfl
  | bad hEmpty hLast =>
    intro o ho
    have hCount := hShape.count
    dsimp only [SearchState.pushObligation] at ho
    rw [hEmpty] at ho
    cases ho
    dsimp only
    omega
  | leak hEmpty =>
    intro o ho
    dsimp only [SearchState.pushObligation] at ho
    rw [hEmpty] at ho
    cases ho
    exact Nat.le_add_left _ _
  | @work top _ hTop hFrame hDone =>
    intro o ho
    cases ((processTop_still hTop).ok hDone).2 with
    | pushed _ _ _ _ _ h =>
      rw [h.state, SearchState.pushObligation, head?_append_of_ne_nil _
        (ne_nil_of_mem (mem_of_getLast? hTop))] at ho
      exact hRaised o ho
    | discharged _ _ _ _ h =>
      rw [h.state] at ho
      refine hRaised o ?_
      obtain ⟨rest, hRest⟩ := head?_eq_some_iff.mp ho
      obtain ⟨tail, hTail⟩ := dropLast_prefix (l := s.2.state.obligations)
      dsimp only [SearchState.popObligation, SearchState.learn] at hRest
      rw [← hTail, hRest]
      rfl

theorem Follows.wellFormed (h : Follows s t)
    (hShape : s.2.state.WellFormed s.1.program) : t.2.state.WellFormed s.1.program := by
  obtain ⟨n, hSteps, -⟩ := h.moves
  exact hSteps.wellFormed hShape

/-- The account of a search whose root stays above frame 0. -/
def rooted (first : Session × Search) : Account :=
  ⟨first, fun s => Raised s.2.state, fun _ _ => True⟩

theorem rooted_sound (hShape : s.2.state.WellFormed s.1.program) : (rooted s).Sound where
  leg hAt hLeg := hLeg.raised (hAt.1.wellFormed hShape) hAt.2
  errand _ _ _ := trivial
  work _ _ _ _ := trivial
  outOfFuel _ := trivial

/-- **A chain that disproves safety was read off the stack**, and its root was above frame 0. -/
theorem unwinds_of_run {fuel : Nat} {r : SearchResult} {c : Counterexample}
    (hShape : s.2.state.WellFormed s.1.program) (hRaised : Raised s.2.state)
    (hRun : run fuel s = .ok r t) (hDisproved : r.conclusion = .disproved c)
    (hChain : c.chain ≠ []) : Unwinds (rooted s) t c := by
  obtain ⟨ending, u, hExplore, hEnding⟩ := conclusion_run hRun (by rw [hDisproved]; simp)
  have hStill := run_still fuel s
  rw [hExplore, hRun] at hStill
  obtain ⟨-, -, hEnds⟩ := (explore_walks (rooted_sound hShape) fuel
    ⟨following.refl s, hRaised⟩).ok hExplore
  rw [← hEnding, hDisproved] at hEnds
  rcases hEnds (by simp) with ⟨c', hEq, -, hUnwinds⟩ | ⟨_, _, _, _, _, _, hProved, -⟩
  · obtain rfl := Conclusion.disproved.inj hEq
    obtain ⟨v, o, hAt, hRecorded, hTop, hZero, hMust, hSteps, hEnd⟩ := hUnwinds hChain
    exact ⟨v, o, hAt, hRecorded.trans hStill.session.recorded, hTop, hZero, hMust, hSteps,
      hStill.state.trans hEnd⟩
  · cases hProved

end Roots

/-! ## Chains -/

section Chains

/-- Some obligations of a chain are about one state, which a transition leaves. -/
def LeftBy (block : List Obligation) (name : String) : Prop :=
  ∃ joined o, block = joined ++ [o] ∧ o.transition = name ∧ name ≠ stutterName ∧
    ∀ o' ∈ joined, o'.transition = stutterName

/-- The diagrams of some obligations, as conditions. -/
def conditions (os : List Obligation) : List Formula := os.map fun o => o.diagram.toFormula

theorem chainSteps_cons (safety : Formula) (pending : List Formula) (o o' : Obligation)
    (rest : List Obligation) :
    chainSteps safety pending (o :: o' :: rest) =
      if o.transition = stutterName then
        chainSteps safety (pending ++ [o.diagram.toFormula]) (o' :: rest)
      else
        (Formula.conj (pending ++ [o.diagram.toFormula]) ::
          (chainSteps safety [] (o' :: rest)).1,
        o.transition :: (chainSteps safety [] (o' :: rest)).2) := by
  rw [chainSteps]
  simp

theorem transitions_chainSteps (safety : Formula) (pending : List Formula)
    (chain : List Obligation) :
    (chainSteps safety pending chain).2 =
      (chain.dropLast.map Obligation.transition).filter fun name => name ≠ stutterName := by
  fun_induction chainSteps safety pending chain with
  | case1 => rfl
  | case2 => rfl
  | case3 pending o rest hRest condition hStutter ih =>
    rw [dropLast_cons_of_ne_nil (by simpa using hRest), map_cons, filter_cons, ih]
    simp [hStutter]
  | case4 pending o rest hRest condition hStutter states transitions hSteps ih =>
    rw [hSteps] at ih
    rw [dropLast_cons_of_ne_nil (by simpa using hRest), map_cons, filter_cons, ← ih]
    simp [hStutter]

/-- **A chain is cut into blocks where its transitions leave a state.** Each block gives one
condition, and negated safety goes to the last one. -/
theorem exists_blocks (safety : Formula) {chain : List Obligation} (hChain : chain ≠ [])
    (pending : List Obligation) (hPending : ∀ o ∈ pending, o.transition = stutterName) :
    ∃ blocks last, blocks.flatten ++ last = pending ++ chain ∧ last ≠ [] ∧
      Forall₂ LeftBy blocks (chainSteps safety (conditions pending) chain).2 ∧
      (chainSteps safety (conditions pending) chain).1 =
        blocks.map (fun block => Formula.conj (conditions block)) ++
          [Formula.conj (conditions last ++ [.not safety])] := by
  -- by induction on the chain, with the obligations of the state that is being described
  induction chain generalizing pending with
  | nil => exact absurd rfl hChain
  | cons o chain ih =>
    cases chain with
    | nil =>
      refine ⟨[], pending ++ [o], rfl, by simp, .nil, ?_⟩
      simp [chainSteps, conditions]
    | cons o' rest =>
      have hJoined : conditions pending ++ [o.diagram.toFormula] = conditions (pending ++ [o]) := by
        simp [conditions]
      rw [chainSteps_cons, hJoined]
      by_cases hStutter : o.transition = stutterName
      · rw [if_pos hStutter]
        obtain ⟨blocks, last, hCut, hRest⟩ := ih (by simp) (pending ++ [o])
          (forall_mem_append.mpr ⟨hPending, forall_mem_singleton.mpr hStutter⟩)
        exact ⟨blocks, last, by rw [hCut, append_assoc]; rfl, hRest⟩
      · rw [if_neg hStutter]
        obtain ⟨blocks, last, hCut, hLast, hLeft, hConditions⟩ :=
          ih (by simp) [] (by simp)
        rw [show conditions [] = [] from rfl] at hLeft hConditions
        refine ⟨(pending ++ [o]) :: blocks, last, ?_, hLast,
          .cons ⟨pending, o, rfl, rfl, hStutter, hPending⟩ hLeft, by rw [hConditions]; rfl⟩
        rw [flatten_cons, append_assoc, hCut, nil_append, append_assoc]
        rfl

theorem frame_of_chain (h : Chained p frames stack) {top : Obligation}
    (hTop : stack.getLast? = some top) :
    ∀ (k : Nat) (o : Obligation), stack.reverse[k]? = some o → o.frame = top.frame + k := by
  intro k
  induction k with
  | zero =>
    intro o ho
    rw [← head?_eq_getElem?, head?_reverse, hTop] at ho
    rw [← Option.some.inj ho, Nat.add_zero]
  | succ k ih =>
    intro o ho
    have hk : k + 1 < stack.length := by simpa using (List.getElem?_eq_some_iff.mp ho).1
    rw [List.getElem?_reverse hk] at ho
    -- the one above it on the stack is the one before it in the chain
    obtain ⟨above, hAbove⟩ : ∃ above, stack[stack.length - 1 - k]? = some above :=
      ⟨_, getElem?_eq_getElem (by omega)⟩
    have hFrame := ih above (by rw [getElem?_reverse (by omega)]; exact hAbove)
    rw [show stack.length - 1 - k = stack.length - 1 - (k + 1) + 1 by omega] at hAbove
    have hLink := (h.link _ o above ho hAbove).2.1
    omega

theorem declared_of_chain (h : Chained p frames stack) {name : String}
    (hName : name ∈ (stack.reverse.dropLast.map Obligation.transition).filter fun name => name ≠
      stutterName) : ∃ r ∈ p.transitions, r.name = name := by
  obtain ⟨hName, hStutter⟩ := List.mem_filter.mp hName
  obtain ⟨o, ho, rfl⟩ := mem_map.mp hName
  rw [dropLast_reverse, mem_reverse] at ho
  obtain ⟨k, hk⟩ := getElem?_of_mem ho
  rw [List.getElem?_tail] at hk
  have hLt := (List.getElem?_eq_some_iff.mp hk).1
  have hBelow : stack[k]? = some stack[k] := List.getElem?_eq_getElem _
  rcases (h.link k _ o hBelow hk).2.2.2 with hSame | ⟨r, hr, hEq⟩
  · simp [hSame] at hStutter
  · exact ⟨r, hr, hEq.symm⟩

theorem length_of_chain {root : Obligation} {above : List Obligation}
    (h : Chained p frames (root :: above)) :
    (((root :: above).reverse.dropLast.map Obligation.transition).filter
        fun name => name ≠ stutterName).length +
      (root :: above).reverse.countP (fun o => o.transition = stutterName) = above.length := by
  have hRoot : root.transition ≠ stutterName := by
    rw [(h.root root rfl).2.2]
    decide
  have hSplit := length_eq_countP_add_countP (l := above.reverse)
    fun o => decide (o.transition = stutterName)
  rw [length_reverse] at hSplit
  rw [reverse_cons, dropLast_concat, filter_map, length_map,
    ← countP_eq_length_filter, countP_append]
  simp [hRoot, Function.comp_def] at hSplit ⊢
  omega

/-- **The shape of a counterexample that is read off the stack**, whatever the verdicts are. The
chain goes from an obligation at frame 0 up to a root at some later frame, one obligation for each
frame. There is one condition more than there are transitions; transitions and stutters together
are as many as the frame of the root, and all transitions are declared. The conditions are the
diagrams of the chain in order, each of them once, cut into blocks where a transition leaves a
state, and only the last condition has the negation of safety. No obligation is left. An initial
state that violates safety is given without a chain. -/
theorem shape_of_disproved {session : Session} {options : SearchOptions} {search : Search}
    (hNew : Search.new session.program options = .ok search) {fuel : Nat} {r : SearchResult}
    {t : Session × Search} (hRun : run fuel (session, search) = .ok r t) {c : Counterexample}
    (hDisproved : r.conclusion = .disproved c) (hStack : c.chain ≠ []) :
    ∃ (n : Nat) (chain : List Obligation) (blocks : List (List Obligation))
      (last : List Obligation),
      (∃ k, Steps (Move t.1.Told session.program) k search.state
        { t.2.state with obligations := chain.reverse }) ∧
      1 ≤ n ∧ chain.length = n + 1 ∧ (∀ (k : Nat) (o : Obligation), chain[k]? = some o →
        o.frame = k) ∧
      c.chain.length = c.transitions.length + 1 ∧
      c.transitions.length + chain.countP (fun o => o.transition = stutterName) = n ∧
      (∀ name ∈ c.transitions, ∃ r ∈ session.program.transitions, r.name = name) ∧
      blocks.flatten ++ last = chain ∧ last ≠ [] ∧ Forall₂ LeftBy blocks c.transitions ∧
      c.chain = blocks.map (fun block => Formula.conj (conditions block)) ++
        [Formula.conj (conditions last ++ [.not search.safety])] ∧
      t.2.state.obligations = [] := by
  have hFresh : search.state.WellFormed session.program := by
    rw [state_of_new hNew]
    exact SearchState.wellFormed_empty _
  obtain ⟨u, o, ⟨hFollows, hRaised⟩, hRecorded, hTop, hZero, -, hSteps, hEnd⟩ :=
    unwinds_of_run (s := (session, search)) hFresh
      (by rw [state_of_new hNew]; exact fun o ho => by cases ho) hRun hDisproved hStack
  have hSafety : u.2.safety = search.safety := hFollows.safety
  have hChained := (hFollows.wellFormed hFresh).stack
  rw [hChained.chain_eq, hSafety] at hSteps
  obtain ⟨k, hMoves, -⟩ := hFollows.moves
  cases hObligations : u.2.state.obligations with
  | nil =>
    rw [hObligations] at hTop
    cases hTop
  | cons root above =>
    have hFrames := frame_of_chain hChained hTop
    simp only [hZero, Nat.zero_add] at hFrames
    rw [hObligations] at hChained hSteps hFrames
    obtain ⟨hConditions, hTransitions⟩ := Prod.mk.inj hSteps
    have hNone : (root :: above).reverse ≠ [] := by simp
    obtain ⟨blocks, last, hCut, hLast, hLeft, hBlocks⟩ :=
      exists_blocks search.safety hNone [] (by simp)
    rw [show conditions [] = [] from rfl] at hLeft hBlocks
    rw [← hTransitions] at hLeft
    rw [← hConditions] at hBlocks
    have hLength := length_chainSteps search.safety [] _ hNone
    rw [← hConditions, ← hTransitions] at hLength
    rw [transitions_chainSteps] at hTransitions
    refine ⟨above.length, (root :: above).reverse, blocks, last, ⟨k, ?_⟩, ?_, by simp, hFrames,
      hLength.symm, ?_, fun name hName => ?_, hCut, hLast, hLeft, hBlocks, by rw [hEnd]⟩
    · rw [hEnd, reverse_reverse, ← hObligations]
      exact hMoves.mono fun _ _ _ hMove =>
        hMove.mono fun _ _ hTold => hTold.of_recordedIn hRecorded
    · -- the root is the last of the chain
      rw [← hFrames above.length root (by simp)]
      exact hRaised root (by rw [hObligations]; rfl)
    · rw [hTransitions]
      exact length_of_chain hChained
    · rw [hTransitions] at hName
      exact declared_of_chain hChained hName

/-- The verdicts on the queries about the beacon by which a node that is lit comes from the
darkness without a step. No run shows that. -/
def sparkVerdicts : List Verdict :=
  [.unsat none, .sat (litModel true true), .sat (litModel false true), .unsat none, .unsat none]

/-- The beacon's search ends with a condition on one state, which joins two obligations or more
and the negation of safety. -/
theorem shape_of_disproved_spark :
    ∃ r t c, run 9 (sessionOf beacon sparkVerdicts, coreless dark) = .ok r t ∧
      r.conclusion = .disproved c ∧ c.transitions = [] ∧ t.2.state.obligations = [] ∧
      ∃ chain : List Obligation, 2 ≤ chain.length ∧
        c.chain = [Formula.conj (conditions chain ++ [.not dark])] := by
  have hNew : Search.new (sessionOf beacon sparkVerdicts).program
      { SearchOptions.standard with useCores := false } = .ok (coreless dark) := rfl
  obtain ⟨r, t, hRun, c, hDisproved, hChain, hNone⟩ : ∃ r t,
      run 9 (sessionOf beacon sparkVerdicts, coreless dark) = .ok r t ∧
        ∃ c, r.conclusion = .disproved c ∧ c.chain ≠ [] ∧ c.transitions = [] := by
    decide +kernel
  obtain ⟨n, chain, blocks, last, -, hn, hLength, -, -, -, -, hCut, -, hLeft, hConditions,
    hEmpty⟩ := shape_of_disproved hNew hRun hDisproved hChain
  rw [hNone, forall₂_nil_right_iff] at hLeft
  subst hLeft
  obtain rfl : last = chain := hCut
  exact ⟨r, t, c, hRun, hDisproved, hNone, hEmpty, last, by omega, hConditions⟩

end Chains

end Search

end InvariantSearch
