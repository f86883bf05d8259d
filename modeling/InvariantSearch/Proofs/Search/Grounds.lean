import InvariantSearch.Proofs.Checkpoint.RoundTrip
import InvariantSearch.Proofs.Search.DiagramNames
import InvariantSearch.Proofs.Search.Minimality

/-!
# What a search relies on

A checkpoint is checked piece by piece. What a search needs of a state, to go on from it
without a misstep, is less than what its own states have, and it is kept by all moves.

* `Linked` — obligations belong to frames, and their parents lie below them on the stack.
  They need not form one chain.
* `Climbs` — following parents leads from a position of the stack to a root.
* `SearchState.Grounded` — besides, all formulas of the state can be encoded.

Main results: `Linked.climbs`, `Steps.grounded` for any moves in a row, and
`Checkpoint.grounded_of_read` for every text that is accepted.
-/

namespace InvariantSearch

open SearchState List

/-! ## Stacks with parents -/

/-- Obligations belong to frames, their parents lie below them on the stack and one frame higher,
and their transitions are declared. -/
structure Linked (p : Program) (frames : Nat) (stack : List Obligation) : Prop where
  frame : ∀ o ∈ stack, o.frame < frames
  parent : ∀ (i j : Nat) (o : Obligation), stack[i]? = some o → o.parent? = some j →
    ∃ above, j < i ∧ stack[j]? = some above ∧ o.frame + 1 = above.frame
  transition : ∀ o ∈ stack, p.Takes o.transition

/-- Following parents leads from a position of a stack to a root. -/
inductive Climbs (stack : List Obligation) : Nat → Nat → Prop
  | root {i : Nat} {o : Obligation} (ho : stack[i]? = some o) (hRoot : o.parent? = none) :
      Climbs stack i i
  | parent {i j root : Nat} {o : Obligation} (ho : stack[i]? = some o)
      (hParent : o.parent? = some j) (h : Climbs stack j root) : Climbs stack i root

namespace Linked

variable {p : Program} {frames : Nat} {stack : List Obligation}

theorem of_le {frames' : Nat} (h : Linked p frames stack) (hLe : frames ≤ frames') :
    Linked p frames' stack :=
  ⟨fun o ho => Nat.lt_of_lt_of_le (h.frame o ho) hLe, h.parent, h.transition⟩

theorem take (h : Linked p frames stack) (count : Nat) : Linked p frames (stack.take count) where
  frame o ho := h.frame o (List.mem_of_mem_take ho)
  parent i j o ho hParent := by
    obtain ⟨above, hji, hAbove, hFrame⟩ := h.parent i j o (getElem?_of_take ho) hParent
    refine ⟨above, hji, ?_, hFrame⟩
    have hi := (List.getElem?_eq_some_iff.mp ho).1
    rw [List.length_take] at hi
    rw [getElem?_take_of_lt (by omega)]
    exact hAbove
  transition o ho := h.transition o (mem_of_mem_take ho)

theorem push {o : Obligation} (h : Linked p frames stack) (hFrame : o.frame < frames)
    (hParent : ∀ j, o.parent? = some j →
      ∃ above, stack[j]? = some above ∧ o.frame + 1 = above.frame)
    (hTransition : p.Takes o.transition) : Linked p frames (stack ++ [o]) where
  frame o' ho' := by
    rcases mem_append.mp ho' with ho' | ho'
    · exact h.frame o' ho'
    · rw [mem_singleton.mp ho']
      exact hFrame
  parent i j o' ho' hj := by
    rcases Nat.lt_or_ge i stack.length with hi | hi
    · rw [getElem?_append_left hi] at ho'
      obtain ⟨above, hji, hAbove, hFrame⟩ := h.parent i j o' ho' hj
      exact ⟨above, hji, by rw [getElem?_append_left (by omega), hAbove], hFrame⟩
    · rw [getElem?_append_right hi] at ho'
      obtain rfl := mem_singleton.mp (mem_of_getElem? ho')
      obtain ⟨above, hAbove, hFrame⟩ := hParent j hj
      have hj' := (List.getElem?_eq_some_iff.mp hAbove).1
      exact ⟨above, by omega, by rw [List.getElem?_append_left hj', hAbove], hFrame⟩
  transition o' ho' := by
    rcases mem_append.mp ho' with ho' | ho'
    · exact h.transition o' ho'
    · rw [mem_singleton.mp ho']
      exact hTransition

/-- **Following parents ends at a root**, and that is where the search's own walk ends, which is
limited to so many steps as there are positions below. -/
theorem climbs (h : Linked p frames stack) {i steps : Nat} (hi : i < stack.length)
    (hSteps : i ≤ steps) :
    ∃ root, Climbs stack i root ∧ (lineage stack steps i).getLast? = some root := by
  -- Each parent lies lower, so the steps that are left suffice for it.
  have ho : stack[i]? = some stack[i] := getElem?_eq_getElem hi
  induction steps generalizing i with
  | zero =>
    obtain rfl : i = 0 := by omega
    refine ⟨0, .root ho ?_, rfl⟩
    by_contra hSome
    obtain ⟨j, hj⟩ := Option.ne_none_iff_exists'.mp hSome
    obtain ⟨_, hLt, -⟩ := h.parent 0 j _ ho hj
    omega
  | succ steps ih =>
    rw [lineage, ho, Option.bind_some]
    cases hParent : stack[i].parent? with
    | none => exact ⟨i, .root ho hParent, rfl⟩
    | some j =>
      obtain ⟨above, hji, hAbove, -⟩ := h.parent i j _ ho hParent
      have hj := (List.getElem?_eq_some_iff.mp hAbove).1
      obtain ⟨root, hRoot, hLast⟩ := ih hj (by omega) (List.getElem?_eq_getElem hj)
      refine ⟨root, .parent ho hParent hRoot, ?_⟩
      rw [getLast?_cons, hLast]
      rfl

/-- The way down from an obligation is no longer than there are frames from its own on. -/
theorem length_lineage (h : Linked p frames stack) (steps : Nat) {i : Nat} {o : Obligation}
    (ho : stack[i]? = some o) : (lineage stack steps i).length + o.frame ≤ frames := by
  induction steps generalizing i o with
  | zero =>
    have hFrame := h.frame o (mem_of_getElem? ho)
    rw [lineage, length_singleton]
    omega
  | succ steps ih =>
    have hFrame := h.frame o (mem_of_getElem? ho)
    rw [lineage, ho, Option.bind_some]
    cases hParent : o.parent? with
    | none =>
      dsimp only
      rw [length_singleton]
      omega
    | some j =>
      obtain ⟨above, -, hAbove, hAboveFrame⟩ := h.parent i j o ho hParent
      have hRest := ih hAbove
      dsimp only
      rw [length_cons]
      omega

theorem length_chain {s : SearchState} (h : Linked p frames s.obligations) :
    s.chain.length ≤ frames := by
  refine Nat.le_trans (length_filterMap_le _ _) ?_
  unfold SearchState.topLineage
  split
  · exact Nat.zero_le _
  · rename_i top hTop
    have ho : s.obligations[top]? = some s.obligations[top] := getElem?_eq_getElem (by omega)
    have hLength := h.length_lineage top ho
    omega

end Linked

/-! ## Grounded states -/

/-- A state that a search can go on from without a misstep: its formulas can be encoded, and its
obligations are linked. -/
structure SearchState.Grounded (p : Program) (s : SearchState) : Prop where
  predicates : ∀ frame ∈ s.frames, ∀ f ∈ frame, f.Resolves p []
  diagrams : ∀ o ∈ s.obligations, o.diagram.Resolves p
  stack : Linked p s.frames.length s.obligations

namespace SearchState.Grounded

variable {p : Program} {s : SearchState}

theorem learn (h : s.Grounded p) {f : Formula} (hf : f.Resolves p []) (index : Nat) :
    (s.learn f index).Grounded p where
  predicates frame hFrame g hg := by
    obtain ⟨i, hi, rfl⟩ := mem_mapIdx.mp hFrame
    have hOld := h.predicates s.frames[i] (getElem_mem hi)
    split at hg
    · rcases mem_insertNew.mp hg with rfl | hg
      · exact hf
      · exact hOld g hg
    · exact hOld g hg
  diagrams := h.diagrams
  stack := by
    rw [(gains_learn s f index).1]
    exact h.stack

theorem addToFrame (h : s.Grounded p) {f : Formula} {index : Nat}
    (hIn : s.frameHas index f = true) (i : Nat) : (s.addToFrame f i).Grounded p where
  predicates frame hFrame g hg := by
    obtain ⟨before, hBefore, hf⟩ := WellFormed.mem_of_frameHas hIn
    obtain ⟨k, hk⟩ := getElem?_of_mem hFrame
    rw [getElem?_addToFrame] at hk
    obtain ⟨old, hOld, rfl⟩ := Option.map_eq_some_iff.mp hk
    have hOld := h.predicates old (mem_of_getElem? hOld)
    split at hg
    · rcases mem_insertNew.mp hg with rfl | hg
      · exact h.predicates before (mem_of_getElem? hBefore) g hf
      · exact hOld g hg
    · exact hOld g hg
  diagrams := h.diagrams
  stack := by
    rw [(gains_addToFrame s f i).1]
    exact h.stack

theorem addFrame (h : s.Grounded p) : s.addFrame.Grounded p where
  predicates frame hFrame f hf := by
    rcases mem_append.mp hFrame with hFrame | hFrame
    · exact h.predicates frame hFrame f hf
    · rw [mem_singleton.mp hFrame] at hf
      cases hf
  diagrams := h.diagrams
  stack := h.stack.of_le (by simp [SearchState.addFrame])

theorem simplify (h : s.Grounded p) : s.simplify.Grounded p where
  predicates frame hFrame f hf := by
    obtain ⟨i, hi⟩ := getElem?_of_mem hFrame
    obtain ⟨old, hOld, hSublist, -⟩ := sifted hi
    exact h.predicates old (mem_of_getElem? hOld) f (hSublist.subset hf)
  diagrams := h.diagrams
  stack := by
    rw [SearchState.simplify, length_siftFrames]
    exact h.stack

theorem push (h : s.Grounded p) {o : Obligation} (hd : o.diagram.Resolves p)
    (hStack : Linked p s.frames.length (s.obligations ++ [o])) :
    (s.pushObligation o).Grounded p where
  predicates := h.predicates
  diagrams o' ho' := by
    rcases mem_append.mp ho' with ho' | ho'
    · exact h.diagrams o' ho'
    · rw [mem_singleton.mp ho']
      exact hd
  stack := hStack

theorem take (h : s.Grounded p) (count : Nat) :
    SearchState.Grounded p { s with obligations := s.obligations.take count } where
  predicates := h.predicates
  diagrams o ho := h.diagrams o (mem_of_mem_take ho)
  stack := h.stack.take count

theorem normalize (h : s.Grounded p) : s.normalize.Grounded p where
  predicates frame hFrame f hf := by
    obtain ⟨old, hOld, rfl⟩ := mem_map.mp hFrame
    obtain ⟨g, hg, rfl⟩ := (Diagram.mem_foldl (P := fun g => f = g)
      (fun _ _ hIn => (mem_insertNew.mp hIn).symm) hf).resolve_left not_mem_nil
    exact h.predicates old hOld f hg
  diagrams := h.diagrams
  stack := by
    rw [SearchState.normalize, length_map]
    exact h.stack

end SearchState.Grounded

/-! ## Moves -/

section Moves

variable {told : Question → Verdict → Prop} {p : Program} {n : Nat} {s t : SearchState}

theorem takes_wayName
    {way : Option Transition} (h : way ∈ Generalizer.ways p) : p.Takes (wayName way) := by
  rcases wayName_of_mem_ways h with hStutter | ⟨r, hr, hName⟩
  · exact Or.inr (Or.inl hStutter)
  · refine Or.inr (Or.inr ?_)
    rw [hName, Program.transition?, find?_isSome]
    exact ⟨r, hr, beq_self_eq_true _⟩

variable (hNodup : (p.symbols.map Symbol.name).Nodup)
include hNodup

theorem Work.grounded (h : Work told p n s t) (hs : s.Grounded p) : t.Grounded p := by
  cases h with
  | root hEmpty hFrame hd =>
    refine hs.push (hd.resolves hNodup) (hs.stack.push hFrame (fun j hj => ?_) (Or.inl rfl))
    cases hj
  | @descend _ o d way hTop hFrame hWay hd =>
    have ho := mem_of_getLast? hTop
    have hLt := hs.stack.frame o ho
    refine hs.push (hd.resolves hNodup) (hs.stack.push ?_ (fun j hj => ?_) (takes_wayName hWay))
    · exact Nat.lt_of_le_of_lt (Nat.sub_le _ _) hLt
    · obtain rfl := Option.some.inj hj
      rw [getLast?_eq_getElem?] at hTop
      exact ⟨o, hTop, Nat.succ_pred_eq_of_ne_zero hFrame⟩
  | learn hTop hFrame hBefore hSmall hIsolated =>
    have hd := hs.diagrams _ (mem_of_getLast? hTop)
    exact hs.learn (hSmall.resolves hd).toPredicate _
  | drop count => exact hs.take count
  | push hBefore hIn hKept => exact hs.addToFrame hIn _

theorem Move.grounded (h : Move told p n s t) (hs : s.Grounded p) : t.Grounded p := by
  cases h with
  | work h => exact h.grounded hNodup hs
  | «begin» hEmpty => exact hs.addFrame.addFrame
  | addFrame hSome => exact hs.addFrame
  | simplify => exact hs.simplify
  | iterate => exact { hs with }

/-- **No moves take the ground away.** -/
theorem Steps.grounded (h : Steps (Move told p) n s t) (hs : s.Grounded p) : t.Grounded p :=
  h.keeps (fun _ _ _ hMove => hMove.grounded hNodup) hs

end Moves

/-! ## Checkpoints -/

namespace Checkpoint

variable {e : Sexpr} {s : SearchState} {p : Program}

theorem linked_of_stateFault? (h : stateFault? p s = none) :
    2 ≤ s.frames.length ∧ Linked p s.frames.length s.obligations := by
  obtain ⟨hTwo, -, hAll⟩ := stateFault?_eq_none_iff.mp h
  refine ⟨hTwo, fun o ho => ?_, fun i j o ho hj => ?_, fun o ho => ?_⟩
  · obtain ⟨i, hi⟩ := getElem?_of_mem ho
    exact (hAll i o hi).1
  · obtain ⟨above, hBelow, hAbove, hFrame, -⟩ := parentFault?_eq_none_iff.mp (hAll i o ho).2.1 j hj
    exact ⟨above, hBelow, hAbove, hFrame⟩
  · obtain ⟨i, hi⟩ := getElem?_of_mem ho
    exact (hAll i o hi).2.2

theorem resolves_of_predicates {keyword : String} {fs : List Formula}
    (h : predicates p keyword e = .ok fs) : ∀ f ∈ fs, f.Resolves p [] := by
  intro f hf
  obtain ⟨args, -, h⟩ := bind_eq_ok.mp h
  obtain ⟨arg, -, h⟩ := mem_of_mapM_eq_ok h hf
  simp only [predicate, bind_eq_ok, mapError_eq_ok, pure_eq_ok] at h
  obtain ⟨f', -, _, hCheck, rfl⟩ := h
  exact (Program.check_eq_ok hCheck).resolves (by simp)

theorem refuse_eq_ok {α β : Type} {c : Prop} [Decidable c] {fault : DecodeFault}
    {next : α → Decoded β} {x : Decoded β} {b : β} :
    (if c then (fail e fault : Decoded α) >>= next else x) = .ok b ↔ ¬ c ∧ x = .ok b := by
  by_cases hc : c
  · simp [hc, fail, bind, Except.bind]
  · simp [hc]

theorem hasSort_of_diagramVar {x : Var} (h : diagramVar p e = .ok x) : p.hasSort x.sort = true := by
  unfold diagramVar at h
  split at h
  · simp only [bind_eq_ok, refuse_eq_ok, pure_eq_ok] at h
    obtain ⟨sort, -, hSort, name, -, rfl⟩ := h
    simpa using hSort
  · cases h

theorem check_of_diagramConjunct {vars : List Var} {c : Conjunct}
    (h : diagramConjunct p vars e = .ok c) :
    p.check (Formula.thereIs vars c.formula) .singleState = .ok () := by
  unfold diagramConjunct at h
  split at h
  · simp only [bind_eq_ok, mapError_eq_ok, pure_eq_ok] at h
    obtain ⟨f, -, _, hCheck, kind, -, on, -, rfl⟩ := h
    exact hCheck
  · cases h

theorem resolves_of_obligation {o : Obligation} (h : obligation p e = .ok o) :
    o.diagram.Resolves p := by
  obtain ⟨args, -, h⟩ := bind_eq_ok.mp h
  split at h
  · simp only [bind_eq_ok, pure_eq_ok] at h
    obtain ⟨frame, -, parent, -, may, -, transition, -, items, -, vars, hVars, items', -,
      conjuncts, hConjuncts, rfl⟩ := h
    refine Diagram.resolves_of_check (fun x hx => ?_) fun c hc => ?_
    · obtain ⟨item, -, hItem⟩ := mem_of_mapM_eq_ok hVars hx
      exact hasSort_of_diagramVar hItem
    · obtain ⟨item, -, hItem⟩ := mem_of_mapM_eq_ok hConjuncts hc
      exact check_of_diagramConjunct hItem
  · cases h

theorem exists_of_ofSexpr (h : ofSexpr p e = .ok s) :
    ∃ line wordLine version print counters c₁ c₂ c₃ log rest,
      e = .list line (.atom wordLine header :: version :: print :: counters :: log :: rest) ∧
      entry "counters" (some 3) counters = .ok [c₁, c₂, c₃] ∧
      number "a counter" c₁ = .ok s.learned ∧ number "a counter" c₂ = .ok s.distinct ∧
      number "a counter" c₃ = .ok s.iterations ∧
      (rest.takeWhile (isEntry "frame")).mapM (predicates p "frame") = .ok s.frames ∧
      (rest.dropWhile (isEntry "frame")).mapM (obligation p) = .ok s.obligations ∧
      stateFault? p s = none := by
  unfold ofSexpr at h
  split at h
  · rename_i line wordLine word version print counters log rest
    simp only [bind_eq_ok, refuse_eq_ok] at h
    obtain ⟨hHeader, _, -, -, _, -, -, args, hCounters, h⟩ := h
    split at h
    · rename_i c₁ c₂ c₃
      simp only [bind_eq_ok] at h
      obtain ⟨learned, hLearned, distinct, hDistinct, iterations, hIterations, log', -, frames,
        hFrames, obligations, hObligations, h⟩ := h
      split at h
      · cases h
      · rename_i hNone
        cases h
        exact ⟨line, wordLine, version, print, counters, c₁, c₂, c₃, log, rest,
          by rw [not_not.mp hHeader], hCounters, hLearned, hDistinct, hIterations, hFrames,
          hObligations, hNone⟩
    · cases h
  · cases h

theorem grounded_of_ofSexpr (h : ofSexpr p e = .ok s) : 2 ≤ s.frames.length ∧ s.Grounded p := by
  obtain ⟨_, _, _, _, _, _, _, _, _, _, -, -, -, -, -, hFrames, hObligations, hNone⟩ :=
    exists_of_ofSexpr h
  obtain ⟨hTwo, hStack⟩ := linked_of_stateFault? hNone
  refine ⟨hTwo, fun frame hFrame => ?_, fun o ho => ?_, hStack⟩
  · obtain ⟨item, -, hItem⟩ := mem_of_mapM_eq_ok hFrames hFrame
    exact resolves_of_predicates hItem
  · obtain ⟨item, -, hItem⟩ := mem_of_mapM_eq_ok hObligations ho
    exact resolves_of_obligation hItem

/-- **Every text that is accepted has a state to go on from.** -/
theorem grounded_of_read {source text : String} (h : read p source text = .ok s) :
    2 ≤ s.frames.length ∧ s.Grounded p := by
  unfold read at h
  split at h
  · cases h
  · exact grounded_of_ofSexpr (mapError_eq_ok.mp h)
  · cases h

end Checkpoint

end InvariantSearch
