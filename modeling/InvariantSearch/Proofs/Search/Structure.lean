import InvariantSearch.Proofs.Search.Course

/-!
# The shape of a search state

What holds of the state of a search whatever the verdicts are, also where they
contradict each other, and also after a run that failed half-way.

* `SearchState.WellFormed` — there is not just one frame; frames list nothing twice,
  shrink, and have only predicates of the log, which lists nothing twice either; the
  obligations form one chain.
* `SearchState.Tallied` — the log has as many predicates as are counted, and no more
  than states were learned. The counters are words, so this needs that learned states
  can still be counted.

Main results: `Steps.wellFormed` and `Steps.tallied`, for any moves in a row.
-/

namespace InvariantSearch

open List SearchState

variable {p : Program}

/-- The obligations form one chain: the first is a root within the frames, and each other one
is a predecessor of the one below it, one frame lower and of the same kind. -/
structure Chained (p : Program) (frames : Nat) (stack : List Obligation) : Prop where
  root : ∀ o, stack[0]? = some o →
    o.parent = Obligation.root ∧ o.frame < frames ∧ o.transition = ""
  link : ∀ (k : Nat) (below o : Obligation), stack[k]? = some below → stack[k + 1]? = some o →
    o.parent = k ∧ o.frame + 1 = below.frame ∧ o.may = below.may ∧
      (o.transition = stutterName ∨ ∃ r ∈ p.transitions, o.transition = r.name)

namespace SearchState

/-- The shape that every state of a search has. -/
structure WellFormed (p : Program) (s : SearchState) : Prop where
  count : s.frames.length ≠ 1
  nodup : ∀ (i : Nat) (frame : List Formula), s.frames[i]? = some frame → frame.Nodup
  shrinks : ∀ (i : Nat) (frame next : List Formula), s.frames[i]? = some frame →
    s.frames[i + 1]? = some next → ∀ f ∈ next, f ∈ frame
  logged : ∀ (i : Nat) (frame : List Formula), s.frames[i]? = some frame → ∀ f ∈ frame, f ∈ s.log
  log_nodup : s.log.Nodup
  stack : Chained p s.frames.length s.obligations

/-- The counters agree with the log. -/
def Tallied (s : SearchState) : Prop := s.distinct.toNat = s.log.length ∧ s.distinct ≤ s.learned

theorem wellFormed_empty (p : Program) : empty.WellFormed p where
  count := by simp [empty]
  nodup := by simp [empty]
  shrinks := by simp [empty]
  logged := by simp [empty]
  log_nodup := by simp [empty]
  stack := { root := by simp [empty], link := by simp [empty] }

theorem tallied_empty : empty.Tallied := ⟨rfl, by decide⟩

end SearchState

open SearchState

/-! ## The stack -/

section Stack

variable {p : Program} {frames : Nat} {stack : List Obligation}

theorem getElem?_of_take {α : Type} {as : List α} {count i : Nat} {a : α}
    (h : (as.take count)[i]? = some a) : as[i]? = some a := by
  rw [getElem?_take] at h
  split at h
  · exact h
  · cases h

theorem Chained.take (h : Chained p frames stack) (count : Nat) :
    Chained p frames (stack.take count) where
  root o ho := h.root o (getElem?_of_take ho)
  link k below o hBelow ho :=
    h.link k below o (getElem?_of_take hBelow) (getElem?_of_take ho)

theorem Chained.of_le {frames' : Nat} (h : Chained p frames stack) (hLe : frames ≤ frames') :
    Chained p frames' stack where
  root o ho := (h.root o ho).imp_right fun hRest => hRest.imp_left fun hLt => by omega
  link := h.link

theorem chained_root {o : Obligation} (hParent : o.parent = Obligation.root)
    (hFrame : o.frame < frames) (hTransition : o.transition = "") : Chained p frames [o] where
  root o' ho' := by
    obtain rfl := Option.some.inj ho'
    exact ⟨hParent, hFrame, hTransition⟩
  link k below o' _ ho' := by simp at ho'

theorem wayName_of_mem_ways {way : Option Transition} (h : way ∈ Generalizer.ways p) :
    wayName way = stutterName ∨ ∃ r ∈ p.transitions, wayName way = r.name := by
  rcases mem_cons.mp h with rfl | h
  · exact Or.inl rfl
  · obtain ⟨r, hr, rfl⟩ := mem_map.mp h
    exact Or.inr ⟨r, hr, rfl⟩

theorem Chained.descend {top o : Obligation} (h : Chained p frames stack)
    (hTop : stack.getLast? = some top) (hParent : o.parent = (stack.length - 1 : Nat))
    (hFrame : o.frame + 1 = top.frame) (hMay : o.may = top.may)
    (hName : o.transition = stutterName ∨ ∃ r ∈ p.transitions, o.transition = r.name) :
    Chained p frames (stack ++ [o]) := by
  have hSome : 0 < stack.length := length_pos_of_mem (mem_of_getLast? hTop)
  refine ⟨fun o' ho' => ?_, fun k below o' hBelow ho' => ?_⟩
  · rw [getElem?_append_left hSome] at ho'
    exact h.root o' ho'
  · rcases Nat.lt_or_ge (k + 1) stack.length with hk | hk
    · rw [getElem?_append_left (by omega)] at hBelow
      rw [getElem?_append_left hk] at ho'
      exact h.link k below o' hBelow ho'
    · -- The new top: the one below it is the old top.
      have hLast := (List.getElem?_eq_some_iff.mp ho').1
      rw [List.length_append, List.length_singleton] at hLast
      obtain rfl : k = stack.length - 1 := by omega
      rw [getElem?_append_left (by omega), ← getLast?_eq_getElem?, hTop] at hBelow
      obtain rfl := Option.some.inj hBelow
      rw [getElem?_append_right hk, show stack.length - 1 + 1 - stack.length = 0 by omega] at ho'
      obtain rfl := Option.some.inj ho'
      exact ⟨hParent, hFrame, hMay, hName⟩

theorem Chained.lineage_eq (h : Chained p frames stack) {k : Nat} (hk : k < stack.length) :
    lineage stack k k = (range (k + 1)).reverse := by
  induction k with
  | zero => rfl
  | succ k ih =>
    have hBelow : stack[k]? = some stack[k] := getElem?_eq_getElem _
    have hAbove : stack[k + 1]? = some stack[k + 1] := getElem?_eq_getElem _
    have hParent : stack[k + 1].parent? = some k := by
      rw [Obligation.parent?, (h.link k _ _ hBelow hAbove).1]
      rfl
    rw [lineage, hAbove, Option.bind_some, hParent]
    dsimp only
    rw [ih (by omega), range_succ (n := k + 1), reverse_concat]

theorem filterMap_getElem?_range {α : Type} (as : List α) :
    (range as.length).filterMap (fun i => as[i]?) = as := by
  induction as with
  | nil => rfl
  | cons a as ih =>
    rw [length_cons, range_succ_eq_map, filterMap_cons, filterMap_map]
    simpa [Function.comp_def] using ih

theorem Chained.chain_eq {s : SearchState} (h : Chained p frames s.obligations) :
    s.chain = s.obligations.reverse := by
  rw [chain, topLineage]
  split
  · rename_i hNone
    rw [length_eq_zero_iff.mp hNone]
    rfl
  · rename_i top hTop
    rw [h.lineage_eq (by omega), show top + 1 = s.obligations.length from hTop.symm,
      filterMap_reverse, filterMap_getElem?_range]

theorem forall_mem_of_link {P : Obligation → Prop} (hRoot : ∀ o, stack[0]? = some o → P o)
    (hLink : ∀ k o o', stack[k]? = some o → stack[k + 1]? = some o' → P o → P o') :
    ∀ o ∈ stack, P o := by
  have hAll : ∀ (k : Nat) (o : Obligation), stack[k]? = some o → P o := by
    intro k
    induction k with
    | zero => exact hRoot
    | succ k ih =>
      intro o ho
      have hk := (List.getElem?_eq_some_iff.mp ho).1
      have hBelow : stack[k]? = some stack[k] := List.getElem?_eq_getElem _
      exact hLink k _ o hBelow ho (ih _ hBelow)
  intro o ho
  obtain ⟨k, hk⟩ := getElem?_of_mem ho
  exact hAll k o hk

theorem Chained.may_eq {root : Obligation} (h : Chained p frames stack)
    (hRoot : stack[0]? = some root) : ∀ o ∈ stack, o.may = root.may := by
  refine forall_mem_of_link (fun o ho => ?_) fun k o o' ho ho' ih =>
    (h.link k o o' ho ho').2.2.1.trans ih
  rw [hRoot] at ho
  rw [Option.some.inj ho]

/-- Frames go down from the root. -/
theorem Chained.frame_lt (h : Chained p frames stack) : ∀ o ∈ stack, o.frame < frames := by
  refine forall_mem_of_link (fun o ho => (h.root o ho).2.1) fun k o o' ho ho' ih => ?_
  have hFrame := (h.link k o o' ho ho').2.1
  omega

end Stack

/-! ## Frames and log -/

section Frames

variable {p : Program} {s t : SearchState}

namespace SearchState.WellFormed

theorem subset (h : s.WellFormed p) {i j : Nat} {frame later : List Formula} (hij : i ≤ j)
    (hFrame : s.frames[i]? = some frame) (hLater : s.frames[j]? = some later) :
    ∀ f ∈ later, f ∈ frame := by
  induction hij generalizing later with
  | refl =>
    rw [hFrame] at hLater
    exact Option.some.inj hLater ▸ fun _ hf => hf
  | @step j _ ih =>
    have hj := (List.getElem?_eq_some_iff.mp hLater).1
    have hBetween : s.frames[j]? = some s.frames[j] := List.getElem?_eq_getElem _
    exact fun f hf => ih hBetween f (h.shrinks j _ later hBetween hLater f hf)

/-- A predicate may be added to some frames, if each frame before one of them has it too, and
if it is in the log. -/
theorem insert {f : Formula} {test : Nat → Prop} [DecidablePred test] (h : s.WellFormed p)
    (hGains : Gains s t)
    (hFrames : ∀ i : Nat, t.frames[i]? =
      s.frames[i]?.map fun frame => if test i then insertNew f frame else frame)
    (hBefore : ∀ i frame, s.frames[i]? = some frame → test (i + 1) → test i ∨ f ∈ frame)
    (hNodup : t.log.Nodup) (hLog : ∀ g ∈ s.log, g ∈ t.log) (hf : f ∈ t.log)
    (hStack : t.obligations = s.obligations) : t.WellFormed p where
  count := by
    rw [hGains.1]
    exact h.count
  nodup i frame hFrame := by
    rw [hFrames] at hFrame
    obtain ⟨old, hOld, rfl⟩ := Option.map_eq_some_iff.mp hFrame
    split
    · exact nodup_insertNew (h.nodup i old hOld)
    · exact h.nodup i old hOld
  shrinks i frame next hFrame hNext g hg := by
    rw [hFrames] at hFrame hNext
    obtain ⟨old, hOld, rfl⟩ := Option.map_eq_some_iff.mp hFrame
    obtain ⟨oldNext, hOldNext, rfl⟩ := Option.map_eq_some_iff.mp hNext
    have hShrinks := h.shrinks i old oldNext hOld hOldNext
    have hOr : (test i ∧ g = f) ∨ g ∈ old := by
      split at hg
      · rename_i hTest
        rcases mem_insertNew.mp hg with rfl | hg
        · exact (hBefore i old hOld hTest).imp_left fun hTest => ⟨hTest, rfl⟩
        · exact Or.inr (hShrinks g hg)
      · exact Or.inr (hShrinks g hg)
    split
    · exact mem_insertNew.mpr (hOr.imp_left And.right)
    · rename_i hTest
      exact hOr.resolve_left fun h => hTest h.1
  logged i frame hFrame g hg := by
    rw [hFrames] at hFrame
    obtain ⟨old, hOld, rfl⟩ := Option.map_eq_some_iff.mp hFrame
    split at hg
    · rcases mem_insertNew.mp hg with rfl | hg
      · exact hf
      · exact hLog g (h.logged i old hOld g hg)
    · exact hLog g (h.logged i old hOld g hg)
  log_nodup := hNodup
  stack := by
    rw [hGains.1, hStack]
    exact h.stack

theorem learn (h : s.WellFormed p) (f : Formula) (index : Nat) : (s.learn f index).WellFormed p :=
  h.insert (gains_learn s f index) (getElem?_learn s f index)
    (fun _ _ _ hTest => Or.inl (Nat.le_of_succ_le hTest)) (nodup_insertNew h.log_nodup)
    (fun _ hg => mem_insertNew.mpr (Or.inr hg)) (mem_insertNew.mpr (Or.inl rfl)) rfl

theorem mem_of_frameHas {index : Nat} {f : Formula} (h : s.frameHas index f = true) :
    ∃ frame, s.frames[index]? = some frame ∧ f ∈ frame := by
  unfold frameHas at h
  cases hFrame : s.frames[index]? with
  | none => simp [hFrame] at h
  | some frame => exact ⟨frame, rfl, by simpa [hFrame] using h⟩

theorem addToFrame (h : s.WellFormed p) {f : Formula} {index : Nat}
    (hIn : s.frameHas index f = true) : (s.addToFrame f (index + 1)).WellFormed p := by
  obtain ⟨before, hFrame, hf⟩ := mem_of_frameHas hIn
  refine h.insert (gains_addToFrame s f _) (getElem?_addToFrame s f _) (fun i frame hi hTest => ?_)
    h.log_nodup (fun _ hg => hg) (h.logged index before hFrame f hf) rfl
  obtain rfl : index = i := by omega
  rw [hFrame] at hi
  exact Or.inr (Option.some.inj hi ▸ hf)

theorem addFrame (h : s.WellFormed p) (hSome : s.frames ≠ []) : s.addFrame.WellFormed p where
  count := by
    have hLength := length_pos_iff.mpr hSome
    rw [SearchState.addFrame, length_append, length_singleton]
    omega
  nodup i frame hFrame := by
    rcases mem_addFrame hFrame with hFrame | rfl
    · exact h.nodup i frame hFrame
    · exact nodup_nil
  shrinks i frame next hFrame hNext f hf := by
    rcases mem_addFrame hNext with hNext | rfl
    · have hi := (List.getElem?_eq_some_iff.mp hNext).1
      rw [SearchState.addFrame, List.getElem?_append_left (by omega)] at hFrame
      exact h.shrinks i frame next hFrame hNext f hf
    · exact absurd hf not_mem_nil
  logged i frame hFrame f hf := by
    rcases mem_addFrame hFrame with hFrame | rfl
    · exact h.logged i frame hFrame f hf
    · exact absurd hf not_mem_nil
  log_nodup := h.log_nodup
  stack := h.stack.of_le (by simp [SearchState.addFrame])

theorem simplify (h : s.WellFormed p) : s.simplify.WellFormed p where
  count := by
    rw [SearchState.simplify, length_siftFrames]
    exact h.count
  nodup i frame hFrame := by
    obtain ⟨old, hOld, hSublist, -⟩ := sifted hFrame
    exact (h.nodup i old hOld).sublist hSublist
  shrinks i frame next hFrame hNext f hf := by
    obtain ⟨old, hOld, -, hKept⟩ := sifted hFrame
    obtain ⟨oldNext, hOldNext, hSublist, -⟩ := sifted hNext
    exact hKept next hNext f (h.shrinks i old oldNext hOld hOldNext f (hSublist.subset hf)) hf
  logged i frame hFrame f hf := by
    obtain ⟨old, hOld, hSublist, -⟩ := sifted hFrame
    exact h.logged i old hOld f (hSublist.subset hf)
  log_nodup := h.log_nodup
  stack := by
    rw [SearchState.simplify, length_siftFrames]
    exact h.stack

theorem begin (h : s.WellFormed p) (hEmpty : s.frames = []) : s.addFrame.addFrame.WellFormed p := by
  have hNone : ∀ (i : Nat) (frame : List Formula), s.addFrame.addFrame.frames[i]? = some frame →
      frame = [] := by
    intro i frame hFrame
    refine (mem_addFrame hFrame).elim (fun hFrame => ?_) fun hNil => hNil
    refine (mem_addFrame hFrame).elim (fun hFrame => ?_) fun hNil => hNil
    simp [hEmpty] at hFrame
  refine ⟨by simp [SearchState.addFrame, hEmpty], fun i frame hFrame => ?_,
    fun i frame next _ hNext f hf => ?_, fun i frame hFrame f hf => ?_, h.log_nodup,
    h.stack.of_le (by simp [hEmpty])⟩
  · rw [hNone i frame hFrame]
    exact nodup_nil
  · rw [hNone _ next hNext] at hf
    exact absurd hf not_mem_nil
  · rw [hNone _ frame hFrame] at hf
    exact absurd hf not_mem_nil

end SearchState.WellFormed

variable {told : Question → Verdict → Prop} {n : Nat}

theorem Work.wellFormed (h : Work told p n s t) (hs : s.WellFormed p) : t.WellFormed p := by
  cases h with
  | root hEmpty hFrame hd =>
    refine { hs with stack := ?_ }
    rw [pushObligation, hEmpty]
    exact chained_root rfl hFrame rfl
  | descend hTop hFrame hWay hd =>
    refine { hs with stack := hs.stack.descend hTop rfl ?_ rfl ?_ }
    · exact Nat.succ_pred_eq_of_ne_zero hFrame
    · exact wayName_of_mem_ways hWay
  | learn => exact hs.learn _ _
  | drop count => exact { hs with stack := hs.stack.take count }
  | push hBefore hIn hKept => exact hs.addToFrame hIn

theorem Move.wellFormed (h : Move told p n s t) (hs : s.WellFormed p) : t.WellFormed p := by
  cases h with
  | work h => exact h.wellFormed hs
  | «begin» hEmpty => exact hs.begin hEmpty
  | addFrame hSome => exact hs.addFrame hSome
  | simplify => exact hs.simplify
  | iterate => exact { hs with }

/-- **No moves spoil the shape of a state.** -/
theorem Steps.wellFormed (h : Steps (Move told p) n s t) (hs : s.WellFormed p) : t.WellFormed p :=
  h.keeps (fun _ _ _ hMove => hMove.wellFormed) hs

end Frames

/-! ## Counters -/

section Counters

variable {told : Question → Verdict → Prop} {p : Program} {n : Nat} {s t : SearchState}

end Counters

/-! ## Courses -/

section Courses

theorem foldl_insertNew (kept : List Formula) {fs : List Formula} (h : (kept ++ fs).Nodup) :
    fs.foldl (fun kept f => insertNew f kept) kept = kept ++ fs := by
  induction fs generalizing kept with
  | nil => rw [foldl_nil, append_nil]
  | cons f fs ih =>
    have hNew : f ∉ kept := fun hf =>
      disjoint_of_nodup_append h hf mem_cons_self
    rw [foldl_cons, insertNew, if_neg (by rwa [contains_iff_mem])]
    rw [append_cons kept f fs] at h ⊢
    exact ih _ h

theorem SearchState.WellFormed.normalize_eq {s : SearchState} (h : s.WellFormed p) :
    s.normalize = s := by
  have hFrames : s.frames.map distinctFormulas = s.frames := by
    refine (map_congr_left fun frame hFrame => ?_).trans (map_id s.frames)
    obtain ⟨i, hi⟩ := getElem?_of_mem hFrame
    exact foldl_insertNew [] (h.nodup i frame hi)
  have hLog : distinctFormulas s.log = s.log := foldl_insertNew [] h.log_nodup
  rw [normalize, hFrames, hLog]

namespace Search

open WorkM

/-- A search begins: it is new, or goes on from a state of the right shape. -/
inductive Begins (p : Program) : Session × Search → Prop
  | fresh {session : Session} {options : SearchOptions} {search : Search}
      (hProgram : session.program = p) (hNew : Search.new p options = .ok search) :
      Begins p (session, search)
  | restored {s t : Session × Search} {state : SearchState} (hProgram : s.1.program = p)
      (hShape : state.WellFormed p) (hTallied : state.Tallied)
      (hRun : restore state s = .ok () t) : Begins p t

theorem state_of_new {options : SearchOptions} {search : Search}
    (h : Search.new p options = .ok search) : search.state = .empty := by
  obtain ⟨safety, -, hNew⟩ := bind_eq_ok.mp h
  cases hNew
  rfl

theorem own_of_restore {s t : Session × Search} {state : SearchState}
    (h : restore state s = .ok () t) :
    s.1.Continues t.1 ∧ t.2 = { s.2 with state := state.normalize } := by
  unfold restore at h
  split at h
  · cases h
  · have hRun : (resting False).Ensures (logging fun log => log.progress fun _ =>
        "Restored " ++ toString state.normalize.frames.length ++ " frames, " ++
          toString state.normalize.log.length ++ " predicates and " ++
          toString state.normalize.obligations.length ++ " obligations\n")
        (s.1, { s.2 with state := state.normalize })
        fun _ t => t.2 = { s.2 with state := state.normalize } := logging_rests _
    have hEnd := hRun.ok h
    exact ⟨hEnd.1.session, hEnd.2⟩

theorem Begins.wellFormed {first : Session × Search} (h : Begins p first) :
    first.1.program = p ∧ first.2.state.WellFormed p ∧ first.2.state.Tallied := by
  cases h with
  | fresh hProgram hNew =>
    rw [state_of_new hNew]
    exact ⟨hProgram, wellFormed_empty p, tallied_empty⟩
  | restored hProgram hShape hTallied hRun =>
    obtain ⟨hContinues, hOwn⟩ := own_of_restore hRun
    rw [hOwn]
    dsimp only
    rw [hShape.normalize_eq]
    exact ⟨hContinues.program.trans hProgram, hShape, hTallied⟩

/-- A lamp that is not broken at first, and that is used without breaking. -/
def lamp : Program :=
  { Program.empty with
    symbols := [⟨"broken", .relation [] none, true⟩]
    inits := [⟨"", .not (.id "broken")⟩]
    transitions := [⟨"use", [], .empty, .bool true⟩]
    invariants := [⟨⟨"works", .not (.id "broken")⟩, true⟩]
    validated := true }

/-- A model in which the lamp is broken. -/
def brokenModel : SolverModel := ⟨[], [("s0_broken", ⟨[([], .bool true)], none⟩)]⟩

/-- The verdicts on the queries about the lamp: there is a broken lamp in the last frame, it
has no predecessor, without its literal it would have one, and then nothing is left. -/
def lampVerdicts : List Verdict :=
  [.unsat none, .sat brokenModel, .unsat none, .unsat none, .sat .empty, .unsat none, .unsat none]

/-- A session about a program in which some verdicts are given in turn. -/
def sessionOf (p : Program) (verdicts : List Verdict) : Session :=
  ⟨p, "", .start .standard ⟨verdicts.map fun v => ⟨v, false⟩, none⟩ false (.new .empty), []⟩

/-- The search without unsatisfiable cores that has not begun. -/
def coreless (safety : Formula) : Search :=
  ⟨{ SearchOptions.standard with useCores := false }, safety, [safety], .new false, .empty, .zero⟩

end Search

end Courses

end InvariantSearch
