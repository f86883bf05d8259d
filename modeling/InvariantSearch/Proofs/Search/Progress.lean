import InvariantSearch.Proofs.Search.Unwinding
import Mathlib.Logic.Relation

/-!
# Progress

An obligation that is discharged leaves a predicate in the frames up to its own. Where verdicts
and models are true, that predicate is new: the state of the obligation met all that its frame
asked for, and the predicate excludes it.

An obligation may wait while others above it on the stack are worked on. Those are in lower
frames, so its own frame gets nothing meanwhile.

* `Search.TakenFrom` — a diagram is that of a state which a model showed.
* `Search.Progresses` — one stage of a search, in which a frame grows if anything is learned.
* `Search.Settled` — the invariant: each obligation was taken from a state of its frame.

Main result: `progresses_of_run`, about every run of a new search.
-/

namespace InvariantSearch

open Discipline List SearchState Diagram

variable {p : Program} {states index : Nat} {f before : Formula} {step : Option Transition}
  {simplify : Bool} {trace : Trace}

namespace Search

open WorkM

/-! ## Where diagrams come from -/

/-- A diagram is that of a state of the program. The trace that tells it was read from a model
which the session was given, and has got names for its steps since. -/
structure TakenFrom (p : Program) (s : Session) (d : Diagram) (trace : Trace) (index : Nat) :
    Prop where
  shown : ∃ query answer m read names, s.prover.Recorded query answer ∧ answer.verdict = .sat m ∧
    Encoding.readModel ⟨p, s.label, stepKeys query.question.states⟩ m = .ok read ∧
    trace = { read with transitions := names }
  portrays : ∃ states, index < states ∧ trace.Portrays p states
  diagram : ∃ simplify, ofTrace p trace index simplify = .ok d

/-- One stage of a search. -/
inductive Progresses (p : Program) (s : Session × Search) : Session × Search → Prop
  /-- Moves are made that learn nothing, so neither the log nor the counter changes. -/
  | rests {t : Session × Search} (hSession : s.1.Continues t.1)
      (hMoves : Steps (Move t.1.Told p) 0 s.2.state t.2.state)
      (hNone : t.2.state.log = s.2.state.log ∧ t.2.state.learned = s.2.state.learned) :
      Progresses p s t
  /-- Work on the obligation on top of the stack learns a predicate. It does not hold in the state
  that the obligation was taken from, where all predicates of the frame hold. So it is new there,
  and the frame gets it. The obligation is discharged, unless a check fails before. -/
  | learns {o : Obligation} {trace : Trace} {index : Nat} {frame : List Formula}
      {predicate : Formula} {t : Session × Search}
      (hTop : s.2.state.obligations.getLast? = some o)
      (hWork : t = left (processTop (s.2.state.obligations.length - 1) o s))
      (hTaken : TakenFrom p s.1 o.diagram trace index)
      (hFrame : s.2.state.frames[o.frame]? = some frame)
      (hHolds : ∀ f ∈ frame, f.HoldsIn (trace.meaning p index))
      (hExcludes : ¬ predicate.HoldsIn (trace.meaning p index)) (hNew : predicate ∉ frame)
      (hGrows : t.2.state.frames[o.frame]? = some (frame ++ [predicate]))
      (hLearned : t.2.state = s.2.state.learn predicate o.frame ∨
        t.2.state = (s.2.state.learn predicate o.frame).popObligation) : Progresses p s t

theorem unlearned_of_move {told : Question → Verdict → Prop} {a b : SearchState}
    (h : Move told p 0 a b) : b.log = a.log ∧ b.learned = a.learned := by
  cases h with
  | work h => cases h <;> exact ⟨rfl, rfl⟩
  | _ => exact ⟨rfl, rfl⟩

theorem Still.progresses {s t : Session × Search} (h : Still s t) : Progresses p s t :=
  .rests h.session (h.state ▸ .refl _) (h.state ▸ ⟨rfl, rfl⟩)

theorem progresses_of_move {s t : Session × Search} (hst : s.1.Continues t.1)
    (hMove : Move t.1.Told p 0 s.2.state t.2.state) : Progresses p s t :=
  .rests hst (.single hMove) (unlearned_of_move hMove)

section Taken

variable {p : Program} {s t : Session} {d small : Diagram} {trace : Trace} {index : Nat}

theorem TakenFrom.of_continues (h : TakenFrom p s d trace index) (hst : s.Continues t) :
    TakenFrom p t d trace index := by
  obtain ⟨query, answer, m, read, names, hRecorded, hRest⟩ := h.shown
  refine ⟨⟨query, answer, m, read, names, hst.recorded.subset hRecorded, ?_⟩, h.portrays, h.diagram⟩
  rw [hst.label]
  exact hRest

theorem takenFrom_of_pictures {label : String} {base : List Term}
    (h : s.Pictures p label base states f step trace) (hLabel : s.label = label)
    (hPortrays : trace.Portrays p states) (hIndex : index < states)
    (hd : ofTrace p trace index simplify = .ok d) : TakenFrom p s d trace index := by
  subst hLabel
  refine ⟨?_, ⟨states, hIndex, hPortrays⟩, simplify, hd⟩
  obtain ⟨m, needed, read, hm, -, -, -, -, hRead, names, rfl⟩ := h
  obtain ⟨query, answer, hRecorded, hVerdict, rfl, -⟩ := hm
  exact ⟨query, answer, m, read, names, hRecorded, hVerdict, hRead, rfl⟩

variable (hProper : Session.Proper p)

include hProper

theorem TakenFrom.wellSorted (h : TakenFrom p s d trace index) : d.WellSorted p := by
  obtain ⟨states, hIndex, hPortrays⟩ := h.portrays
  obtain ⟨simplify, hd⟩ := h.diagram
  exact wellSorted_ofTrace (hPortrays.tabulates index hIndex) hProper.declared.nodup_names
    hPortrays.sorts hd

/-- **A predicate of some literals of a diagram excludes the state it was taken from.** -/
theorem TakenFrom.not_holdsIn (h : TakenFrom p s d trace index) (hThins : small.Thins d) :
    ¬ small.toPredicate.HoldsIn (trace.meaning p index) := by
  obtain ⟨states, hIndex, hPortrays⟩ := h.portrays
  obtain ⟨simplify, hd⟩ := h.diagram
  have hTold := hPortrays.tabulates index hIndex
  -- the state is an extension of itself
  have hSelf : d.toFormula.HoldsIn (trace.meaning p index) :=
    (holdsIn_iff_embeds hTold hProper.declared.nodup_names hProper.checked.symbols hd
      (fun a => ⟨a, rfl⟩) fun x hx _ => (hPortrays.isState index hIndex).fits x hx).mpr
        ⟨id, trace.embeds_self p index⟩
  rw [holdsIn_toPredicate, not_not]
  exact hThins.holdsIn_toFormula hSelf

theorem TakenFrom.sorted (h : TakenFrom p s d trace index) (hThins : small.Thins d) :
    p.Sorted .singleState small.toPredicate := by
  refine ((h.wellSorted hProper).of_formulas hThins.vars fun c hc => ?_).sorted_toPredicate
  obtain ⟨c', hc', hEq⟩ := hThins.formula_mem hc
  exact ⟨c', hc', hEq.symm⟩

end Taken

/-! ## Settled searches -/

/-- An obligation was taken from a state in which all predicates of its frame hold. -/
def Sourced (p : Program) (s : Session × Search) (o : Obligation) : Prop :=
  ∃ trace index, TakenFrom p s.1 o.diagram trace index ∧
    ∀ frame, s.2.state.frames[o.frame]? = some frame →
      ∀ f ∈ frame, f.HoldsIn (trace.meaning p index)

/-- What holds between the stages of a search. -/
structure Settled (p : Program) (s : Session × Search) : Prop where
  sorted : ∀ f ∈ s.2.state.log, p.Sorted .singleState f
  sourced : ∀ o ∈ s.2.state.obligations, Sourced p s o

section Settled

variable {p : Program} {s t : Session × Search} {o : Obligation}

theorem Sourced.of_continues (h : Sourced p s o) (hst : s.1.Continues t.1)
    (hKept : ∀ frame, t.2.state.frames[o.frame]? = some frame → ∀ f ∈ frame,
      ∃ old, s.2.state.frames[o.frame]? = some old ∧ f ∈ old) : Sourced p t o := by
  obtain ⟨trace, index, hTaken, hHolds⟩ := h
  refine ⟨trace, index, hTaken.of_continues hst, fun frame hFrame f hf => ?_⟩
  obtain ⟨old, hOld, hf⟩ := hKept frame hFrame f hf
  exact hHolds old hOld f hf

theorem Settled.of_still (h : Settled p s) (hst : Still s t) : Settled p t := by
  refine ⟨hst.state ▸ h.sorted, fun o ho => ?_⟩
  rw [hst.state] at ho
  refine (h.sourced o ho).of_continues hst.session fun frame hFrame f hf => ⟨frame, ?_, hf⟩
  rw [← hst.state]
  exact hFrame

theorem Settled.sorted_frameFormula (h : Settled p s) (hProper : Session.Proper p)
    (hShape : s.2.state.WellFormed p) (hf : frameFormula p s.2.state index = .ok f) :
    p.Sorted .singleState f := by
  obtain ⟨frame, hFrame, rfl⟩ := frameFormula_eq_ok hf
  have hSorted : ∀ g ∈ frame, p.Sorted .singleState g := fun g hg =>
    h.sorted g (hShape.logged index frame hFrame g hg)
  refine .conj fun g hg => ?_
  split at hg
  · rcases mem_cons.mp hg with rfl | hg
    · exact hProper.checked.sorted_initial
    · exact hSorted g hg
  · exact hSorted g hg

theorem frame_lt_of_chained {frames : Nat} {stack : List Obligation} {top : Obligation}
    (h : Chained p frames stack) (hTop : stack.getLast? = some top) :
    ∀ o ∈ stack.dropLast, top.frame < o.frame := by
  intro o ho
  rw [← mem_reverse, ← tail_reverse] at ho
  obtain ⟨k, hk⟩ := getElem?_of_mem ho
  rw [getElem?_tail] at hk
  have hFrame := frame_of_chain h hTop (k + 1) o hk
  omega

end Settled

/-! ## Stages -/

/-- What is known of a search that began in some state, where all it was told is true. -/
structure Ongoing (p : Program) (first s : Session × Search) : Prop where
  sited : Sited p first
  session : first.1.Continues s.1
  shape : s.2.state.WellFormed p
  approximates : OverApproximates p s.2.state
  settled : Settled p s

section Stages

variable {p : Program} {first s t : Session × Search} {o : Obligation} {small : Diagram}

theorem Ongoing.program (h : Ongoing p first s) : s.1.program = p :=
  h.session.program.trans h.sited.program

/-- The trace that a query about a frame shows tells states of the program, the first one of
which is in the frame. -/
theorem Ongoing.portrays (h : Ongoing p first s) (hst : s.1.Continues t.1) (hHonest : Honest p t.1)
    (hApart : t.1.NamesApart) (hBefore : frameFormula p s.2.state index = .ok before)
    (hPictures : t.1.Pictures p first.1.label first.1.prover.base states before step trace)
    (hStates : 0 < states) (hWord : states ≤ UInt32.size) :
    trace.Portrays p states ∧ before.HoldsIn (trace.meaning p 0) ∧
      ∀ r ∈ p.transitions, step = some r → 1 < states →
        Takes p r (trace.meaning p 0) (trace.meaning p 1) :=
  hPictures.portrays hHonest.faithful hApart (hst.program.trans h.program)
    (hst.label.trans h.session.label) h.sited.proper h.sited.base hStates hWord
    (h.settled.sorted_frameFormula h.sited.proper h.shape hBefore)

/-- **What a query about a frame shows is a source for an obligation there.** -/
theorem Ongoing.sourced (h : Ongoing p first s) (hst : s.1.Continues t.1) (hHonest : Honest p t.1)
    (hApart : t.1.NamesApart) (hBefore : frameFormula p s.2.state o.frame = .ok before)
    (hPictures : t.1.Pictures p first.1.label first.1.prover.base states before none trace)
    (hStates : 0 < states) (hWord : states ≤ UInt32.size)
    (hDiagram : ofTrace p trace 0 simplify = .ok o.diagram)
    (hFrames : t.2.state.frames = s.2.state.frames) : Sourced p t o := by
  obtain ⟨hPortrays, hHolds, -⟩ := h.portrays hst hHonest hApart hBefore hPictures hStates hWord
  refine ⟨trace, 0, takenFrom_of_pictures hPictures (hst.label.trans h.session.label) hPortrays
    hStates hDiagram, fun frame hFrame => ?_⟩
  obtain ⟨frame', hFrame', rfl⟩ := frameFormula_eq_ok hBefore
  rw [hFrames, hFrame'] at hFrame
  obtain rfl := Option.some.inj hFrame
  exact (holdsIn_frame.mp hHolds).2

/-- **What is learned is new.** -/
theorem Ongoing.learns (h : Ongoing p first s)
    (hTop : s.2.state.obligations.getLast? = some o)
    (hWork : t = left (processTop (s.2.state.obligations.length - 1) o s))
    (hThins : small.Thins o.diagram)
    (hLearned : t.2.state = s.2.state.learn small.toPredicate o.frame ∨
      t.2.state = (s.2.state.learn small.toPredicate o.frame).popObligation) :
    Progresses p s t := by
  have ho := mem_of_getLast? hTop
  obtain ⟨trace, index, hTaken, hHolds⟩ := h.settled.sourced o ho
  obtain ⟨frame, hFrame⟩ : ∃ frame, s.2.state.frames[o.frame]? = some frame :=
    ⟨_, getElem?_eq_getElem (h.shape.stack.frame_lt o ho)⟩
  have hExcludes := hTaken.not_holdsIn h.sited.proper hThins
  -- the state that is excluded was not excluded before
  have hNew : small.toPredicate ∉ frame := fun hIn => hExcludes (hHolds frame hFrame _ hIn)
  have hGrows : (s.2.state.learn small.toPredicate o.frame).frames[o.frame]? =
      some (frame ++ [small.toPredicate]) := by
    rw [getElem?_learn, hFrame, Option.map_some, if_pos (Nat.le_refl _), insertNew, if_neg]
    rwa [contains_iff_mem]
  refine .learns hTop hWork hTaken hFrame (hHolds frame hFrame) hExcludes hNew ?_ hLearned
  rcases hLearned with hState | hState
  · rw [hState]
    exact hGrows
  · rw [hState]
    exact hGrows

/-- **Work on the top of the stack makes progress**, or nothing is learned, also if it fails. -/
theorem Worked.progresses {done : Bool} (h : Worked s o done t) (hs : Ongoing p first s)
    (hTop : s.2.state.obligations.getLast? = some o) (hFrame : o.frame ≠ 0)
    (hWork : t = left (processTop (s.2.state.obligations.length - 1) o s)) :
    Progresses p s t := by
  cases h with
  | kept h => exact h.progresses
  | pushed _ hWay _ hPictures hDiagram h =>
    rw [hs.program] at hWay hPictures hDiagram
    refine progresses_of_move h.session ?_
    rw [h.state]
    exact .work (.descend hTop hFrame hWay ⟨_, 0, _, hPictures.fits, hDiagram⟩)
  | learned _ hThins _ _ h => exact hs.learns hTop hWork hThins (Or.inl h.state)
  | discharged _ hThins _ _ h => exact hs.learns hTop hWork hThins (Or.inr h.state)

/-- **Work on the top of the stack leaves a search settled.** -/
theorem Worked.settled (h : Worked s o true t) (hs : Ongoing p first s)
    (hTop : s.2.state.obligations.getLast? = some o) (hHonest : Honest p t.1)
    (hApart : t.1.NamesApart) : Settled p t := by
  cases h with
  | pushed hBefore _ _ hPictures hDiagram h =>
    rw [hs.program] at hBefore hPictures hDiagram
    rw [hs.session.label] at hPictures
    have hFrames : t.2.state.frames = s.2.state.frames := by rw [h.state]; rfl
    refine ⟨by rw [h.state]; exact hs.settled.sorted, ?_⟩
    rw [h.state]
    refine forall_mem_append.mpr ⟨fun o' ho' => ?_, forall_mem_singleton.mpr ?_⟩
    · refine (hs.settled.sourced o' ho').of_continues h.session fun frame hFrame f hf => ?_
      exact ⟨frame, hFrames ▸ hFrame, hf⟩
    · exact hs.sourced h.session hHonest hApart hBefore
        (hPictures.of_recordedIn (suffix_refl _) fun _ hu => hs.session.base.subset hu)
        (by decide) (by decide) hDiagram hFrames
  | discharged _ hThins _ _ h =>
    obtain ⟨trace, index, hTaken, -⟩ := hs.settled.sourced o (mem_of_getLast? hTop)
    refine ⟨fun f hf => ?_, fun o' ho' => ?_⟩
    · rw [h.state] at hf
      rcases mem_insertNew.mp hf with rfl | hf
      · exact hTaken.sorted hs.sited.proper hThins
      · exact hs.settled.sorted f hf
    · -- the frames of those that are left are above the one in which something was learned
      rw [h.state] at ho'
      have hAbove := frame_lt_of_chained hs.shape.stack hTop o' ho'
      refine (hs.settled.sourced o' (dropLast_subset _ ho')).of_continues h.session
        fun frame hFrame f hf => ⟨frame, ?_, hf⟩
      rw [h.state] at hFrame
      change (s.2.state.learn _ o.frame).frames[o'.frame]? = some frame at hFrame
      rw [getElem?_learn] at hFrame
      obtain ⟨old, hOld, rfl⟩ := Option.map_eq_some_iff.mp hFrame
      rw [if_neg (by omega)]
      exact hOld

theorem Leg.continues (h : Leg first s t) : s.1.Continues t.1 := by
  cases h with
  | quiet hErrand hDone => exact (hErrand.still.ok hDone).1.session
  | work hTop hFrame hDone =>
    exact (((processTop_still hTop).ok hDone).2.follows hTop hFrame).session
  | _ => exact .refl _

/-- **Each leg is a stage**, and leaves a search settled. -/
theorem Leg.progresses (h : Leg first s t) (hs : Ongoing p first s) (hHonest : Honest p t.1)
    (hApart : t.1.NamesApart) : Progresses p s t ∧ Settled p t := by
  cases h with
  | quiet hErrand hDone =>
    have hStill := (hErrand.still.ok hDone).1
    exact ⟨hStill.progresses, hs.settled.of_still hStill⟩
  | move hMove hStack hKept =>
    rw [hs.program] at hMove
    refine ⟨progresses_of_move (.refl _) hMove, fun f hf => ?_, fun o ho => ?_⟩
    · exact hs.settled.sorted f ((unlearned_of_move hMove).1 ▸ hf)
    · rcases hKept with hEmpty | hNone
      · rw [hEmpty] at ho
        cases ho
      · exact (hs.settled.sourced o (hStack.isPrefix.subset ho)).of_continues (.refl _)
          fun frame hFrame f hf => hNone o.frame frame hFrame f hf
  | bad hEmpty hLast hBefore _ hPictures hDiagram =>
    rw [hs.sited.program] at hBefore hPictures hDiagram
    have hPictures := hPictures _ (Or.inl rfl)
    refine ⟨progresses_of_move (.refl _) (.work (.root hEmpty (by omega)
      ⟨_, 0, _, hPictures.fits, hDiagram⟩)), hs.settled.sorted, ?_⟩
    dsimp only [pushObligation]
    rw [hEmpty, nil_append, forall_mem_singleton]
    exact hs.sourced (.refl _) hHonest hApart hBefore hPictures (by decide) (by decide) hDiagram rfl
  | leak hEmpty hIndex hBefore hr hPictures hDiagram =>
    rw [hs.sited.program] at hBefore hr hPictures hDiagram
    refine ⟨progresses_of_move (.refl _) (.work (.root hEmpty hIndex
      ⟨_, 1, _, hPictures.fits, hDiagram⟩)), hs.settled.sorted, ?_⟩
    dsimp only [pushObligation]
    rw [hEmpty, nil_append, forall_mem_singleton]
    obtain ⟨hPortrays, hHolds, hStep⟩ :=
      hs.portrays (.refl _) hHonest hApart hBefore hPictures (by decide) (by decide)
    refine ⟨_, 1, takenFrom_of_pictures hPictures hs.session.label hPortrays (by decide) hDiagram,
      fun next hNext => ?_⟩
    -- the frame before leads into this one
    exact hs.approximates.step _ hPortrays.inhabits _ _ next hBefore hNext _ hr _ _
      (hPortrays.isState 0 (by decide)) (hPortrays.isState 1 (by decide)) hHolds
      (hStep _ hr rfl (by decide))
  | work hTop hFrame hDone =>
    have hWorked := ((processTop_still hTop).ok hDone).2
    exact ⟨hWorked.progresses hs hTop hFrame (by rw [hDone]; rfl),
      hWorked.settled hs hTop hHonest hApart⟩

/-! ## Runs -/

/-- The account of a search that makes progress, where all it is told is true. -/
def advancing (p : Program) (first : Session × Search) : Account where
  first := first
  Holds t := Honest p t.1 → t.1.NamesApart →
    Relation.ReflTransGen (Progresses p) first t ∧ Settled p t
  Fails _ t := Honest p t.1 → t.1.NamesApart → Relation.ReflTransGen (Progresses p) first t

variable (hSited : Sited p first) (hEmpty : first.2.state = .empty)

include hSited hEmpty

theorem advancing_ongoing (hs : (advancing p first).At s) (hst : s.1.Continues t.1)
    (hHonest : Honest p t.1) (hApart : t.1.NamesApart) :
    Relation.ReflTransGen (Progresses p) first s ∧ Ongoing p first s := by
  obtain ⟨hFollows, hHolds⟩ := hs
  have hHonestS := hHonest.of_recordedIn hst.recorded hst.program hst.label
  obtain ⟨hPath, hSettled⟩ :=
    hHolds hHonestS (hApart.of_recordedIn hst.recorded hst.program hst.label)
  obtain ⟨n, hSteps, -⟩ := hFollows.moves
  change Steps (Move s.1.Told first.1.program) n first.2.state s.2.state at hSteps
  rw [hSited.program, hEmpty] at hSteps
  exact ⟨hPath, hSited, hFollows.session, hSteps.wellFormed (wellFormed_empty p),
    overApproximates_of_steps hSteps hSited.proper.declared.nodup_names hHonestS.truthful.trusted,
    hSettled⟩

theorem advancing_sound : (advancing p first).Sound where
  leg hs hLeg hHonest hApart := by
    obtain ⟨hPath, hOngoing⟩ := advancing_ongoing hSited hEmpty hs hLeg.continues hHonest hApart
    obtain ⟨hNext, hSettled⟩ := hLeg.progresses hOngoing hHonest hApart
    exact ⟨hPath.tail hNext, hSettled⟩
  errand hs hErrand hRun hHonest hApart := by
    have hStill := (hErrand.still.error hRun).1
    obtain ⟨hPath, -⟩ := advancing_ongoing hSited hEmpty hs hStill.session hHonest hApart
    exact hPath.tail hStill.progresses
  work hs hTop hFrame hRun hHonest hApart := by
    have hWorked := ((processTop_still hTop).error hRun).1 (.kept (.refl _))
    obtain ⟨hPath, hOngoing⟩ := advancing_ongoing hSited hEmpty hs
      (hWorked.follows hTop hFrame).session hHonest hApart
    exact hPath.tail (hWorked.progresses hOngoing hTop hFrame (by rw [hRun]; rfl))
  outOfFuel hs hHonest hApart :=
    (advancing_ongoing hSited hEmpty hs (.refl _) hHonest hApart).1

omit hSited in
theorem settled_of_empty : Settled p first := by
  constructor
  · rw [hEmpty]
    intro f hf
    cases hf
  · rw [hEmpty]
    intro o ho
    cases ho

theorem progresses_explore (fuel : Nat)
    (hHonest : Honest p (left (explore fuel first)).1)
    (hApart : (left (explore fuel first)).1.NamesApart) :
    Relation.ReflTransGen (Progresses p) first (left (explore fuel first)) := by
  have hWalks := explore_walks (s := first) (advancing_sound hSited hEmpty) fuel
    ⟨following.refl first, fun _ _ => ⟨.refl, settled_of_empty hEmpty⟩⟩
  cases hExplore : explore fuel first with
  | ok ending t =>
    rw [hExplore] at hHonest hApart
    exact ((hWalks.ok hExplore).2.1.2 hHonest hApart).1
  | error e t =>
    rw [hExplore] at hHonest hApart
    exact (hWalks.error hExplore).2 hHonest hApart

end Stages

/-- **Every discharged obligation makes progress.** In each run of a new search in which all
verdicts are right, all models true and their elements named apart, whether the run ends or
fails: whenever work on an obligation learns a predicate, that predicate does not hold in the
state that the diagram of the obligation was taken from, and all predicates of its frame do. So
the predicate was not in the frame, and the frame grows by it. -/
theorem progresses_of_run {p : Program} (hDeclared : p.Declared) {label : String}
    {prover : ProverOptions} {script : Script} {heedsInterrupts : Bool} {log : Log}
    {session : Session} {options : SearchOptions} {search : Search}
    (hStart : Session.start p label (.start prover script heedsInterrupts log) = .ok () session)
    (hNew : Search.new p options = .ok search) (fuel : Nat)
    (hHonest : Honest p (left (run fuel (session, search))).1)
    (hApart : (left (run fuel (session, search))).1.NamesApart) :
    Relation.ReflTransGen (Progresses p) (session, search)
      (left (run fuel (session, search))) := by
  have hSited := (Opened.fresh hStart hNew).sited hDeclared
  have hStill := run_still fuel (session, search)
  have hPath := progresses_explore hSited (state_of_new hNew) fuel
    (hHonest.of_recordedIn hStill.session.recorded hStill.session.program hStill.session.label)
    (hApart.of_recordedIn hStill.session.recorded hStill.session.program hStill.session.label)
  exact hPath.tail hStill.progresses

/-- The session about the lamp that has started. -/
def lampSession : Session :=
  left (Session.start lamp ""
    (.start .standard ⟨lampVerdicts.map fun v => ⟨v, false⟩, none⟩ true (.new .empty)))

/-- The lamp's search learns one predicate, which excludes the broken lamp. -/
theorem progresses_of_run_lamp :
    let u := left (run 5 (lampSession, coreless (.not (.id "broken"))))
    Honest lamp u.1 ∧ u.1.NamesApart ∧ u.2.state.learned = 1 ∧
      Relation.ReflTransGen (Progresses lamp) (lampSession, coreless (.not (.id "broken"))) u := by
  intro u
  have hSpec : u.1.Faithful ∧ u.1.verdicts = lampRecord ∧ u.1.NamesApart ∧
      u.2.state.learned = 1 := by
    decide +kernel
  obtain ⟨hFaithful, hVerdicts, hApart, hLearned⟩ := hSpec
  have hHonest : Honest lamp u.1 := honest_of_verdicts hFaithful fun entry hEntry =>
    truthful_lampRecord entry (hVerdicts ▸ hEntry)
  exact ⟨hHonest, hApart, hLearned, progresses_of_run lamp_declared rfl new_lamp 5 hHonest hApart⟩

end Search

end InvariantSearch
