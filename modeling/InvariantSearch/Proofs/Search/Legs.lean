import InvariantSearch.Proofs.Meaning.Clause
import InvariantSearch.Proofs.Search.Blocking
import InvariantSearch.Proofs.Search.Pictures

/-!
# The legs of a search

What a search does is told here once, leg by leg. Whatever is to be said about all its states or
all its failures can then be said about legs, and need not be followed through its functions.

* `Search.Leg` — what a search does at once: it changes nothing that it knows, makes a move
  that adds no obligation and learns nothing, puts a state on the empty stack, or works on the
  top of the stack.
* `Search.Errand` — what a search asks, writes or logs without changing what it knows.
* `Search.Account` — something to be said about the states of a search, and about what is left
  when it fails. It is sound if legs keep it, and failures of errands are as it says.
* `Search.Walks` — a part of a search is as an account says.

Main results: `Leg.follows` — legs are made of moves. `processTop_labors` — what the work on an
obligation can come to.
-/

namespace InvariantSearch

open Discipline SearchState Diagram Generalizer

variable {s : SearchState} {i : Nat} {frame pending : List Formula} {u : Session × Search}
  {f : SearchState → SearchState} {o : Obligation} {safety : Formula} {chain : List Obligation}
  {Sure : Prop}

theorem mem_addFrame (h : s.addFrame.frames[i]? = some frame) :
    s.frames[i]? = some frame ∨ frame = [] := by
  rw [addFrame, List.getElem?_append] at h
  split at h
  · exact Or.inl h
  · exact Or.inr (List.mem_singleton.mp (List.mem_of_getElem? h))

/-- A frame that is left after pruning has a part of what it had, with all that the next one
has left. -/
theorem sifted (h : s.simplify.frames[i]? = some frame) :
    ∃ old, s.frames[i]? = some old ∧ frame.Sublist old ∧
      ∀ next, s.simplify.frames[i + 1]? = some next → ∀ f ∈ old, f ∈ next → f ∈ frame := by
  rw [simplify, getElem?_siftFrames] at h
  obtain ⟨old, hOld, rfl⟩ := Option.map_eq_some_iff.mp h
  refine ⟨old, hOld, siftFrame_sublist _ [] old, fun next hNext f hOldf hf => ?_⟩
  rw [simplify] at hNext
  exact mem_siftFrame_of_mem (Or.inr ⟨hOldf, by rw [hNext]; exact hf⟩)

namespace Search

open WorkM

variable {t : SearchState}

/-! ## Work on the top of the stack -/

section Work

variable {t s : Session × Search} {o : Obligation} {done : Bool} {α : Type}

/-- What work on an obligation can come to: all of it that was to be done, or less if something
fails. -/
inductive Worked (s : Session × Search) (o : Obligation) : Bool → Session × Search → Prop
  | kept {t : Session × Search} (h : Still s t) : Worked s o false t
  /-- A predecessor is to be excluded first. -/
  | pushed {done : Bool} {t : Session × Search} {before : Formula} {trace : Trace}
      {simplify : Bool} {d : Diagram} {way : Option Transition}
      (hBefore : frameFormula s.1.program s.2.state (o.frame - 1) = .ok before)
      (hWay : way ∈ ways s.1.program) (hReached : Reached t.1.Told o.diagram)
      (hPictures : t.1.Pictures s.1.program s.1.label s.1.prover.base 2 before none trace)
      (hDiagram : ofTrace s.1.program trace 0 simplify = .ok d)
      (h : Still (s.1, { s.2 with
        state := s.2.state.pushObligation
          ⟨o.frame - 1, d, wayName way, (s.2.state.obligations.length - 1 : Nat), o.may⟩ }) t) :
      Worked s o done t
  /-- A predicate is learned, and its check failed. -/
  | learned {t : Session × Search} {before : Formula} {small : Diagram}
      (hBefore : frameFormula s.1.program s.2.state (o.frame - 1) = .ok before)
      (hThins : small.Thins o.diagram) (hIsolated : Isolated t.1.Told s.1.program before small)
      (hAsked : s.1.asked + 1 ≤ t.1.asked)
      (h : Still (s.1, { s.2 with state := s.2.state.learn small.toPredicate o.frame }) t) :
      Worked s o false t
  /-- A predicate is learned, and the obligation is discharged. -/
  | discharged {done : Bool} {t : Session × Search} {before : Formula} {small : Diagram}
      (hBefore : frameFormula s.1.program s.2.state (o.frame - 1) = .ok before)
      (hThins : small.Thins o.diagram) (hIsolated : Isolated t.1.Told s.1.program before small)
      (hAsked : s.1.asked + 1 ≤ t.1.asked)
      (h : Still (s.1, { s.2 with
        state := (s.2.state.learn small.toPredicate o.frame).popObligation }) t) :
      Worked s o done t

theorem Still.change (h : Still s t) (f : SearchState → SearchState) :
    Still (s.1, { s.2 with state := f s.2.state }) (t.1, { t.2 with state := f t.2.state }) :=
  ⟨h.session, h.options, h.safety, h.properties, congrArg f h.state, h.inForce⟩

theorem Worked.of_still (h : Worked s o done t) (htu : Still t u) : Worked s o done u := by
  have hTold : ∀ q v, t.1.Told q v → u.1.Told q v := fun _ _ hTold =>
    hTold.of_recordedIn htu.session.recorded
  have hAsked := htu.session.recorded.asked_le
  cases h with
  | kept h => exact .kept (h.trans htu)
  | pushed hBefore hWay hReached hPictures hDiagram h =>
    exact .pushed hBefore hWay (hReached.mono hTold)
      (hPictures.of_recordedIn htu.session.recorded fun _ h => h) hDiagram (h.trans htu)
  | learned hBefore hThins hIsolated hLe h =>
    exact .learned hBefore hThins (hIsolated.mono hTold) (Nat.le_trans hLe hAsked) (h.trans htu)
  | discharged hBefore hThins hIsolated hLe h =>
    exact .discharged hBefore hThins (hIsolated.mono hTold) (Nat.le_trans hLe hAsked)
      (h.trans htu)

theorem work_popObligation {told : Question → Verdict → Prop} {p : Program}
    (state : SearchState) : Work told p 0 state state.popObligation := by
  rw [popObligation, List.dropLast_eq_take]
  exact .drop _

/-- **Work on the top of the stack is made of moves.** -/
theorem Worked.follows (h : Worked s o done t) (hTop : s.2.state.obligations.getLast? = some o)
    (hFrame : o.frame ≠ 0) : Follows s t := by
  cases h with
  | kept h => exact h.follows
  | pushed hBefore hWay hReached hPictures hDiagram h =>
    refine ⟨h.session, h.options, h.safety, h.properties,
      ⟨0, ?_, h.session.recorded.asked_le⟩, stems_of_push hTop hReached h.state⟩
    rw [h.state]
    exact .single (.work (.descend hTop hFrame hWay ⟨_, 0, _, hPictures.fits, hDiagram⟩))
  | learned hBefore hThins hIsolated hAsked h =>
    refine ⟨h.session, h.options, h.safety, h.properties, ⟨1, ?_, hAsked⟩,
      stems_of_beginning ?_⟩
    · rw [h.state]
      exact .single (.work (.learn hTop hFrame hBefore hThins hIsolated))
    · rw [h.state]
      exact List.prefix_refl _
  | discharged hBefore hThins hIsolated hAsked h =>
    refine ⟨h.session, h.options, h.safety, h.properties, ⟨1, ?_, hAsked⟩,
      stems_of_beginning ?_⟩
    · rw [h.state]
      exact Steps.trans (.single (Move.work (.learn hTop hFrame hBefore hThins hIsolated)))
        (.single (Move.work (work_popObligation _)))
    · rw [h.state]
      exact List.dropLast_prefix _

theorem Worked.gains (h : Worked s o done t) : Gains s.2.state t.2.state := by
  cases h with
  | kept h => exact h.state ▸ .refl _
  | pushed _ _ _ _ _ h => exact h.state ▸ .refl _
  | learned _ _ _ _ h => exact h.state ▸ gains_learn _ _ _
  | discharged _ _ _ _ h => exact h.state ▸ gains_learn _ _ _

theorem Worked.may (h : Worked s o done t) (hTop : s.2.state.obligations.getLast? = some o)
    (hMay : ∀ o ∈ s.2.state.obligations, o.may = true) :
    ∀ o ∈ t.2.state.obligations, o.may = true := by
  cases h with
  | kept h => exact h.state ▸ hMay
  | pushed _ _ _ _ _ h =>
    rw [h.state]
    exact List.forall_mem_append.mpr ⟨hMay,
      List.forall_mem_singleton.mpr (hMay o (List.mem_of_getLast? hTop))⟩
  | learned _ _ _ _ h =>
    rw [h.state]
    exact hMay
  | discharged _ _ _ _ h =>
    rw [h.state]
    exact fun o' ho' => hMay o' (List.dropLast_subset _ ho')

theorem Worked.inForce (h : Worked s o done t) : t.1.prover.inForce = s.1.prover.inForce := by
  cases h with
  | kept h => exact h.inForce
  | pushed _ _ _ _ _ h => exact h.inForce
  | learned _ _ _ _ h => exact h.inForce
  | discharged _ _ _ _ h => exact h.inForce

/-- What computations keep to that are part of the work on an obligation. -/
def laboring (Sure : Prop) (s : Session × Search) (o : Obligation) :
    Discipline Error (Session × Search) where
  Leads t u := Worked s o false t → Worked s o false u
  Fails := (resting Sure).Fails
  refl _ h := h
  trans h h' := fun hWorked => h' (h hWorked)

variable {Sure : Prop}

theorem labors_of_rests {act : SearchM α} {Q : α → Session × Search → Prop}
    (h : (resting Sure).Ensures act t Q) :
    (laboring Sure s o).Ensures act t fun a u => Still t u ∧ Q a u :=
  h.change (fun _ _ hStill hQ => ⟨fun hWorked => hWorked.of_still hStill, hStill, hQ⟩)
    fun _ _ hStill hFails => ⟨fun hWorked => hWorked.of_still hStill, hFails⟩

theorem change_labors (h : Worked s o false (t.1, { t.2 with state := f t.2.state })) :
    (laboring Sure s o).Ensures (change f) t fun _ u =>
      u = (t.1, { t.2 with state := f t.2.state }) :=
  ⟨fun _ => h, rfl⟩

/-- **Work on the top of the stack** puts a predecessor on it that is pictured, or learns a
predicate of some of its literals and then takes the top off, unless something fails before. -/
theorem processTop_labors (hTop : s.2.state.obligations.getLast? = some o)
    (h : Sure → Footing s) :
    (laboring Sure s o).Ensures (processTop (s.2.state.obligations.length - 1) o) s fun _ t =>
      Worked s o true t := by
  have ho := List.mem_of_getLast? hTop
  refine (labors_of_rests (currentFormula_rests _ fun hSure =>
    Nat.lt_of_le_of_lt (Nat.sub_le _ _) ((h hSure).frame o ho))).bind fun before t _ ht => ?_
  obtain ⟨-, rfl, hBefore⟩ := ht
  have hAskable : ∀ final, Generalizer.Askable (.recording final Sure (span t)) t.1.program before
      o.diagram := fun final =>
    ⟨fun hSure => (h hSure).checked, fun hSure => (h hSure).resolves_frameFormula hBefore,
      fun hSure => (h hSure).diagrams o ho⟩
  refine (labors_of_rests (inGeneralizer_rests fun final => predecessor_ensures rfl
    (hAskable final) False.elim (Trust.sound_recording _ _ _ _))).bind fun answer u _ hu => ?_
  obtain ⟨htu, ⟨core, hSurveys, -⟩, -, hAsked⟩ := hu
  cases hFound : answer.predecessor with
  | some found =>
    rw [hFound] at hSurveys
    obtain ⟨way, hWay, hName, ⟨m, hTold⟩, hWanted, hPictures⟩ := hSurveys.pictured
      fun _ hBase => Prover.mem_inForce_of_mem_base hBase
    obtain ⟨transition, trace⟩ := found
    obtain ⟨shown, rfl⟩ := Option.ne_none_iff_exists'.mp (hWanted rfl)
    obtain rfl : transition = wayName way := hName
    refine (labors_of_rests (diagramOf_rests _ _)).bind fun d v _ hv => ?_
    obtain ⟨huv, -, simplify, hDiagram⟩ := hv
    rw [htu.session.program] at hDiagram
    have hPushed : ∀ done, Worked t o done (v.1, { v.2 with
        state := v.2.state.pushObligation
          ⟨o.frame - 1, d, wayName way, (t.2.state.obligations.length - 1 : Nat), o.may⟩ }) :=
      fun done => .pushed hBefore hWay
        ⟨_, _, way, m, hTold.of_recordedIn huv.session.recorded⟩
        ((hPictures shown rfl).of_recordedIn huv.session.recorded fun _ h => h) hDiagram
        ((htu.trans huv).change fun state => state.pushObligation _)
    refine (change_labors (hPushed false)).bind fun _ w _ hw => ?_
    rw [← hw] at hPushed
    refine (labors_of_rests (count_rests _)).bind fun _ x _ hx => ?_
    exact (labors_of_rests (logging_rests _)).imp fun _ y _ hy =>
      (hPushed true).of_still (hx.1.trans hy.1)
  | none =>
    rw [hFound] at hSurveys
    have hIsolatedU : Isolated u.1.Told u.1.program before o.diagram := by
      rw [htu.session.program]
      refine Isolated.mono (fun way hWay => ?_) fun q v => (toldBy_asks u.1 q v).mp
      exact (hSurveys.free (judges_recording _) rfl (Trust.kept_recording _ _ _)).1
        way hWay
    refine (labors_of_rests (inGeneralizer_rests fun final => generalize_isolates
      ?_ hIsolatedU)).bind fun small v _ hv => ?_
    · rw [htu.session.program]
      exact ⟨(hAskable final).checked, (hAskable final).frame, (hAskable final).diagram⟩
    obtain ⟨huv, hThins, hKeeps⟩ := hv
    have hIsolated : Isolated v.1.Told t.1.program before small := by
      rw [← htu.session.program]
      exact (hKeeps (Trust.kept_recording _ _ _)).mono
        fun q w => (toldBy_asks v.1 q w).mp
    have hAskedV := Nat.le_trans hAsked huv.session.recorded.asked_le
    have hLearned := (htu.trans huv).change fun state => state.learn small.toPredicate o.frame
    refine Ensures.bind (Q := fun _ w => Still (v.1, { v.2 with
      state := v.2.state.learn small.toPredicate o.frame }) w) ?_ fun _ w _ hvw => ?_
    · refine (change_labors (.learned hBefore hThins hIsolated hAskedV hLearned)).bind
        fun _ w _ hw => (labors_of_rests (logging_rests _)).imp fun _ x _ hx => ?_
      rw [← hw]
      exact hx.1
    · refine ensures_own ?_
      have hPop : ∀ y, Still w y → (laboring Sure t o).Ensures (change popObligation) y
          fun _ z => Worked t o true z := by
        intro y hwy
        have hvy := hvw.trans hwy
        have hDischarged : ∀ done, Worked t o done
            (y.1, { y.2 with state := y.2.state.popObligation }) := fun done =>
          .discharged hBefore hThins
            (hIsolated.mono fun _ _ hTold => hTold.of_recordedIn hvy.session.recorded)
            (Nat.le_trans hAskedV hvy.session.recorded.asked_le) ((hLearned.trans hvy).change _)
        refine (change_labors (hDischarged false)).imp fun _ z _ hz => ?_
        rw [hz]
        exact hDischarged true
      have htw := hLearned.trans hvw
      refine ensures_ite (fun _ => ?_) fun _ => hPop w (.refl w)
      refine (labors_of_rests (smokeTest_rests (by rw [htw.state]; exact hTop) (fun hFrame => ?_)
        fun hSure => ?_)).bind fun _ y _ hy => hPop y hy.1
      · rw [htw.state] at hFrame ⊢
        exact frameHas_learn _ ((gains_learn _ _ _).1 ▸ hFrame)
      · have hd := hThins.resolves ((h hSure).diagrams o ho)
        rw [htw.session.program, htw.state]
        exact ⟨(h hSure).checked, hd.toPredicate, (gains_learn _ _ _).1.symm ▸ (h hSure).frame o ho⟩

theorem processTop_still (hTop : s.2.state.obligations.getLast? = some o) :
    (laboring False s o).Ensures (processTop (s.2.state.obligations.length - 1) o) s fun _ t =>
      Worked s o true t :=
  processTop_labors hTop False.elim

end Work

/-! ## Conditions along a chain -/

section Chains

open List

variable {p : Program}

theorem mem_obligations_of_mem_chain (h : o ∈ s.chain) : o ∈ s.obligations := by
  obtain ⟨i, -, hi⟩ := mem_filterMap.mp h
  exact mem_of_getElem? hi

theorem length_chainSteps_le (safety : Formula) (pending : List Formula)
    (chain : List Obligation) : (chainSteps safety pending chain).1.length ≤ chain.length := by
  fun_induction chainSteps safety pending chain with
  | case1 => exact Nat.le_refl _
  | case2 => exact Nat.le_refl _
  | case3 pending o rest hRest condition hStutter ih => exact Nat.le_succ_of_le ih
  | case4 pending o rest hRest condition hStutter states transitions hSteps ih =>
    rw [hSteps] at ih
    exact Nat.succ_le_succ ih

theorem mem_chainSteps {name : String} (h : name ∈ (chainSteps safety pending chain).2) :
    ∃ o ∈ chain, o.transition = name := by
  fun_induction chainSteps safety pending chain with
  | case1 => cases h
  | case2 => cases h
  | case3 pending o rest hRest condition hStutter ih =>
    exact (ih h).imp fun _ ho => ⟨mem_cons_of_mem _ ho.1, ho.2⟩
  | case4 pending o rest hRest condition hStutter states transitions hSteps ih =>
    rw [hSteps] at ih
    rcases mem_cons.mp h with rfl | h
    · exact ⟨o, mem_cons_self, rfl⟩
    · exact (ih h).imp fun _ ho => ⟨mem_cons_of_mem _ ho.1, ho.2⟩

theorem resolves_chainSteps (hSafety : safety.Resolves p [])
    (hPending : ∀ f ∈ pending, f.Resolves p []) (hChain : ∀ o ∈ chain, o.diagram.Resolves p) :
    ∀ f ∈ (chainSteps safety pending chain).1, f.Resolves p [] := by
  have hJoined : ∀ {pending : List Formula} {o : Obligation},
      (∀ f ∈ pending, f.Resolves p []) → o.diagram.Resolves p →
        ∀ f ∈ pending ++ [o.diagram.toFormula], f.Resolves p [] := by
    intro pending o hPending ho f hf
    rcases mem_append.mp hf with hf | hf
    · exact hPending f hf
    · rw [mem_singleton.mp hf]
      exact ho.toFormula
  fun_induction chainSteps safety pending chain with
  | case1 => exact fun f hf => by cases hf
  | case2 pending o =>
    intro f hf
    rw [mem_singleton.mp hf]
    refine Formula.resolves_conj fun g hg => ?_
    rw [append_cons] at hg
    rcases mem_append.mp hg with hg | hg
    · exact hJoined hPending (hChain o mem_cons_self) g hg
    · rw [mem_singleton.mp hg]
      exact .not hSafety
  | case3 pending o rest hRest condition hStutter ih =>
    exact ih (hJoined hPending (hChain o mem_cons_self))
      fun o' ho' => hChain o' (mem_cons_of_mem _ ho')
  | case4 pending o rest hRest condition hStutter states transitions hSteps ih =>
    rw [hSteps] at ih
    intro f hf
    rcases mem_cons.mp hf with rfl | hf
    · exact Formula.resolves_conj (hJoined hPending (hChain o mem_cons_self))
    · exact ih (fun g hg => by cases hg)
        (fun o' ho' => hChain o' (mem_cons_of_mem _ ho')) f hf

end Chains

/-! ## Errands -/

section Errands

variable {α : Type} {act : SearchM α} {s : Session × Search}

theorem getLast?_chain_contradicts {state : SearchState} (safety : Formula)
    (h : state.obligations ≠ []) : ∃ f,
      (chainSteps safety [] state.chain).1.getLast? = some f ∧ Contradicts f safety := by
  obtain ⟨root, hRoot⟩ :=
    Option.ne_none_iff_exists'.mp (mt List.getLast?_eq_none_iff.mp (chain_ne_nil h))
  obtain ⟨joined, -, hLast⟩ := getLast?_chainSteps safety [] _ hRoot
  refine ⟨_, hLast, Or.inr ⟨joined ++ [root.diagram.toFormula], ?_⟩⟩
  rw [List.append_assoc]
  rfl

/-- **The chain of the top is made concrete**, and a trace that is given is shown by a model. -/
theorem concretize_rests (hSome : s.2.state.obligations ≠ []) (h : Sure → Footing s) :
    (resting Sure).Ensures (inSession (concretize s.2.safety
      (chainSteps s.2.safety [] s.2.state.chain).1 (chainSteps s.2.safety [] s.2.state.chain).2)) s
      fun r t => t.2 = s.2 ∧ ∀ shown, r.1 = some shown → ∃ constraints names g,
        constraints.getLast? = some (some g) ∧ Contradicts g s.2.safety ∧
          t.1.Shows s.1.program s.1.label s.1.prover.base constraints names shown := by
  have hLength := length_chainSteps s.2.safety [] _ (chain_ne_nil hSome)
  obtain ⟨last, hLast, hContradicts⟩ := getLast?_chain_contradicts s.2.safety hSome
  refine inSession_rests (concretize_ensures hLength hLast hContradicts fun hSure => ?_)
  have hs := h hSure
  refine ⟨⟨hs.checked, by simpa using hLength, fun f hf => ?_, fun name hName => ?_⟩, hs.safety, ?_⟩
  · have hNone : ∀ g ∈ ([] : List Formula), g.Resolves s.1.program [] := fun g hg => by cases hg
    refine resolves_chainSteps hs.safety hNone (fun o ho => ?_) f (by simpa using hf)
    exact hs.diagrams o (mem_obligations_of_mem_chain ho)
  · obtain ⟨o, ho, rfl⟩ := mem_chainSteps hName
    exact hs.transition o (mem_obligations_of_mem_chain ho)
  · have hLe := length_chainSteps_le s.2.safety [] s.2.state.chain
    exact Nat.le_trans (Nat.le_trans hLe hs.chain) (Nat.le_max_left _ _)

/-- What a search does without changing what it knows. -/
inductive Errand (s : Session × Search) : (α : Type) → SearchM α → Prop
  | logging (f : Log → Log) : Errand s Unit (logging f)
  | count (f : SearchStats → SearchStats) : Errand s Unit (count f)
  | diagram (trace : Trace) (index : Nat) : Errand s Diagram (diagramOf trace index)
  /-- An initial state that violates safety is looked for. -/
  | violation : Errand s (Option Trace) (inSession (Session.findViolation s.2.safety 0))
  /-- The stack has come down to frame 0, and its chain is to be made concrete. -/
  | concretize {o : Obligation} (hTop : s.2.state.obligations.getLast? = some o) :
      Errand s (Option Trace × String) (inSession (concretize s.2.safety
        (chainSteps s.2.safety [] s.2.state.chain).1 (chainSteps s.2.safety [] s.2.state.chain).2))
  | badState {index : Nat} {property : Formula} (hIndex : index + 1 = s.2.state.frames.length)
      (hProperty : property ∈ s.2.chosen) : Errand s (Option Trace) (findBadState index property)
  | leak {predicate : Formula} {index : Nat} (hIndex : index + 1 < s.2.state.frames.length)
      (hIn : s.2.state.frameHas index predicate = true) :
      Errand s (Option Trace) (pushLeak predicate index)
  | inductiveTrace : Errand s Unit checkInductiveTrace
  | checkpoint : Errand s Unit writeCheckpoint

/-- **Errands change nothing that is known**, and make no misstep where all is there. -/
theorem Errand.rests (h : Errand s α act) (hs : Sure → Footing s) :
    (resting Sure).Ensures act s fun _ _ => True := by
  cases h with
  | logging f => exact (logging_rests f).imp fun _ _ _ _ => trivial
  | count f => exact (count_rests f).imp fun _ _ _ _ => trivial
  | diagram trace index => exact (diagramOf_rests trace index).imp fun _ _ _ _ => trivial
  | violation =>
    exact (inSession_rests (Session.findViolation_ensures fun hSure => ⟨(hs hSure).checked,
      (hs hSure).safety, Nat.le_max_right _ 1⟩)).imp fun _ _ _ _ => trivial
  | concretize hTop =>
    exact (concretize_rests (List.ne_nil_of_mem (List.mem_of_getLast? hTop)) hs).imp
      fun _ _ _ _ => trivial
  | badState hIndex hProperty =>
    exact (findBadState_rests _ _ fun hSure => ⟨hs hSure, by omega,
      (hs hSure).chosen _ hProperty⟩).imp fun _ _ _ _ => trivial
  | leak hIndex hIn =>
    exact (pushLeak_rests _ _ fun hSure => ⟨hs hSure, by omega,
      (hs hSure).resolves_frameHas hIn⟩).imp fun _ _ _ _ => trivial
  | inductiveTrace => exact (checkInductiveTrace_rests hs).imp fun _ _ _ _ => trivial
  | checkpoint => exact writeCheckpoint_rests.imp fun _ _ _ _ => trivial

theorem Errand.still (h : Errand s α act) : (resting False).Ensures act s fun _ _ => True :=
  h.rests False.elim

end Errands

/-! ## Legs -/

/-- No frame has a predicate that it did not have before. -/
def NoneGained (s t : SearchState) : Prop :=
  ∀ (i : Nat) (frame : List Formula), t.frames[i]? = some frame →
    ∀ f ∈ frame, ∃ old, s.frames[i]? = some old ∧ f ∈ old

/-- The stack is as it was, or it had come down to frame 0 and obligations were taken off. -/
def OnlyUnwinds (s t : SearchState) : Prop :=
  t.obligations = s.obligations ∨ t.obligations <+: s.obligations ∧
    ∃ o, s.obligations.getLast? = some o ∧ o.frame = 0

/-- What a search does at once, in a run that began in some state. -/
inductive Leg (first s : Session × Search) : Session × Search → Prop
  | quiet {α : Type} {act : SearchM α} {a : α} {t : Session × Search} (hErrand : Errand s α act)
      (hDone : act s = .ok a t) : Leg first s t
  /-- Nothing is learned, and no obligation is added. A frame gets a predicate only while there
  are no obligations. -/
  | move {state : SearchState} (hMove : Move s.1.Told s.1.program 0 s.2.state state)
      (hStack : OnlyUnwinds s.2.state state)
      (hKept : state.obligations = [] ∨ NoneGained s.2.state state) :
      Leg first s (s.1, { s.2 with state })
  /-- A state of the last frame that violates a property is to be excluded. -/
  | bad {index : Nat} {before property : Formula} {trace : Trace} {simplify : Bool} {d : Diagram}
      (hEmpty : s.2.state.obligations = []) (hLast : index + 1 = s.2.state.frames.length)
      (hBefore : frameFormula first.1.program s.2.state index = .ok before)
      (hProperty : property ∈ first.2.chosen)
      (hPictures : ∀ f, f = before ∨ f = .not property →
        s.1.Pictures first.1.program first.1.label first.1.prover.base 1 f none trace)
      (hDiagram : ofTrace first.1.program trace 0 simplify = .ok d) :
      Leg first s (s.1, { s.2 with
        state := s.2.state.pushObligation ⟨index, d, "", Obligation.root, false⟩ })
  /-- A state that a transition leads to from a frame is to be excluded from the next one. -/
  | leak {index : Nat} {before : Formula} {r : Transition} {trace : Trace} {simplify : Bool}
      {d : Diagram} (hEmpty : s.2.state.obligations = [])
      (hIndex : index + 1 < s.2.state.frames.length)
      (hBefore : frameFormula first.1.program s.2.state index = .ok before)
      (hr : r ∈ first.1.program.transitions)
      (hPictures : s.1.Pictures first.1.program first.1.label first.1.prover.base 2 before (some r)
        trace)
      (hDiagram : ofTrace first.1.program trace 1 simplify = .ok d) :
      Leg first s (s.1, { s.2 with
        state := s.2.state.pushObligation ⟨index + 1, d, "", Obligation.root, true⟩ })
  /-- The obligation on top of the stack is worked on. -/
  | work {o : Obligation} {t : Session × Search}
      (hTop : s.2.state.obligations.getLast? = some o) (hFrame : o.frame ≠ 0)
      (hDone : processTop (s.2.state.obligations.length - 1) o s = .ok () t) : Leg first s t

theorem OnlyUnwinds.isPrefix (h : OnlyUnwinds s t) : t.obligations <+: s.obligations := by
  obtain hSame | ⟨hPrefix, -⟩ := h
  · exact hSame ▸ List.prefix_refl _
  · exact hPrefix

theorem NoneGained.of_eq (h : t.frames = s.frames) : NoneGained s t := by
  intro i frame hFrame f hf
  rw [h] at hFrame
  exact ⟨frame, hFrame, hf⟩

theorem NoneGained.trans {u : SearchState} (h : NoneGained s t) (h' : NoneGained t u) :
    NoneGained s u := by
  intro i frame hFrame f hf
  obtain ⟨old, hOld, hf⟩ := h' i frame hFrame f hf
  exact h i old hOld f hf

theorem noneGained_addFrame (s : SearchState) : NoneGained s s.addFrame := by
  intro i frame hFrame f hf
  rcases mem_addFrame hFrame with hFrame | rfl
  · exact ⟨frame, hFrame, hf⟩
  · exact absurd hf List.not_mem_nil

theorem noneGained_simplify (s : SearchState) : NoneGained s s.simplify := by
  intro i frame hFrame f hf
  obtain ⟨old, hOld, hSublist, -⟩ := sifted hFrame
  exact ⟨old, hOld, hSublist.subset hf⟩

/-- **Legs are made of moves**, and it stays clear where the bottom of the stack comes from. -/
theorem Leg.follows {first s t : Session × Search} (h : Leg first s t)
    (hs : Follows first s) : Follows first t := by
  cases h with
  | quiet hErrand hDone => exact hs.trans (hErrand.still.ok hDone).1.follows
  | @move state hMove hStack hKept =>
    exact hs.trans (change_follows (f := fun _ => state) hMove hStack.isPrefix).leads
  | @bad index _ _ _ _ _ hEmpty hLast hBefore hProperty hPictures hDiagram =>
    obtain ⟨n, hSteps, hAsked⟩ := hs.moves
    have hFits := (hPictures _ (Or.inl rfl)).fits
    have hIndex : index < s.2.state.frames.length := by omega
    refine ⟨hs.session, hs.options, hs.safety, hs.properties,
      ⟨n, hSteps.trans (.single (.work (.root hEmpty hIndex ⟨_, 0, _, hFits, hDiagram⟩))), hAsked⟩,
      fun o above hStack _ => ?_⟩
    dsimp only [pushObligation] at hStack
    rw [hEmpty, List.nil_append, List.cons.injEq] at hStack
    obtain ⟨rfl, rfl⟩ := hStack
    exact ⟨Or.inr ⟨⟨_, hProperty, _, _, hPictures _ (Or.inr rfl), hDiagram⟩, n, _, hSteps, hLast⟩,
      fun h => absurd rfl h⟩
  | leak hEmpty hIndex hBefore hr hPictures hDiagram =>
    obtain ⟨n, hSteps, hAsked⟩ := hs.moves
    have hDepicts : Diagram.Depicts first.1.program _ := ⟨_, 1, _, hPictures.fits, hDiagram⟩
    refine ⟨hs.session, hs.options, hs.safety, hs.properties,
      ⟨n, hSteps.trans (.single (.work (.root hEmpty hIndex hDepicts))), hAsked⟩,
      fun o above hStack hMay => ?_⟩
    -- such an obligation disproves nothing
    dsimp only [pushObligation] at hStack
    rw [hEmpty] at hStack
    cases hStack
    cases hMay
  | work hTop hFrame hDone =>
    have hWorked := ((processTop_still hTop).ok hDone).2
    exact hs.trans (hWorked.follows hTop hFrame)

/-! ## Accounts -/

/-- Something to be said about a search that began in some state: at each state it passes, and
where it fails. -/
structure Account where
  first : Session × Search
  Holds : Session × Search → Prop
  Fails : Error → Session × Search → Prop

namespace Account

/-- What is known of a state that a search passes. -/
def At (A : Account) (s : Session × Search) : Prop := Follows A.first s ∧ A.Holds s

/-- Legs keep an account, and it tells what is left when a search fails. -/
structure Sound (A : Account) : Prop where
  leg : ∀ {s t : Session × Search}, A.At s → Leg A.first s t → A.Holds t
  errand : ∀ {α : Type} {act : SearchM α} {s t : Session × Search} {e : Error}, A.At s →
    Errand s α act → act s = .error e t → A.Fails e t
  work : ∀ {o : Obligation} {s t : Session × Search} {e : Error}, A.At s →
    s.2.state.obligations.getLast? = some o → o.frame ≠ 0 →
      processTop (s.2.state.obligations.length - 1) o s = .error e t → A.Fails e t
  outOfFuel : ∀ {s : Session × Search}, A.At s → A.Fails .outOfFuel s

theorem Sound.at {A : Account} (hA : A.Sound) {s t : Session × Search} (hs : A.At s)
    (hLeg : Leg A.first s t) : A.At t :=
  ⟨hLeg.follows hs.1, hA.leg hs hLeg⟩

/-- The account that tells of moves, and of self-checks that fail. -/
def plain (first : Session × Search) : Account :=
  ⟨first, fun _ => True, fun e t => Follows first t ∧ Explained e t⟩

theorem plain_sound (first : Session × Search) : (plain first).Sound where
  leg _ _ := trivial
  errand hs hErrand hRun :=
    have hFails := hErrand.still.error hRun
    ⟨hs.1.trans hFails.1.follows, hFails.2.1⟩
  work hs hTop hFrame hRun :=
    have hFails := (processTop_still hTop).error hRun
    have hWorked := hFails.1 (.kept (.refl _))
    ⟨hs.1.trans (hWorked.follows hTop hFrame), hFails.2.1⟩
  outOfFuel hs := ⟨hs.1, trivial⟩

end Account

/-- A session goes on. If a search is steady, then its frames keep their number and lose no
predicate meanwhile. -/
structure Grows (steady : Bool) (s t : Session × Search) : Prop where
  session : s.1.Continues t.1
  gains : steady = true → Gains s.2.state t.2.state

theorem Grows.refl (steady : Bool) (s : Session × Search) : Grows steady s s :=
  ⟨.refl s.1, fun _ => .refl _⟩

theorem Grows.trans {steady : Bool} {s t : Session × Search} (h : Grows steady s t)
    (h' : Grows steady t u) : Grows steady s u :=
  ⟨h.session.trans h'.session, fun hSteady => (h.gains hSteady).trans (h'.gains hSteady)⟩

theorem Still.grows {s t : Session × Search} (h : Still s t) (steady : Bool) :
    Grows steady s t :=
  ⟨h.session, fun _ => h.state ▸ .refl _⟩

/-- What the parts of a search keep to. -/
def walking (steady : Bool) (A : Account) : Discipline Error (Session × Search) where
  Leads := Grows steady
  Fails := A.Fails
  refl := .refl steady
  trans := .trans

/-- A part of a search is as an account says. -/
def Walks {α : Type} (steady : Bool) (A : Account) (act : SearchM α) (s : Session × Search)
    (Q : α → Session × Search → Prop) : Prop :=
  A.At s → (walking steady A).Ensures act s fun a t => A.At t ∧ Q a t

section Parts

variable {A : Account} {steady : Bool} {s t : Session × Search} {α β : Type}
  {Q : α → Session × Search → Prop} {act : SearchM α}

theorem Walks.bind {next : α → SearchM β} {Q' : β → Session × Search → Prop}
    (h : Walks steady A act s Q)
    (hNext : ∀ a t, Grows steady s t → Q a t → Walks steady A (next a) t Q') :
    Walks steady A (act >>= next) s Q' :=
  fun hs => (h hs).bind fun a t hst ht => hNext a t hst ht.2 ht.1

theorem Walks.imp {Q' : α → Session × Search → Prop} (h : Walks steady A act s Q)
    (hImp : ∀ a t, Grows steady s t → Q a t → Q' a t) : Walks steady A act s Q' :=
  fun hs => (h hs).imp fun a t hst ht => ⟨ht.1, hImp a t hst ht.2⟩

theorem Walks.of_at (h : A.At s → Walks steady A act s Q) : Walks steady A act s Q :=
  fun hs => h hs hs

theorem Walks.at (h : Walks steady A act s Q) : Walks steady A act s fun a t => A.At t ∧ Q a t :=
  fun hs => (h hs).imp fun _ _ _ ht => ⟨ht.1, ht⟩

theorem Walks.unsteady (h : Walks true A act s Q) :
    Walks false A act s fun a t => Grows true s t ∧ Q a t := fun hs =>
  (h hs).change (fun _ _ hst ht => ⟨⟨hst.session, fun h => by cases h⟩, ht.1, hst, ht.2⟩)
    fun _ _ hst hFails => ⟨⟨hst.session, fun h => by cases h⟩, hFails⟩

theorem walks_pure {a : α} (h : Q a s) : Walks steady A (pure a) s Q :=
  fun hs => ensures_pure ⟨hs, h⟩

theorem walks_ite {c : Prop} [Decidable c] {act' : SearchM α}
    (hThen : c → Walks steady A act s Q) (hElse : ¬ c → Walks steady A act' s Q) :
    Walks steady A (if c then act else act') s Q :=
  fun hs => ensures_ite (fun hc => hThen hc hs) fun hc => hElse hc hs

theorem walks_forM {I : Session × Search → Prop} {f : β → SearchM PUnit} {bs : List β}
    (hStep : ∀ b ∈ bs, ∀ t, Grows steady s t → I t → Walks steady A (f b) t fun _ u => I u)
    (hs : I s) : Walks steady A (bs.forM f) s fun _ t => I t :=
  fun hAt => ensures_forM (I := fun t => A.At t ∧ I t)
    (fun b hb t hst ht => hStep b hb t hst ht.2 ht.1) ⟨hAt, hs⟩

theorem own_walks {next : Search → SearchM α} (h : Walks steady A (next s.2) s Q) :
    Walks steady A (own >>= next) s Q := h

theorem session_walks {next : Session → SearchM α} (h : Walks steady A (next s.1) s Q) :
    Walks steady A (session >>= next) s Q := h

variable (hA : A.Sound)

include hA

theorem walks_outOfFuel : Walks steady A (throw .outOfFuel) s Q :=
  fun hs => ensures_throw (hA.outOfFuel hs)

theorem walks_of_errand (hErrand : Errand s α act) (h : (resting False).Ensures act s Q) :
    Walks steady A act s fun a t => Still s t ∧ Q a t := by
  intro hs
  unfold Ensures at h ⊢
  cases hRun : act s with
  | ok a t =>
    rw [hRun] at h
    exact ⟨h.1.grows steady, hA.at hs (.quiet hErrand hRun), h⟩
  | error e t =>
    rw [hRun] at h
    exact ⟨h.1.grows steady, hA.errand hs hErrand hRun⟩

theorem logging_walks (f : Log → Log) : Walks steady A (logging f) s fun _ t => t.2 = s.2 :=
  (walks_of_errand hA (.logging f) (logging_rests f)).imp fun _ _ _ ht => ht.2

theorem count_walks (f : SearchStats → SearchStats) :
    Walks steady A (count f) s fun _ t => t.1 = s.1 ∧ t.2.state = s.2.state :=
  (walks_of_errand hA (.count f) (count_rests f)).imp fun _ _ _ ht => ⟨ht.2, ht.1.state⟩

theorem diagramOf_walks (trace : Trace) (index : Nat) :
    Walks steady A (diagramOf trace index) s fun d t => t.2 = s.2 ∧
      ∃ simplify, ofTrace A.first.1.program trace index simplify = .ok d := by
  refine .of_at fun hs => (walks_of_errand hA (.diagram trace index)
    (diagramOf_rests trace index)).imp fun _ _ _ ht => ?_
  rw [← hs.1.session.program]
  exact ht.2

theorem change_walks (hLeg : Leg A.first s (s.1, { s.2 with state := f s.2.state }))
    (hGains : steady = true → Gains s.2.state (f s.2.state)) :
    Walks steady A (change f) s fun _ t => t = (s.1, { s.2 with state := f s.2.state }) :=
  fun hs => ⟨⟨.refl s.1, hGains⟩, hA.at hs hLeg, rfl⟩

theorem processTop_walks (hTop : s.2.state.obligations.getLast? = some o) (hFrame : o.frame ≠ 0) :
    Walks steady A (processTop (s.2.state.obligations.length - 1) o) s fun _ t =>
      (∀ o ∈ s.2.state.obligations, o.may = true) → ∀ o ∈ t.2.state.obligations, o.may = true := by
  intro hs
  have hGrows : ∀ {done t}, Worked s o done t → Grows steady s t := fun hWorked =>
    ⟨(hWorked.follows hTop hFrame).session, fun _ => hWorked.gains⟩
  unfold Ensures
  cases hRun : processTop (s.2.state.obligations.length - 1) o s with
  | ok a t =>
    have hWorked := ((processTop_still hTop).ok hRun).2
    exact ⟨hGrows hWorked, hA.at hs (.work hTop hFrame hRun), hWorked.may hTop⟩
  | error e t =>
    have hWorked := ((processTop_still hTop).error hRun).1 (.kept (.refl s))
    exact ⟨hGrows hWorked, hA.work hs hTop hFrame hRun⟩

end Parts

end Search

end InvariantSearch
