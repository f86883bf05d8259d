import InvariantSearch.Proofs.Session.Conversations
import InvariantSearch.Session.Verification

/-!
# Two sessions of one program

What a session does for a search depends on its program, on what is asserted, and on
the answers that it will get. Where two sessions have these alike, all that is asked in
them gives the same results: traces, failures and diagrams are equal, and terms and
models are alike.

* `Session.Twins` — two sessions of one program, with provers that are twins.
* `Session.pairing` — two sessions side by side, for computations that leave all scopes
  as they are, or write to the `depth` innermost ones.

Main results: `inScope_twins` — whatever is asserted in a scope of its own is gone when
it is closed; `violatesInitiation_twins`, `violatesConsecution_twins` and `sightTrace_twins`.
-/

namespace InvariantSearch

open Pairing

/-- Two sessions of a program, in the same situation up to numbers. -/
structure Session.Twins (N : Renumbering) (p : Program) (label : String) (s s' : Session) :
    Prop where
  program : s.program = p
  labeled : s.label = label
  program' : s'.program = p
  labeled' : s'.label = label
  prover : s.prover.Twins N (p.Calls label) s'.prover

namespace Session

variable {assumptions assumptions' : List Term}

theorem twins_self (s : Session) : Twins .same s.program s.label s s :=
  ⟨rfl, rfl, rfl, rfl, Prover.twins_self _ s.prover⟩

/-- Two sessions side by side. -/
def pairing (N : Renumbering) (p : Program) (label : String) (depth : Nat) :
    Pairing Error Session where
  Twins := Twins N p label
  Alike := Error.Alike N.Pairs
  Leads s s' t t' := s.prover.Onward N (p.Calls label) depth s'.prover t.prover t'.prover
  alike_refl := N.alike_error
  refl s s' := (Prover.pairing N (p.Calls label) depth).refl s.prover s'.prover
  trans h h' := (Prover.pairing N (p.Calls label) depth).trans h h'

variable {N : Renumbering} {p : Program} {label : String} {depth : Nat} {s s' : Session}
  {α β γ : Type} {R : α → β → Prop}

/-! ## Parts of a session -/

theorem proving_twins {act : ProverM α} {act' : ProverM β} {Q : α → β → Prover → Prover → Prop}
    (h : (Prover.pairing N (p.Calls label) depth).Ensures act act' s.prover s'.prover Q) :
    (pairing N p label depth).Ensures (proving act) (proving act') s s' fun a b t t' =>
      Q a b t.prover t'.prover := by
  intro hs
  have hEnds := h hs.prover
  unfold proving
  cases hRun : act s.prover <;> cases hRun' : act' s'.prover <;> rw [hRun, hRun'] at hEnds
  · exact ⟨{ hs with prover := hEnds.1 }, hEnds.2.1, hEnds.2.2⟩
  · exact hEnds.elim
  · exact hEnds.elim
  · exact ⟨{ hs with prover := hEnds.1 }, hEnds.2.1, hEnds.2.2⟩

theorem proving_relates {act : ProverM α} {act' : ProverM β}
    (h : (Prover.pairing N (p.Calls label) depth).Relates R act act') :
    (pairing N p label depth).Relates R (proving act) (proving act') :=
  fun _ _ => proving_twins (h _ _)

theorem logging_twins {f f' : Log → Log} (hf : Log.Calm f) (hf' : Log.Calm f') :
    (pairing N p label depth).Relates Eq (logging f) (logging f') :=
  proving_relates fun _ _ => (Prover.logging_twins hf hf').imp fun _ _ _ _ _ => rfl

theorem encoding_twins {act : Fresh α} {act' : Fresh β}
    {R : (Nat → Nat → Prop) → α → β → Prop}
    (hR : ∀ S S' : Nat → Nat → Prop, (∀ k k', S k k' → S' k k') → ∀ a b, R S a b → R S' a b)
    (h : ∀ n n', (Encoding.numbering n n').Ensures act act' n n' fun a b stop _ =>
      R (Encoding.extend N.Pairs n n' stop) a b) :
    (pairing N p label depth).Relates (R N.Pairs) (encoding act) (encoding act') := by
  intro s s' hs
  have hEnds := h s.prover.fresh s'.prover.fresh ⟨Nat.le_refl _, Nat.add_comm _ _⟩
  have hFresh := hs.prover.fresh
  have hPairs : ∀ stop k k', Encoding.extend N.Pairs s.prover.fresh s'.prover.fresh stop k k' →
      N.Pairs k k' := by
    rintro stop k k' (hk | ⟨hFirst, -, hStep⟩)
    · exact hk
    · have hk := hFresh (k - s.prover.fresh)
      rwa [show s.prover.fresh + (k - s.prover.fresh) = k by omega,
        show s'.prover.fresh + (k - s.prover.fresh) = k' by omega] at hk
  -- both have made as many constants
  have hTwins : ∀ stop stop', s.prover.fresh ≤ stop →
      stop + s'.prover.fresh = stop' + s.prover.fresh → Twins N p label
        { s with prover := { s.prover with fresh := stop } }
        { s' with prover := { s'.prover with fresh := stop' } } := by
    intro stop stop' hFirst hStep
    refine { hs with prover := { hs.prover with fresh := fun j => ?_ } }
    have hj := hFresh (stop - s.prover.fresh + j)
    rwa [show s.prover.fresh + (stop - s.prover.fresh + j) = stop + j by omega,
      show s'.prover.fresh + (stop - s.prover.fresh + j) = stop' + j by omega] at hj
  have hLeads : ∀ stop stop', s.prover.fresh ≤ stop →
      stop + s'.prover.fresh = stop' + s.prover.fresh → s.prover.Onward N (p.Calls label) depth
        s'.prover { s.prover with fresh := stop } { s'.prover with fresh := stop' } := by
    intro stop stop' hFirst hStep
    exact ⟨⟨rfl, rfl, rfl, rfl, hFirst, rfl, rfl⟩,
      ⟨rfl, rfl, rfl, rfl, by dsimp only; omega, rfl, rfl⟩, fun h => { h with }, [], [], rfl, rfl,
      .nil⟩
  unfold encoding
  cases hRun : act s.prover.fresh <;> cases hRun' : act' s'.prover.fresh <;>
    rw [hRun, hRun'] at hEnds
  · obtain ⟨⟨hFirst, hStep⟩, -, hab⟩ := hEnds
    exact ⟨hTwins _ _ hFirst hStep, hLeads _ _ hFirst hStep, hR _ _ (hPairs _) _ _ hab⟩
  · exact hEnds.elim
  · exact hEnds.elim
  · obtain ⟨⟨hFirst, hStep⟩, -, hFault⟩ := hEnds
    refine ⟨hTwins _ _ hFirst hStep, hLeads _ _ hFirst hStep, ?_⟩
    have hSame : _ = _ := hFault
    rw [hSame]
    exact .same _

theorem encodingTerm_twins {act act' : Fresh Term}
    (h : ∀ n n', Encoding.GivesAlike N.Pairs n n' act act' n n') :
    (pairing N p label depth).Relates (Term.Alike N.Pairs) (encoding act) (encoding act') :=
  encoding_twins (R := Term.Alike) (fun _ _ hPairs _ _ ht => ht.mono hPairs) h

theorem overSteps_twins (count : Nat) :
    (pairing N p label depth).Relates
      (fun e e' => e = ⟨p, label, stepKeys count⟩ ∧ e' = ⟨p, label, stepKeys count⟩)
      (overSteps count) (overSteps count) := by
  intro s s'
  refine ensures_ite Iff.rfl (fun _ => ensures_throw (.same _)) fun _ => ?_
  refine (ensures_modify ?_ ?_).bind fun _ _ t t' _ ht => ?_
  · exact fun h => { h with }
  · exact (Prover.pairing N (p.Calls label) depth).refl s.prover s'.prover
  · refine ensures_of_twins fun hTwins => ?_
    refine ensures_get_bind (ensures_pure ?_)
    rw [hTwins.program, hTwins.labeled, hTwins.program', hTwins.labeled']
    exact ⟨rfl, rfl⟩

/-! ## Encoding and asserting -/

theorem encodeWith_twins (e : Encoding) (f : Formula) (index : Nat) {scope scope' : Scope}
    (hScope : Encoding.ScopeAlike N.Pairs scope scope') :
    (pairing N p label depth).Relates (Term.Alike N.Pairs) (encodeWith e f index scope)
      (encodeWith e f index scope') := by
  refine (encodingTerm_twins fun n n' => ?_).bind fun t t' ht => ?_
  · exact Encoding.encode_alike (hScope.mono fun _ _ hk => Or.inl hk) f index
  · refine (logging_twins (Log.calm_framedEntry _ _) (Log.calm_framedEntry _ _)).bind
      fun _ _ _ => ?_
    exact relates_pure ht

theorem encode_twins (e : Encoding) (f : Formula) (index : Nat) :
    (pairing N p label depth).Relates (Term.Alike N.Pairs) (encode e f index) (encode e f index) :=
  encodeWith_twins e f index .nil

theorem transition_twins (e : Encoding) (r : Transition) (index : Nat) :
    (pairing N p label depth).Relates (Term.Alike N.Pairs) (transition e r index)
      (transition e r index) := by
  refine (encodingTerm_twins fun n n' => Encoding.transition_alike r index).bind fun t t' ht => ?_
  refine (logging_twins (Log.calm_framedEntry _ _) (Log.calm_framedEntry _ _)).bind fun _ _ _ => ?_
  exact relates_pure ht

theorem stutter_twins (e : Encoding) (index : Nat) :
    (pairing N p label depth).Relates (Term.Alike N.Pairs) (stutter e index) (stutter e index) :=
  encodingTerm_twins fun _ _ => Encoding.frameCondition_alike .empty index

theorem cardinalityBound_twins (e : Encoding) (sort : String) (size : Nat) :
    (pairing N p label depth).Relates (Term.Alike N.Pairs) (encoding (e.cardinalityBound sort size))
      (encoding (e.cardinalityBound sort size)) :=
  encodingTerm_twins fun _ _ => Encoding.cardinalityBound_alike sort size

theorem assert_twins {t t' : Term} (ht : Term.Alike N.Pairs t t') :
    (pairing N p label 1).Relates Eq (assert t) (assert t') :=
  proving_relates (Prover.assert_twins ht)

theorem assertAll_twins {ts ts' : List Term} (h : List.Forall₂ (Term.Alike N.Pairs) ts ts') :
    (pairing N p label 1).Relates Eq (assertAll ts) (assertAll ts') :=
  relates_forM (h.imp fun _ _ ht => assert_twins ht)

theorem mapM_encode_twins (e : Encoding) (index : Nat) (fs : List Formula) :
    (pairing N p label depth).Relates (List.Forall₂ (Term.Alike N.Pairs))
      (fs.mapM fun f => encode e f index) (fs.mapM fun f => encode e f index) :=
  relates_mapM (List.forall₂_same.mpr fun f _ => encode_twins e f index)

/-! ## Scopes -/

/-- **A scope of its own leaves no trace**: what is asserted in it is gone however the computation
ends. -/
theorem inScope_twins {act : SessionM α} {act' : SessionM β}
    (h : (pairing N p label 1).Relates R act act') :
    (pairing N p label depth).Relates R (inScope act) (inScope act') := by
  intro s s' hs
  unfold inScope
  rw [Prover.push_eq_ite, Prover.push_eq_ite, hs.prover.canceled]
  cases s.prover.canceled with
  | true => exact ⟨hs, (pairing N p label depth).refl s s', .same _⟩
  | false =>
    have hEnds := h { s with prover := s.prover.opened } { s' with prover := s'.prover.opened }
      { hs with prover := hs.prover.opened }
    simp only [Bool.false_eq_true, if_false]
    -- the scope that is closed is the one that was opened
    cases hRun : act { s with prover := s.prover.opened } <;>
      cases hRun' : act' { s' with prover := s'.prover.opened } <;> rw [hRun, hRun'] at hEnds
    · obtain ⟨ht, hLeads, hR⟩ := hEnds
      exact ⟨{ ht with prover := ht.prover.closed hLeads }, hLeads.closed depth, hR⟩
    · exact hEnds.elim
    · exact hEnds.elim
    · obtain ⟨ht, hLeads, hAlike⟩ := hEnds
      exact ⟨{ ht with prover := ht.prover.closed hLeads }, hLeads.closed depth, hAlike⟩

theorem query_twins {act : SessionM α} {act' : SessionM β} (e : Encoding)
    (h : (pairing N p label 1).Relates R act act') :
    (pairing N p label depth).Relates R (query e act) (query e act') := by
  refine inScope_twins (Pairing.Relates.bind (R := Eq) ?_ fun _ _ _ => h)
  refine even_forM fun index _ => ?_
  exact (mapM_encode_twins e index _).bind fun ts ts' hts => assertAll_twins hts

/-! ## Asking -/

variable (hAssumptions : List.Forall₂ (Term.Alike N.Pairs) assumptions assumptions')

include hAssumptions

theorem check_twins (question : Question) :
    (pairing N p label depth).Ensures (check assumptions question) (check assumptions' question)
      s s' fun b b' t t' => b' = b ∧
        Prover.Answered N (p.Calls label) assumptions assumptions' t.prover t'.prover :=
  proving_twins (Prover.check_twins hAssumptions question)

/-- Two trials end the same way, with models that are alike. -/
inductive Trial.Alike (N : Renumbering) (declared : String → Prop) : Trial → Trial → Prop
  | tooSmall : Alike N declared .tooSmall .tooSmall
  | fits {m m' : SolverModel} (h : m.Alike N.Pairs declared m') :
      Alike N declared (.fits m) (.fits m')
  | undecided : Alike N declared .undecided .undecided

theorem trySize_twins (e : Encoding) (question : Question) (sort : String) (size : Nat) :
    (pairing N p label depth).Relates (Trial.Alike N (p.Calls label))
      (trySize e assumptions question sort size) (trySize e assumptions' question sort size) := by
  refine inScope_twins ((cardinalityBound_twins e sort size).bind fun t t' ht => ?_)
  refine (assert_twins ht).bind fun _ _ _ => ?_
  intro s s'
  refine (check_twins hAssumptions (.bounded question sort size)).attempt.bind
    fun r r' t t' _ hr => ?_
  -- a check without a verdict ends the search for a size, and any other error goes through
  cases r <;> cases r'
  · rename_i fault fault'
    have hAlike : Error.Alike N.Pairs fault fault' := hr
    cases hAlike with
    | model hFault => exact ensures_throw (.model hFault)
    | same =>
      cases fault with
      | inconclusive cause =>
        refine ensures_ite Iff.rfl (fun _ => ensures_throw (.same _)) fun _ => ?_
        refine (logging_twins (Log.calm_entry _ _) (Log.calm_entry _ _) t t').bind
          fun _ _ _ _ _ _ => ?_
        exact ensures_pure .undecided
      | _ => exact ensures_throw (.same _)
  · exact hr.elim
  · exact hr.elim
  · rename_i b b'
    obtain ⟨rfl, hAnswered⟩ := hr
    cases b' with
    | true =>
      refine (proving_twins (Prover.model_twins hAnswered)).bind fun m m' _ _ _ hm => ?_
      exact ensures_pure (.fits hm.1)
    | false => exact ensures_pure .tooSmall

theorem smallest_twins (e : Encoding) (question : Question) (sort : String) (sizes : List Nat) :
    (pairing N p label depth).Relates
      (Option.Rel fun found found' : Nat × SolverModel =>
        found'.1 = found.1 ∧ found.2.Alike N.Pairs (p.Calls label) found'.2)
      (smallest e assumptions question sort sizes)
      (smallest e assumptions' question sort sizes) := by
  induction sizes with
  | nil => exact relates_pure .none
  | cons size sizes ih =>
    refine (trySize_twins hAssumptions e question sort size).bind fun r r' hr => ?_
    cases hr with
    | tooSmall => exact ih
    | fits hm => exact relates_pure (.some ⟨rfl, hm⟩)
    | undecided => exact relates_pure .none

theorem minimizeSort_twins (e : Encoding) (question : Question) {m m' : SolverModel}
    (hm : m.Alike N.Pairs (p.Calls label) m') (sort : String) :
    (pairing N p label 1).Relates (SolverModel.Alike N.Pairs (p.Calls label))
      (minimizeSort e assumptions question m sort)
      (minimizeSort e assumptions' question m' sort) := by
  refine Pairing.Relates.bind (even_liftExcept .encoding (e.sort sort))
    fun solverSort _ hSort => ?_
  subst hSort
  have hElements : m'.elements solverSort = m.elements solverSort := by
    rw [SolverModel.elements, SolverModel.elements, hm.universes]
  rw [hElements]
  refine relates_ite Iff.rfl (fun _ => relates_pure hm) fun _ => ?_
  refine (smallest_twins hAssumptions e question sort _).bind fun found found' hFound => ?_
  -- whichever model is kept, its size bounds the sort from here on
  obtain ⟨bound, n, n', hFound, hFound', hn⟩ : ∃ bound n n',
      found.getD ((m.elements solverSort).length, m) = (bound, n) ∧
      found'.getD ((m.elements solverSort).length, m') = (bound, n') ∧
      n.Alike N.Pairs (p.Calls label) n' := by
    cases hFound with
    | none => exact ⟨_, m, m', rfl, rfl, hm⟩
    | @some kept kept' h => exact ⟨_, kept.2, kept'.2, rfl, Prod.ext h.1 rfl, h.2⟩
  rw [hFound, hFound']
  refine (logging_twins (Log.calm_entry _ _) (Log.calm_entry _ _)).bind fun _ _ _ => ?_
  refine (cardinalityBound_twins e sort _).bind fun t t' ht => ?_
  exact (assert_twins ht).bind fun _ _ _ => relates_pure hn

theorem minimalModel_twins {heard heard' : List Term} (e : Encoding) (question : Question)
    (h : Prover.Answered N (p.Calls label) heard heard' s.prover s'.prover) :
    (pairing N p label depth).Ensures (minimalModel e assumptions question)
      (minimalModel e assumptions' question) s s' fun m m' _ _ =>
        m.Alike N.Pairs (p.Calls label) m' := by
  refine (proving_twins (Prover.model_twins h)).bind fun m m' t t' _ hm => ?_
  refine ensures_of_twins fun hTwins => ensures_get_bind ?_
  refine ensures_ite (by rw [hTwins.prover.options]) (fun _ => ?_) fun _ => ?_
  · refine inScope_twins (relates_foldlM (fun sort _ n n' hn => ?_) hm.1) t t'
    exact minimizeSort_twins hAssumptions e question hn sort
  · exact ensures_pure hm.1

omit hAssumptions in
theorem readModel_twins (count : Nat) {m m' : SolverModel}
    (hm : m.Alike N.Pairs (p.Calls label) m') :
    (pairing N p label depth).Relates Eq (readModel ⟨p, label, stepKeys count⟩ m)
      (readModel ⟨p, label, stepKeys count⟩ m') := by
  rw [readModel, readModel, Encoding.readModel_alike hm]
  exact even_liftExcept _ _

theorem minimalTrace_twins (count : Nat) (question : Question)
    (h : Prover.Answered N (p.Calls label) assumptions assumptions' s.prover s'.prover) :
    (pairing N p label depth).Ensures (minimalTrace ⟨p, label, stepKeys count⟩ assumptions question)
      (minimalTrace ⟨p, label, stepKeys count⟩ assumptions' question) s s'
      fun t t' _ _ => t = t' := by
  refine (minimalModel_twins hAssumptions _ question h).bind fun m m' t t' _ hm => ?_
  exact readModel_twins count hm t t'

omit hAssumptions

theorem diagram_twins (t : Trace) (index : Nat) (simplify : Bool) :
    (pairing N p label depth).Even (diagram t index simplify) := by
  intro s s'
  refine ensures_of_twins fun hTwins => ensures_get_bind ?_
  rw [hTwins.program, hTwins.program']
  refine (even_liftExcept .diagram _ s s').bind fun d _ u u' _ hd => ?_
  subst hd
  refine (logging_twins (Log.calm_framedEntry _ _) (Log.calm_framedEntry _ _) u u').bind
    fun _ _ _ _ _ _ => ensures_pure rfl

theorem pose_twins {δ : Type} {R' : γ → δ → Prop} (e : Encoding) {setUp : SessionM α}
    {setUp' : SessionM β} {answer : α → SessionM γ} {answer' : β → SessionM δ}
    (hSetUp : (pairing N p label 1).Relates R setUp setUp')
    (hAnswer : ∀ a b, R a b → (pairing N p label 1).Relates R' (answer a) (answer' b)) :
    (pairing N p label depth).Relates (Agree R' (Error.Alike N.Pairs)) (pose e setUp answer)
      (pose e setUp' answer') :=
  query_twins e (hSetUp.bind fun a b hab => (hAnswer a b hab).attempt)

/-! ## Verification -/

theorem witness_twins (count : Nat) {terms terms' : List Term}
    (h : List.Forall₂ (Term.Alike N.Pairs) terms terms') (question : Question) :
    (pairing N p label depth).Relates Eq (witness ⟨p, label, stepKeys count⟩ terms question)
      (witness ⟨p, label, stepKeys count⟩ terms' question) := by
  refine query_twins _ ((assertAll_twins h).bind fun _ _ _ => ?_)
  intro s s'
  refine (check_twins .nil question).bind fun b b' t t' _ hb => ?_
  obtain ⟨rfl, hAnswered⟩ := hb
  refine ensures_ite Iff.rfl (fun _ => ?_) fun _ => ensures_pure rfl
  refine (minimalTrace_twins .nil count question hAnswered).bind fun trace _ _ _ _ hTrace => ?_
  exact ensures_pure (congrArg some hTrace)

theorem violatesInitiation_twins (property : Formula) :
    (pairing N p label depth).Even (violatesInitiation property) := by
  refine (overSteps_twins 1).bind fun e e' he => ?_
  obtain ⟨rfl, rfl⟩ := he
  refine (encode_twins _ _ 0).bind fun initial initial' hInitial => ?_
  refine (encode_twins _ _ 0).bind fun bad bad' hBad => ?_
  exact witness_twins 1 (.cons hInitial (.cons hBad .nil)) _

theorem violatesConsecution_twins (assumption property : Formula) (r : Transition) :
    (pairing N p label depth).Even (violatesConsecution assumption property r) := by
  refine (overSteps_twins 2).bind fun e e' he => ?_
  obtain ⟨rfl, rfl⟩ := he
  refine (encode_twins _ _ 0).bind fun before before' hBefore => ?_
  refine (transition_twins _ r 0).bind fun step step' hStep => ?_
  refine (encode_twins _ _ 1).bind fun bad bad' hBad => ?_
  refine (witness_twins 2 (.cons hBefore (.cons hStep (.cons hBad .nil))) _).bind
    fun found found' hFound => ?_
  exact relates_pure (by rw [hFound])

/-! ## Bounded checks -/

theorem choose_twins (name indicated : String) {step : SessionM Term}
    (hStep : (pairing N p label 1).Relates (Term.Alike N.Pairs) step step) :
    (pairing N p label 1).Relates
      (fun c c' => ChoiceAlike N.Pairs c.1 c'.1 ∧ Term.Alike N.Pairs c.2 c'.2)
      (choose name indicated step) (choose name indicated step) := by
  refine (proving_relates (Prover.indicator_twins indicated)).bind fun i i' hi => ?_
  refine hStep.bind fun t t' ht => ?_
  refine (assert_twins (.imp hi.term ht)).bind fun _ _ _ => ?_
  exact relates_pure ⟨⟨rfl, .some hi⟩, hi.term⟩

theorem constrainStep_twins (e : Encoding) (index : Nat) (wanted : String) :
    (pairing N p label 1).Relates (List.Forall₂ (ChoiceAlike N.Pairs))
      (constrainStep e index wanted)
      (constrainStep e index wanted) := by
  refine relates_ite Iff.rfl (fun _ => ?_) fun _ =>
    relates_ite Iff.rfl (fun _ => ?_) fun _ => ?_
  · -- nothing changes
    refine (stutter_twins e index).bind fun t t' ht => (assert_twins ht).bind fun _ _ _ => ?_
    exact relates_pure (.cons ⟨rfl, .none⟩ .nil)
  · -- a transition of a name
    cases e.program.transition? wanted with
    | none => exact relates_throw (.same _)
    | some r =>
      refine (transition_twins e r index).bind fun t t' ht => (assert_twins ht).bind fun _ _ _ => ?_
      exact relates_pure (.cons ⟨rfl, .none⟩ .nil)
  · -- any step, and indicators tell which
    refine (relates_mapM (List.forall₂_same.mpr fun r _ =>
      choose_twins r.name _ (transition_twins e r index))).bind fun cs cs' hcs => ?_
    refine (choose_twins stutterName _ (stutter_twins e index)).bind fun rest rest' hRest => ?_
    have hAll := List.rel_append hcs (.cons hRest .nil)
    refine (assert_twins (Term.alike_disj ?_)).bind fun _ _ _ => relates_pure ?_
    · rw [List.forall₂_map_left_iff, List.forall₂_map_right_iff]
      exact hAll.imp fun _ _ h => h.2
    · rw [List.forall₂_map_left_iff, List.forall₂_map_right_iff]
      exact hAll.imp fun _ _ h => h.1

/-- Two sightings show the same trace, with the same names of steps or alike errors. -/
structure Sighting.Alike (N : Renumbering) (found found' : Sighting) : Prop where
  shown : found'.shown = found.shown
  named : Agree Eq (Error.Alike N.Pairs) found.named found'.named

theorem sightTrace_twins (constraints : List (Option Formula)) (names : List String)
    (description : String) :
    (pairing N p label depth).Relates (Option.Rel (Sighting.Alike N))
      (sightTrace constraints names description) (sightTrace constraints names description) := by
  refine relates_ite Iff.rfl (fun _ => relates_throw (.same _)) fun _ => ?_
  refine (overSteps_twins _).bind fun e e' he => ?_
  obtain ⟨rfl, rfl⟩ := he
  refine query_twins _ ((encode_twins _ _ 0).bind fun initial initial' hInitial => ?_)
  refine (assert_twins hInitial).bind fun _ _ _ => ?_
  refine Pairing.Relates.bind (R := Eq) (even_forM fun (constraint, index) _ => ?_)
    fun _ _ _ => ?_
  · cases constraint with
    | none => exact even_pure ()
    | some f => exact (encode_twins _ f index).bind fun t t' ht => assert_twins ht
  refine (relates_mapM (List.forall₂_same.mpr fun (name, index) _ =>
    constrainStep_twins _ index name)).bind fun choices choices' hChoices => ?_
  intro s s'
  refine (check_twins .nil _).bind fun b b' t t' _ hb => ?_
  obtain ⟨rfl, hAnswered⟩ := hb
  refine ensures_ite Iff.rfl (fun _ => ?_) fun _ => ensures_pure .none
  refine (minimalModel_twins .nil _ _ hAnswered).bind fun m m' u u' _ hm => ?_
  refine (readModel_twins _ hm u u').bind fun trace _ v v' _ hTrace => ?_
  subst hTrace
  have hNamed : Agree Eq (Error.Alike N.Pairs)
      ((nameSteps m choices trace).mapError fun fault => .readback (.model fault))
      ((nameSteps m' choices' trace).mapError fun fault => .readback (.model fault)) := by
    have hSteps := nameSteps_alike hm hChoices trace
    revert hSteps
    cases nameSteps m choices trace <;> cases nameSteps m' choices' trace <;> intro hSteps
    · exact .model hSteps
    · exact hSteps
    · exact hSteps
    · exact hSteps
  revert hNamed
  generalize (nameSteps m choices trace).mapError _ = named
  generalize (nameSteps m' choices' trace).mapError _ = named'
  intro hNamed
  -- a trace with its steps named is logged
  cases named <;> cases named'
  · exact ensures_pure (.some ⟨rfl, hNamed⟩)
  · exact hNamed.elim
  · exact hNamed.elim
  · refine (logging_twins (Log.calm_framedEntry _ _) (Log.calm_framedEntry _ _) v v').bind
      fun _ _ _ _ _ _ => ?_
    exact ensures_pure (.some ⟨rfl, hNamed⟩)

theorem settle_twins {σ : Type} {d : Pairing Error σ}
    (hd : ∀ e e', Error.Alike N.Pairs e e' → d.Alike e e')
    {found found' : Option Sighting} (h : Option.Rel (Sighting.Alike N) found found') :
    d.Relates Eq (Sighting.settle found) (Sighting.settle found') := by
  cases h with
  | none => exact relates_pure rfl
  | some h =>
    refine (relates_liftExcept (h.named.mono (fun _ _ => id) hd)).bind fun t t' ht => ?_
    exact relates_pure (congrArg some ht)

end Session

end InvariantSearch
