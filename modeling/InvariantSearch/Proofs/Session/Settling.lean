import InvariantSearch.Proofs.Session.Basic
import InvariantSearch.Session.Verification

/-!
# How questions are settled

A question is settled by a verdict or by a trace. The trace is read from a model whose universes were
made small, and which is still a model of all that was in force.

* `Session.Tried` — how a trial with a smaller universe came out.
* `Session.Vouched` — a model was given while some terms were in force.
* `Session.Settled` — a query was denied, or a trace was read from a model of it.
* `Part` — what a query may assert of states. `Question.parts?` lists it for the questions of a
  verification.
* `Session.Posed` — a question was settled by a query that asserts its parts.

Main results: `minimizeSort_ensures` says how a universe is made small, `witness_ensures` how a query
for a trace is settled, and `violatesConsecution_ensures` and its like what the checks of a
verification ask.
-/

namespace InvariantSearch

open Discipline Encoding

open List hiding get modify

variable {states count limit : Nat} {found : Option Trace} {fs : List Formula} {r : Transition}
  {Sure : Prop}

namespace Session

variable {T : Trust} {fixed : Bool} {s t : Session} {e : Encoding} {assumptions : List Term}
  {question : Question} {sort : String} {m : SolverModel} {needed : Term → Prop}

/-! ## Small models -/

/-- How a trial came out that bounds a universe in a query. Numbers from `n` on are fresh in the
bound. -/
def Tried (T : Trust) (e : Encoding) (query : Query) (sort : String) (n size : Nat) (trial : Trial)
    (t : Session) : Prop :=
  ∃ bound k k', (T.Sure → n ≤ k) ∧ e.cardinalityBound sort size k = .ok bound k' ∧
    match trial with
    | .fits m => T.Kept t.prover.asks → T.Tells
        ⟨.bounded query.question sort size, [bound] :: query.assertions, query.assumptions⟩ (.sat m)
    | .tooSmall => ∃ core, T.Kept t.prover.asks → T.Tells
        ⟨.bounded query.question sort size, [bound] :: query.assertions, query.assumptions⟩
        (.unsat core)
    | .undecided => ∃ description reason,
        T.Fails (.inconclusive ⟨description, reason, false⟩) t.prover

theorem Tried.later {query : Query} {n n' size : Nat} {trial : Trial}
    (h : Tried T e query sort n size trial s) (hst : T.Proceeds fixed s t) (hn : T.Sure → n' ≤ n) :
    Tried T e query sort n' size trial t := by
  obtain ⟨bound, k, k', hk, hBound, hTrial⟩ := h
  refine ⟨bound, k, k', fun hSure => Nat.le_trans (hn hSure) (hk hSure), hBound, ?_⟩
  cases trial with
  | fits m => exact fun hKept => hTrial (hst.kept hKept)
  | tooSmall => exact hTrial.imp fun core h hKept => h (hst.kept hKept)
  | undecided =>
    obtain ⟨description, reason, hFails⟩ := hTrial
    exact ⟨description, reason, hFails.later hst.prover⟩

section Sizes

variable (hs : T.Sound s.prover) (hSort : T.Sure → e.program.hasSort sort = true)
  (assumptions : List Term) (question : Question)

include hs hSort

theorem trySize_ensures (size : Nat) :
    (T.onSession fixed).Ensures (trySize e assumptions question sort size) s fun trial t =>
      Tried T e ⟨question, s.prover.inForce, assumptions⟩ sort s.prover.fresh size trial t ∧
        t.prover.inForce = s.prover.inForce := by
  refine inScope_ensures hs fun hOpened => ?_
  refine (encoding_ensures (fun hSure => total_of_gives (cardinalityBound_total (hSort hSure) size))
    (rises_cardinalityBound _ _)).bind fun bound t hst ht => ?_
  refine (assert_ensures bound).bind fun _ u htu hu => ?_
  have hForce : u.prover.inForce = [bound] :: s.prover.inForce :=
    (hu.2.after ht.inForce).inForce_opened (p := s.prover)
  have hSound := htu.sound (hst.sound hOpened)
  refine ((check_ensures hSound assumptions (.bounded question sort size)).attempt fun _ h => h).bind
    fun r v huv hr => ?_
  rw [hForce] at hr
  split
  · obtain ⟨⟨m, hLast⟩, hHeard⟩ := hr.1 true rfl
    refine (proving_ensures (Prover.model_ensures hLast)).bind fun m' w hvw hm => ensures_pure ?_
    obtain ⟨rfl, hw⟩ := hm
    refine ⟨bound, _, _, fun _ => Nat.le_refl _, ht.run, fun hKept => hLast ▸ hHeard.tells ?_⟩
    exact hvw.kept hKept
  · obtain ⟨⟨core, hLast⟩, hHeard⟩ := hr.1 false rfl
    exact ensures_pure ⟨bound, _, _, fun _ => Nat.le_refl _, ht.run, core,
      fun hKept => hLast ▸ hHeard.tells hKept⟩
  · rename_i cause
    have hFails : T.Fails (.inconclusive cause) v.prover := hr.2 _ rfl
    refine ensures_ite (fun _ => ensures_throw hFails) fun hFree => ?_
    refine (logging_ensures _).bind fun _ w hvw _ => ensures_pure ?_
    obtain ⟨description, reason, interrupted⟩ := cause
    obtain rfl : interrupted = false := by simpa using hFree
    have hLater : T.Fails _ w.prover := hFails.later hvw.prover
    exact ⟨bound, _, _, fun _ => Nat.le_refl _, ht.run, description, reason,
      hLater.noSelfCheck, hLater.noMisstep, hLater.spared⟩
  · exact ensures_throw (hr.2 _ rfl)

/-- **Sizes are tried in turn**: all before the one that fits were too small. -/
theorem smallest_ensures (sizes : List Nat) :
    (T.onSession fixed).Ensures (smallest e assumptions question sort sizes) s fun found t =>
      (let tried := Tried T e ⟨question, s.prover.inForce, assumptions⟩ sort s.prover.fresh
      match found with
      | some (size, m) => tried size (.fits m) t ∧ ∃ before after,
          sizes = before ++ size :: after ∧ ∀ k ∈ before, tried k .tooSmall t
      | none => (∀ k ∈ sizes, tried k .tooSmall t) ∨ ∃ k, tried k .undecided t) ∧
        t.prover.inForce = s.prover.inForce := by
  induction sizes generalizing s with
  | nil => exact ensures_pure ⟨.inl fun k hk => (by cases hk), rfl⟩
  | cons size sizes ih =>
    rw [smallest]
    refine (trySize_ensures hs hSort assumptions question size).bind fun trial t hst ht => ?_
    obtain ⟨hTried, hForce⟩ := ht
    cases trial with
    | fits m => exact ensures_pure ⟨⟨hTried, [], sizes, rfl, fun k hk => (by cases hk)⟩, hForce⟩
    | undecided => exact ensures_pure ⟨.inr ⟨size, hTried⟩, hForce⟩
    | tooSmall =>
      refine (ih (hst.sound hs)).imp fun found u htu hu => ?_
      rw [hForce] at hu
      refine ⟨?_, hu.2⟩
      have hLater : ∀ {k trial}, Tried T e ⟨question, s.prover.inForce, assumptions⟩ sort
          t.prover.fresh k trial u → Tried T e ⟨question, s.prover.inForce, assumptions⟩ sort
          s.prover.fresh k trial u :=
        fun h => h.later ((T.onSession fixed).refl u) hst.prover.fresh
      have hHead := hTried.later htu fun _ => Nat.le_refl _
      cases found with
      | none =>
        refine hu.1.imp (fun hAll => ?_) fun h => h.imp fun _ => hLater
        exact forall_mem_cons.mpr ⟨hHead, fun k hk => hLater (hAll k hk)⟩
      | some pair =>
        obtain ⟨hFits, before, after, hSizes, hBefore⟩ := hu.1
        refine ⟨hLater hFits, size :: before, after, by rw [hSizes, cons_append], ?_⟩
        exact forall_mem_cons.mpr ⟨hHead, fun k hk => hLater (hBefore k hk)⟩

end Sizes

/-- How the universe of a sort was made small. -/
inductive Minimized (T : Trust) (e : Encoding) (query : Query) (sort : String) (s : Session)
    (m : SolverModel) : SolverModel → Session → Prop
  /-- A model without a universe stays as it is. -/
  | unlisted {t : Session} {solverSort : SolverSort} (hSort : e.sort sort = .ok solverSort)
      (hSize : (m.elements solverSort).length = 0)
      (hForce : t.prover.inForce = s.prover.inForce) : Minimized T e query sort s m m t
  /-- The least size that fits becomes a bound. -/
  | bounded {m' : SolverModel} {t : Session} {solverSort : SolverSort} {size k : Nat}
      {bound : Term} (hSort : e.sort sort = .ok solverSort) (hSize : 0 < size)
      (hLe : size ≤ (m.elements solverSort).length)
      (hFits : m' = m ∧ size = (m.elements solverSort).length ∨
        Tried T e query sort s.prover.fresh size (.fits m') t)
      (hLess : (∀ k, 0 < k → k < size → Tried T e query sort s.prover.fresh k .tooSmall t) ∨
        m' = m ∧ ∃ k, Tried T e query sort s.prover.fresh k .undecided t)
      (hk : T.Sure → s.prover.fresh ≤ k)
      (hBound : e.cardinalityBound sort size k = .ok bound t.prover.fresh)
      (hAdds : s.prover.Adds [bound] t.prover) : Minimized T e query sort s m m' t

/-- **A universe is made as small as the answers allow**, and bounded from then on. -/
theorem minimizeSort_ensures (hs : T.Sound s.prover)
    (hSort : T.Sure → e.program.hasSort sort = true) (assumptions : List Term)
    (question : Question) (m : SolverModel) :
    (T.onSession false).Ensures (minimizeSort e assumptions question m sort) s
      (Minimized T e ⟨question, s.prover.inForce, assumptions⟩ sort s m) := by
  refine (ensures_liftExcept (Q := fun solverSort t => e.sort sort = .ok solverSort ∧ t = s)
    (fun _ h => ⟨h, rfl⟩) fun fault hFault => Trust.fails_of_not_sure rfl fun hSure => ?_).bind
    fun solverSort t _ ht => ?_
  · obtain ⟨solverSort, hOk⟩ := sort_total (hSort hSure)
    rw [hOk] at hFault
    cases hFault
  obtain ⟨hSolverSort, rfl⟩ := ht
  refine ensures_ite (fun hNone => ensures_pure (.unlisted hSolverSort hNone rfl)) fun hSome => ?_
  refine (smallest_ensures hs hSort assumptions question _).bind fun found u htu hu => ?_
  obtain ⟨hFound, hForce⟩ := hu
  generalize hPair : found.getD ((m.elements solverSort).length, m) = pair
  obtain ⟨size, m'⟩ := pair
  refine (logging_ensures _).bind fun _ v huv hv => ?_
  refine (encoding_ensures (fun hSure => total_of_gives (cardinalityBound_total (hSort hSure) size))
    (rises_cardinalityBound _ _)).bind fun bound w hvw hw => ?_
  refine (assert_ensures bound).bind fun _ x hwx hx => ensures_pure ?_
  have hux := (T.onSession false).trans huv ((T.onSession false).trans hvw hwx)
  have hLater : ∀ {k trial}, Tried T e ⟨question, t.prover.inForce, assumptions⟩ sort
      t.prover.fresh k trial u → Tried T e ⟨question, t.prover.inForce, assumptions⟩ sort
      t.prover.fresh k trial x := fun h => h.later hux fun _ => Nat.le_refl _
  have hFresh : v.prover.fresh = u.prover.fresh := by rw [hv]
  have hRun := hw.run
  rw [hFresh, ← hx.1] at hRun
  have hAdds : t.prover.Adds [bound] x.prover := by
    refine hx.2.after (hw.inForce.trans ?_)
    rw [hv]
    exact hForce
  cases found with
  | none =>
    cases hPair
    refine .bounded hSolverSort (Nat.pos_of_ne_zero hSome) (Nat.le_refl _) (.inl ⟨rfl, rfl⟩) ?_
      htu.prover.fresh hRun hAdds
    refine hFound.imp (fun hAll k hk hLess => ?_) fun h => ⟨rfl, h.imp fun _ => hLater⟩
    exact hLater (hAll k (mem_range'_1.mpr (by omega)))
  | some pair =>
    cases hPair
    obtain ⟨hFits, before, after, hSizes, hBefore⟩ := hFound
    -- sizes are tried in order, so those below the one that fits come before it
    obtain ⟨count, -, rfl, hRest⟩ := range'_eq_append_iff.mp hSizes
    obtain ⟨hSize, -, -⟩ := range'_eq_cons_iff.mp hRest.symm
    have hLess := mem_range'_1.mp (hSizes ▸ mem_append_right _ mem_cons_self)
    refine .bounded hSolverSort (by omega) (by omega) (.inr (hLater hFits))
      (.inl fun k hk hLess => ?_) htu.prover.fresh hRun hAdds
    exact hLater (hBefore k (mem_range'_1.mpr (by omega)))

/-- A model was given to a query over so many states, under some assumptions and while some terms
were in force, and it is as trusted. -/
def Vouched (T : Trust) (states : Nat) (assumptions : List Term) (needed : Term → Prop)
    (m : SolverModel) (s : Session) : Prop :=
  ∃ query : Query, query.question.states = states ∧ query.assumptions = assumptions ∧
    (∀ u, needed u → u ∈ query.assertions.flatten) ∧
      (T.Kept s.prover.asks → T.Tells query (.sat m))

theorem Vouched.mono {needed' : Term → Prop} (h : Vouched T states assumptions needed m s)
    (hst : T.Proceeds fixed s t) (hNeeded : ∀ u, needed' u → needed u) :
    Vouched T states assumptions needed' m t := by
  obtain ⟨query, hStates, hAssumptions, hAsserted, hTells⟩ := h
  exact ⟨query, hStates, hAssumptions, fun u hu => hAsserted u (hNeeded u hu),
    fun hKept => hTells (hst.kept hKept)⟩

theorem Tried.vouched {n size : Nat} {assertions : List (List Term)}
    (h : Tried T e ⟨question, assertions, assumptions⟩ sort n size (.fits m) s)
    (hNeeded : ∀ u, needed u → u ∈ assertions.flatten) :
    Vouched T question.states assumptions needed m s := by
  obtain ⟨bound, k, k', -, -, hTells⟩ := h
  refine ⟨_, rfl, rfl, fun u hu => ?_, hTells⟩
  rw [flatten_cons]
  exact mem_append_right _ (hNeeded u hu)

/-- **A model that was made small is still one of all that was in force.** -/
theorem minimalModel_ensures (hs : T.Sound s.prover) (hLast : s.prover.last = .sat m)
    (hNeeded : ∀ u, needed u → s.prover.InForce u)
    (hm : Vouched T question.states assumptions needed m s) :
    (T.onSession fixed).Ensures (minimalModel e assumptions question) s fun m' t =>
      Vouched T question.states assumptions needed m' t := by
  refine (proving_ensures (Prover.model_ensures hLast)).bind fun m' t hst ht => ?_
  obtain ⟨rfl, ht⟩ := ht
  have hNeeded : ∀ u, needed u → t.prover.InForce u := ht ▸ hNeeded
  have hm := hm.mono hst fun _ h => h
  refine ensures_get ?_
  refine ensures_ite (fun _ => ?_) fun _ => ensures_pure hm
  refine (inScope_ensures (Q := fun m t => Vouched T question.states assumptions needed m t)
    (hst.sound hs) fun hOpened => ?_).imp fun _ _ _ h => h.1
  -- what is needed stays in force while bounds are added
  have hStart : Vouched T question.states assumptions needed m' t.opened ∧
      ∀ v, needed v → t.opened.prover.InForce v := ⟨hm, hNeeded⟩
  refine (ensures_foldlM (I := fun m t => Vouched T question.states assumptions needed m t ∧
    ∀ u, needed u → t.prover.InForce u) (fun sort hSort m v hv hInv => ?_) hStart).imp
    fun _ _ _ h => h.1
  have hDeclared : e.program.hasSort sort = true := by simpa [Program.hasSort] using hSort
  refine (minimizeSort_ensures (hv.sound hOpened) (fun _ => hDeclared) assumptions question m).imp
    fun m' w hvw hw => ⟨?_, fun u hu => hvw.prover.inForce (hInv.2 u hu)⟩
  cases hw with
  | unlisted => exact hInv.1.mono hvw fun _ h => h
  | bounded _ _ _ hFits =>
    rcases hFits with ⟨rfl, -⟩ | hFits
    · exact hInv.1.mono hvw fun _ h => h
    · exact hFits.vouched hInv.2

/-! ## Traces -/

/-- Models that are as trusted can be read. -/
def Reads (T : Trust) (e : Encoding) : Prop :=
  ∀ query m, T.Tells query (.sat m) → query.question.states = e.keys.length →
    ∃ t, e.readModel m = .ok t

theorem readModel_ensures (hReads : T.Firm → Reads T e ∧ question.states = e.keys.length)
    (hm : Vouched T question.states assumptions needed m s) :
    (T.onSession fixed).Ensures (readModel e m) s fun trace t =>
      e.readModel m = .ok trace ∧ t = s := by
  refine ensures_liftExcept (fun trace hTrace => ⟨hTrace, rfl⟩) fun fault hFault =>
    Trust.fails_of_answer rfl rfl fun hFirm hKept => ?_
  obtain ⟨query, hQuery, -, -, hTells⟩ := hm
  obtain ⟨hReads, hStates⟩ := hReads hFirm
  obtain ⟨trace, hTrace⟩ := hReads query m (hTells hKept) (hQuery.trans hStates)
  rw [hTrace] at hFault
  cases hFault

/-- **The trace of a small model can be read**, where models are as trusted. -/
theorem minimalTrace_ensures (hReads : T.Firm → Reads T e ∧ question.states = e.keys.length)
    (hs : T.Sound s.prover) (hLast : s.prover.last = .sat m)
    (hNeeded : ∀ u, needed u → s.prover.InForce u)
    (hm : Vouched T question.states assumptions needed m s) :
    (T.onSession fixed).Ensures (minimalTrace e assumptions question) s fun trace t =>
      ∃ m, e.readModel m = .ok trace ∧ Vouched T question.states assumptions needed m t := by
  refine (minimalModel_ensures hs hLast hNeeded hm).bind fun m' t _ hm' => ?_
  exact (readModel_ensures hReads hm').imp fun trace u _ hu => ⟨m', hu.1, hu.2 ▸ hm'⟩

theorem diagram_ensures (hFirm : ¬ T.Firm) (trace : Trace) (index : Nat) (simplify : Bool) :
    (T.onSession fixed).Ensures (diagram trace index simplify) s fun d _ =>
      Diagram.ofTrace s.program trace index simplify = .ok d := by
  refine ensures_get ?_
  refine (ensures_liftExcept
    (Q := fun d _ => Diagram.ofTrace s.program trace index simplify = .ok d) (fun _ h => h)
    fun _ _ => Trust.fails_of_answer rfl rfl fun h => absurd h hFirm).bind fun d v _ hd => ?_
  exact (logging_ensures _).bind fun _ _ _ _ => ensures_pure hd

/-! ## Settling -/

/-- A query was denied, or a trace was read from a model of it. The trace may have got names for its
steps afterwards. -/
def Settled (T : Trust) (query : Query) (e : Encoding) (found : Option Trace) (t : Session) : Prop :=
  match found with
  | none => ∃ core, T.Kept t.prover.asks → T.Tells query (.unsat core)
  | some trace => (∃ m, T.Kept t.prover.asks → T.Tells query (.sat m)) ∧
      ∃ m read names, e.readModel m = .ok read ∧ trace = { read with transitions := names } ∧
        Vouched T query.question.states query.assumptions (· ∈ query.assertions.flatten) m t

theorem settle_ensures (hs : T.Sound s.prover)
    (hReads : T.Firm → Reads T e ∧ question.states = e.keys.length) :
    (T.onSession fixed).Ensures
      (do
        if ← check [] question then
          let t ← minimalTrace e [] question
          return some t
        else return none)
      s (Settled T ⟨question, s.prover.inForce, []⟩ e) := by
  refine (check_ensures hs [] question).bind fun b t hst ht => ?_
  obtain ⟨hSettles, hHeard⟩ := ht
  refine ensures_ite (fun hb => ?_) fun hb => ?_
  · subst hb
    obtain ⟨m, hLast⟩ := hSettles
    have hTells : T.Kept t.prover.asks → T.Tells ⟨question, s.prover.inForce, []⟩ (.sat m) :=
      fun hKept => hLast ▸ hHeard.tells hKept
    have hVouched : Vouched T question.states [] s.prover.InForce m t :=
      ⟨⟨question, s.prover.inForce, []⟩, rfl, rfl, fun _ hu => hu, hTells⟩
    refine (minimalTrace_ensures hReads (hst.sound hs) hLast (fun u hu => hst.prover.inForce hu)
      hVouched).bind fun trace u htu hu => ensures_pure ?_
    obtain ⟨small, hRead, hSmall⟩ := hu
    exact ⟨⟨m, fun hKept => hTells (htu.kept hKept)⟩, small, trace, _, hRead, rfl, hSmall⟩
  · rw [Bool.not_eq_true] at hb
    subst hb
    obtain ⟨core, hLast⟩ := hSettles
    exact ensures_pure ⟨core, fun hKept => hLast ▸ hHeard.tells hKept⟩

/-- **A witness is looked for with one query**, which asserts the definitions of derived relations
and then the terms, on top of what was in force. -/
theorem witness_ensures (hs : T.Sound s.prover) (hChecked : T.Sure → e.program.Checked)
    (hReads : T.Firm → Reads T e ∧ question.states = e.keys.length) (terms : List Term) :
    (T.onSession fixed).Ensures (witness e terms question) s fun found t =>
      ∃ ts, AreDefinitions e (range e.keys.length) ts ∧
        Settled T ⟨question, (ts ++ terms).reverse :: s.prover.inForce, []⟩ e found t := by
  refine (query_ensures hs hChecked fun ts t hAre hForce hst ht => ?_).imp fun _ _ _ h => h.1
  refine (assertAll_ensures terms).bind fun _ u htu hu => ?_
  obtain ⟨scope, scopes, hBefore, hAfter⟩ := hu
  obtain ⟨rfl, rfl⟩ := cons.inj (hForce.symm.trans hBefore)
  refine (settle_ensures (htu.sound ht) hReads).imp fun found v _ hv => ⟨ts, hAre, ?_⟩
  rw [hAfter, ← reverse_append] at hv
  cases found with
  | none => exact hv
  | some trace => exact hv

/-! ## Records -/

/-- The definitions of the derived relations are asserted for every state. -/
def Defines (e : Encoding) (asserted : Term → Prop) : Prop :=
  ∀ index < e.keys.length, ∀ f ∈ definitions e.program true, ∃ t, asserted t ∧ Encodes e f index t

theorem AreDefinitions.defines {ts : List Term} {asserted : Term → Prop}
    (h : AreDefinitions e (range count) ts) (hCount : e.keys.length = count)
    (hAsserted : ∀ u ∈ ts, asserted u) : Defines e asserted := by
  subst hCount
  intro index hIndex f hf
  obtain ⟨u, hu, hEncodes⟩ := h.all (mem_range.mpr hIndex) hf
  exact ⟨u, hAsserted u hu, hEncodes⟩

/-- A model was given to a question over some states, while some terms were in force. -/
def Modelled (s : Session) (needed : Term → Prop) (states : Nat) (m : SolverModel) : Prop :=
  ∃ query answer, s.prover.Recorded query answer ∧ answer.verdict = .sat m ∧
    query.question.states = states ∧ ∀ t, needed t → t ∈ query.assertions.flatten

theorem Modelled.of_recordedIn (h : s.Modelled needed states m) (hst : s.RecordedIn t) :
    t.Modelled needed states m := by
  obtain ⟨query, answer, hRecorded, h⟩ := h
  exact ⟨query, answer, hst.subset hRecorded, h⟩

/-- A trace was read from a model of a query over some states, asked while `base` was in force.
A condition was asserted of the first state and, if a transition is given, a step by it. The trace
may have got names for its steps afterwards. -/
def Pictures (s : Session) (p : Program) (label : String) (base : List Term) (states : Nat)
    (f : Formula) (step : Option Transition) (trace : Trace) : Prop :=
  ∃ m needed read, s.Modelled needed states m ∧ (∀ t ∈ base, needed t) ∧
    Defines ⟨p, label, stepKeys states⟩ needed ∧
    (∃ t, needed t ∧ Encodes ⟨p, label, stepKeys states⟩ f 0 t) ∧
    (∀ r, step = some r → ∃ t, needed t ∧
      ∃ n n', Encoding.transition ⟨p, label, stepKeys states⟩ r 0 n = .ok t n') ∧
    Encoding.readModel ⟨p, label, stepKeys states⟩ m = .ok read ∧
    ∃ names, trace = { read with transitions := names }

section Pictures

variable {p : Program} {label : String} {base : List Term} {states : Nat} {f : Formula}
  {step : Option Transition} {trace : Trace} {Sure : Prop} {limit : Nat} {query : Query}

theorem Pictures.of_recordedIn {base' : List Term}
    (h : s.Pictures p label base states f step trace) (hst : s.RecordedIn t)
    (hBase : ∀ u ∈ base', u ∈ base) : t.Pictures p label base' states f step trace := by
  obtain ⟨m, needed, read, hm, hNeeded, hRest⟩ := h
  exact ⟨m, needed, read, hm.of_recordedIn hst, fun u hu => hNeeded u (hBase u hu), hRest⟩

theorem Pictures.fits (h : s.Pictures p label base states f step trace) : trace.Fits p := by
  obtain ⟨m, needed, read, -, -, -, -, -, hRead, names, rfl⟩ := h
  have hFits := Encoding.fits_readModel hRead
  exact ⟨hFits.1, hFits.2, hFits.3⟩

theorem Vouched.modelled
    (h : Vouched (.recording t.prover.asks Sure limit) states assumptions needed m t) :
    t.Modelled needed states m := by
  obtain ⟨query, hStates, -, hAsserted, hTells⟩ := h
  obtain ⟨answer, hRecorded, hVerdict⟩ := Trust.exists_recorded hTells
  exact ⟨query, answer, hRecorded, hVerdict, hStates, hAsserted⟩

/-- What a search for a counterexample leaves in the record: the verdict on its question,
and a trace of the program if there is one. -/
def Sought (question : Question) (p : Program) (found : Option Trace) (t : Session) : Prop :=
  match found with
  | none => ∃ core, t.Told question (.unsat core)
  | some trace => trace.Fits p ∧ ∃ m, t.Told question (.sat m)

theorem Settled.sought (h : Settled (.recording t.prover.asks Sure limit) query e found t) :
    Sought query.question e.program found t := by
  cases found with
  | none =>
    obtain ⟨core, hTells⟩ := h
    obtain ⟨answer, hRecorded, hVerdict⟩ := Trust.exists_recorded hTells
    exact ⟨core, query, answer, hRecorded, rfl, hVerdict⟩
  | some trace =>
    obtain ⟨⟨m, hTells⟩, small, read, names, hRead, rfl, -⟩ := h
    obtain ⟨answer, hRecorded, hVerdict⟩ := Trust.exists_recorded hTells
    have hFits := Encoding.fits_readModel hRead
    exact ⟨⟨hFits.1, hFits.2, hFits.3⟩, m, query, answer, hRecorded, rfl, hVerdict⟩

theorem Settled.pictures
    (h : Settled (.recording t.prover.asks Sure limit) query
      ⟨p, label, stepKeys query.question.states⟩ (some trace) t)
    (hBase : ∀ u ∈ base, u ∈ query.assertions.flatten)
    (hDefines : Defines ⟨p, label, stepKeys query.question.states⟩ (· ∈ query.assertions.flatten))
    (hf : ∃ u ∈ query.assertions.flatten,
      Encodes ⟨p, label, stepKeys query.question.states⟩ f 0 u)
    (hStep : ∀ r, step = some r → ∃ u ∈ query.assertions.flatten, ∃ n n',
      Encoding.transition ⟨p, label, stepKeys query.question.states⟩ r 0 n = .ok u n') :
    t.Pictures p label base query.question.states f step trace := by
  obtain ⟨-, m, read, names, hRead, hTrace, hVouched⟩ := h
  exact ⟨m, _, read, hVouched.modelled, hBase, hDefines, hf, hStep, hRead, names, hTrace⟩

end Pictures

end Session

/-! ## Verification -/

/-- Something that may be asserted of states. -/
inductive Part where
  /-- A formula about what is the same in all states. -/
  | always (f : Formula)
  /-- A formula in a state. -/
  | state (f : Formula) (index : Nat)
  /-- A transition from a state to the next one. -/
  | step (r : Transition) (index : Nat)

/-- A term says a part, about so many states. -/
def Part.SaidBy (p : Program) (label : String) (count : Nat) : Part → Term → Prop
  | .always f, t => Session.Encodes ⟨p, label, stepKeys 1⟩ f 0 t
  | .state f index, t => Session.Encodes ⟨p, label, stepKeys count⟩ f index t
  | .step r index, t => ∃ n n', Encoding.transition ⟨p, label, stepKeys count⟩ r index n = .ok t n'

/-- What the questions of a verification say about states. -/
def Question.parts? (p : Program) : Question → Option (List Part)
  | .initiation property => some [.state p.initial 0, .state (.not property) 0]
  | .consecution assumption property r =>
    some [.state assumption 0, .step r 0, .state (.not property) 1]
  | .implication assumption property => some [.state assumption 0, .state (.not property) 0]
  | _ => none

namespace Session

variable {T : Trust} {fixed : Bool} {s t : Session} {property assumption : Formula}

/-- A question was settled by a query that asserts what it says about states. -/
def Posed (T : Trust) (s : Session) (question : Question) (found : Option Trace) (t : Session) :
    Prop :=
  let e : Encoding := ⟨s.program, s.label, stepKeys question.states⟩
  ∃ parts ts terms, question.parts? s.program = some parts ∧
    AreDefinitions e (range question.states) ts ∧
    Forall₂ (Part.SaidBy s.program s.label question.states) parts terms ∧
    Settled T ⟨question, (ts ++ terms).reverse :: s.prover.inForce, []⟩ e found t

/-- The formulas of a question can be encoded. -/
structure Encodable (T : Trust) (s : Session) (fs : List Formula) : Prop where
  checked : T.Sure → s.program.Checked
  resolves : T.Sure → ∀ f ∈ fs, f.Resolves s.program []
  reads : T.Firm → ∀ count, Reads T ⟨s.program, s.label, stepKeys count⟩

theorem Encodable.total (h : Encodable T s fs) {f : Formula} (hf : f ∈ fs) {index : Nat}
    (hIndex : index < count) (hSure : T.Sure) :
    Total (Encoding.encode ⟨s.program, s.label, stepKeys count⟩ f index []) :=
  total_encode (h.checked hSure) (h.resolves hSure f hf) (by simpa [stepKeys] using hIndex)

theorem Encodable.reads_and (h : Encodable T s fs) (question : Question) (hFirm : T.Firm) :
    Reads T ⟨s.program, s.label, stepKeys question.states⟩ ∧
      question.states = (stepKeys question.states).length :=
  ⟨h.reads hFirm _, by simp [stepKeys]⟩

section Violations

variable (hs : T.Sound s.prover)

include hs

theorem violatesInitiation_ensures (h : Encodable T s [s.program.initial, .not property]) :
    (T.onSession fixed).Ensures (violatesInitiation property) s
      (Posed T s (.initiation property)) := by
  refine (overSteps_ensures fun _ => Nat.one_pos).bind fun e t hst ht => ?_
  obtain ⟨rfl, ht⟩ := ht
  refine (encode_ensures (h.total (by simp) Nat.one_pos)).bind fun initial u htu hu => ?_
  refine (encode_ensures (h.total (by simp) Nat.one_pos)).bind fun bad v huv hv => ?_
  have hSound := huv.sound (htu.sound (hst.sound hs))
  refine (witness_ensures hSound h.checked (h.reads_and (.initiation property)) _).imp
    fun found w _ hw => ?_
  obtain ⟨ts, hAre, hSettled⟩ := hw
  rw [hv.inForce, hu.inForce, ht] at hSettled
  exact ⟨_, ts, _, rfl, hAre, .cons hu.encodes (.cons hv.encodes .nil), hSettled⟩

theorem violatesImplication_ensures (h : Encodable T s [assumption, .not property]) :
    (T.onSession fixed).Ensures (violatesImplication assumption property) s
      (Posed T s (.implication assumption property)) := by
  refine (overSteps_ensures fun _ => Nat.one_pos).bind fun e t hst ht => ?_
  obtain ⟨rfl, ht⟩ := ht
  refine (encode_ensures (h.total (by simp) Nat.one_pos)).bind fun before u htu hu => ?_
  refine (encode_ensures (h.total (by simp) Nat.one_pos)).bind fun bad v huv hv => ?_
  have hSound := huv.sound (htu.sound (hst.sound hs))
  refine (witness_ensures hSound h.checked (h.reads_and (.implication assumption property)) _).imp
    fun found w _ hw => ?_
  obtain ⟨ts, hAre, hSettled⟩ := hw
  rw [hv.inForce, hu.inForce, ht] at hSettled
  exact ⟨_, ts, _, rfl, hAre, .cons hu.encodes (.cons hv.encodes .nil), hSettled⟩

/-- **A step into a violation is looked for with one query.** -/
theorem violatesConsecution_ensures (h : Encodable T s [assumption, .not property])
    (hr : T.Sure → r ∈ s.program.transitions) :
    (T.onSession fixed).Ensures (violatesConsecution assumption property r) s
      (Posed T s (.consecution assumption property r)) := by
  refine (overSteps_ensures fun _ => Nat.two_pos).bind fun e t hst ht => ?_
  obtain ⟨rfl, ht⟩ := ht
  refine (encode_ensures (h.total (by simp) Nat.two_pos)).bind fun before u htu hu => ?_
  refine (transition_ensures fun hSure => total_step (h.checked hSure)
    (mem_cons_of_mem _ (mem_map_of_mem (hr hSure))) (by simp [stepKeys])
    (by simp [stepKeys, nextState])).bind fun step v huv hv => ?_
  refine (encode_ensures (h.total (by simp) Nat.one_lt_two)).bind fun bad w hvw hw => ?_
  have hSound := hvw.sound (huv.sound (htu.sound (hst.sound hs)))
  refine (witness_ensures hSound h.checked (h.reads_and (.consecution assumption property r)) _).bind
    fun found x _ hx => ensures_pure ?_
  obtain ⟨ts, hAre, hSettled⟩ := hx
  rw [hw.inForce, hv.inForce, hu.inForce, ht] at hSettled
  refine ⟨_, ts, _, rfl, hAre, .cons hu.encodes (.cons ⟨_, _, hv.run⟩ (.cons hw.encodes .nil)), ?_⟩
  cases found with
  | none => exact hSettled
  | some trace =>
    obtain ⟨hTold, m, read, names, hRead, rfl, hVouched⟩ := hSettled
    exact ⟨hTold, m, read, _, hRead, rfl, hVouched⟩

end Violations

/-- **Whether a transition leads into a violation of a property is in the record** once it
was asked. A step into a violation is pictured with the assumption it starts from. -/
theorem Posed.pictures
    (h : Posed (.recording t.prover.asks Sure limit) s (.consecution assumption property r) found t) :
    Sought (.consecution assumption property r) s.program found t ∧ ∀ trace, found = some trace →
      t.Pictures s.program s.label s.prover.base 2 assumption (some r) trace := by
  obtain ⟨parts, ts, terms, hParts, hAre, hSaid, hSettled⟩ := h
  refine ⟨hSettled.sought, fun trace hTrace => ?_⟩
  subst hTrace
  cases hParts
  obtain ⟨before, hBefore, hEncodes⟩ := exists_right_of_forall₂ hSaid mem_cons_self
  obtain ⟨step, hStep, hTerm⟩ := exists_right_of_forall₂ hSaid (mem_cons_of_mem _ mem_cons_self)
  refine hSettled.pictures (fun u hu => ?_) (hAre.defines (by simp [stepKeys]) fun u hu => ?_)
    ⟨before, ?_, hEncodes⟩ fun r' hr' => ⟨step, ?_, ?_⟩
  · exact mem_append_right _ (Prover.mem_inForce_of_mem_base hu)
  · simp [hu]
  · simp [hBefore]
  · simp [hStep]
  · cases hr'
    exact hTerm

theorem violatesConsecution_records
    (h : Sure → s.program.Checked ∧ assumption.Resolves s.program [] ∧ property.Resolves s.program
      [] ∧ r ∈ s.program.transitions) :
    ((Trust.recording [] Sure limit).onSession fixed).Ensures
      (violatesConsecution assumption property r) s fun found t =>
        Sought (.consecution assumption property r) s.program found t ∧
          ∀ trace, found = some trace →
            t.Pictures s.program s.label s.prover.base 2 assumption (some r) trace := by
  refine (Trust.ensures_recording fun final => violatesConsecution_ensures
    (Trust.sound_recording final Sure limit _) ⟨fun hSure => (h hSure).1, fun hSure f hf => ?_,
      False.elim⟩ fun hSure => (h hSure).2.2.2).imp fun found t _ ht => ht.pictures
  rcases mem_cons.mp hf with rfl | hf
  · exact (h hSure).2.1
  · rw [mem_singleton.mp hf]
    exact .not (h hSure).2.2.1

end Session

end InvariantSearch
