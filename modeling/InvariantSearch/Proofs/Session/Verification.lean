import InvariantSearch.Proofs.Session.Settling
import InvariantSearch.Proofs.Session.Starting

/-!
# What a verification asks

A verification asks for counterexamples. Each of its queries asserts what its question
says about states, on top of what holds in all states, and nothing else. So a
verification without failures has a query of this kind denied for each thing that it was
to establish.

* `Query.Poses` — a query asserts the parts of its question, each once and in order, and
  nothing besides but what holds in all states.
* `Session.Poised` — nothing but what holds in all states is asserted.
* `Session.Refutes` — a query that poses a question was answered with no.

Main result: `refutes_of_checkInductive`, what is refuted when some predicates pass as an
inductive invariant that implies a safety property.
-/

namespace InvariantSearch

open Discipline

open List hiding get modify

variable {question : Question} {act : SessionM (Option Trace)} {kind : CheckKind}

/-! ## Questions and queries -/

/-- The definitions of mutable derived relations in some states. -/
def Part.defining (p : Program) (indices : List Nat) : List Part :=
  indices.flatMap fun index => (Session.definitions p true).map (.state · index)

/-- What holds in so many states whatever they are. -/
def Part.background (p : Program) (count : Nat) : List Part :=
  (Session.standing p).map .always ++ defining p (range count)

/-- A query asserts what its question says, oldest assertion first, and nothing besides but what
holds in all states. -/
def Query.Poses (p : Program) (label : String) (query : Query) : Prop :=
  query.assumptions = [] ∧ ∃ parts, query.question.parts? p = some parts ∧
    Forall₂ (Part.SaidBy p label query.question.states)
      (Part.background p query.question.states ++ parts) query.assertions.flatten.reverse

namespace Session

variable {property assumption : Formula} {p : Program} {label : String} {s t : Session}

/-- Nothing but what holds in all states is asserted. -/
structure Poised (p : Program) (label : String) (s : Session) : Prop where
  program : s.program = p
  labeled : s.label = label
  inForce : ∃ terms, s.prover.inForce = [terms.reverse] ∧
    Forall₂ (Encodes ⟨p, label, stepKeys 1⟩ · 0 ·) (standing p) terms

/-- A question was posed and answered with no. -/
def Refutes (p : Program) (label : String) (s : Session) (question : Question) : Prop :=
  ∃ query answer core, (query, some answer) ∈ s.prover.asks ∧ answer.verdict = .unsat core ∧
    query.question = question ∧ query.Poses p label

theorem Refutes.of_recordedIn (h : s.Refutes p label question) (hst : s.RecordedIn t) :
    t.Refutes p label question := by
  obtain ⟨query, answer, core, hAsk, h⟩ := h
  exact ⟨query, answer, core, (hst.filterMap _).subset hAsk, h⟩

/-! ## Sessions that are poised -/

theorem poised_of_start {options : ProverOptions} {script : Script} {heeds : Bool} {log : Log}
    (h : start p label (.start options script heeds log) = .ok () s) : s.Poised p label := by
  obtain ⟨-, terms, hTerms, hAsserts⟩ := eq_of_start h
  refine ⟨hAsserts.program, hAsserts.label, terms, ?_, run_mapM_eq_ok hTerms⟩
  rw [hAsserts.inForce_base rfl]
  exact congrArg ([·]) (append_nil _)

theorem Poised.after {T : Trust} (h : s.Poised p label) (hst : T.Proceeds true s t) :
    t.Poised p label := by
  obtain ⟨terms, hForce, hTerms⟩ := h.inForce
  exact ⟨hst.program.trans h.program, hst.label.trans h.labeled, terms,
    hst.prover.inForce_eq.trans hForce, hTerms⟩

/-! ## Checks -/

/-- What is kept to by a check that may find that it cannot be asked for. -/
abbrev noting : Discipline Error Session := (Trust.recording [] False 0).onSession true

theorem encodable_recording (final : List (Query × Option Answer)) (s : Session)
    (fs : List Formula) : Encodable (.recording final False 0) s fs :=
  ⟨False.elim, False.elim, False.elim⟩

/-- **A question without a witness was answered with no**, by a query that asserts what the question
says. -/
theorem Posed.refutes (h : Posed (.recording t.prover.asks False 0) s question none t)
    (hs : s.Poised p label) : t.Refutes p label question := by
  obtain ⟨rfl, rfl, standing, hForce, hStanding⟩ := hs
  obtain ⟨parts, ts, terms, hParts, hAre, hSaid, core, hTells⟩ := h
  obtain ⟨answer, hRecorded, hVerdict⟩ := Trust.exists_recorded hTells
  refine ⟨_, answer, core, Prover.mem_asks.mpr hRecorded, hVerdict, rfl, rfl, parts, hParts, ?_⟩
  show Forall₂ _ _ ((ts ++ terms).reverse :: s.prover.inForce).flatten.reverse
  have hAll : ((ts ++ terms).reverse :: s.prover.inForce).flatten.reverse =
      standing ++ ts ++ terms := by
    simp [hForce]
  have hAlways : Forall₂ (Part.SaidBy s.program s.label question.states)
      ((Session.standing s.program).map .always) standing := forall₂_map_left_iff.mpr hStanding
  have hDefined : Forall₂ (Part.SaidBy s.program s.label question.states)
      (Part.defining s.program (range question.states)) ts := by
    have hPlaces : Part.defining s.program (range question.states) =
        ((range question.states).flatMap fun index =>
          (definitions s.program true).map (Prod.mk index)).map
            fun place => Part.state place.2 place.1 := by
      simp [Part.defining, map_flatMap, Function.comp_def]
    rw [hPlaces]
    exact forall₂_map_left_iff.mpr hAre
  rw [hAll]
  exact rel_append (rel_append hAlways hDefined) hSaid

theorem Poised.check (h : s.Poised p label)
    (hAct : ∀ final, ((Trust.recording final False 0).onSession true).Ensures act s (Posed
      (.recording final False 0) s question)) :
    noting.Ensures act s fun found t =>
      t.Poised p label ∧ (found = none → t.Refutes p label question) := by
  refine (Trust.ensures_recording hAct).imp fun found t hst ht => ⟨h.after hst, fun hNone => ?_⟩
  subst hNone
  exact ht.refutes h

theorem violatesInitiation_noting (h : s.Poised p label) (property : Formula) :
    noting.Ensures (violatesInitiation property) s fun found t => t.Poised p label ∧
      (found = none → t.Refutes p label (.initiation property)) :=
  h.check fun final => violatesInitiation_ensures (Trust.sound_recording final False 0 _)
    (encodable_recording final s _)

theorem violatesImplication_noting (h : s.Poised p label) (assumption property : Formula) :
    noting.Ensures (violatesImplication assumption property) s fun found t => t.Poised p label ∧
      (found = none → t.Refutes p label (.implication assumption property)) :=
  h.check fun final => violatesImplication_ensures (Trust.sound_recording final False 0 _)
    (encodable_recording final s _)

theorem violatesConsecution_noting (h : s.Poised p label) (assumption property : Formula)
    (r : Transition) :
    noting.Ensures (violatesConsecution assumption property r) s fun found t =>
      t.Poised p label ∧
        (found = none → t.Refutes p label (.consecution assumption property r)) :=
  h.check fun final => violatesConsecution_ensures (Trust.sound_recording final False 0 _)
    (encodable_recording final s _) False.elim

theorem eq_none_of_failureOf {property transition : String} {violation : Option Trace}
    (h : failureOf kind property transition violation = []) : violation = none := by
  cases violation with
  | none => rfl
  | some trace => cases h

theorem reports_noting {name transition : String}
    (h : noting.Ensures act s fun found t => t.Poised p label ∧ (found = none → t.Refutes p label
      question)) :
    noting.Ensures (do
      let found ← act
      return failureOf kind name transition found) s fun failures t =>
        t.Poised p label ∧ (failures = [] → t.Refutes p label question) :=
  h.bind fun _ _ _ ht =>
    ensures_pure ⟨ht.1, fun hNone => ht.2 (eq_none_of_failureOf hNone)⟩

/-- Checks that are made one after another refute, when none of them fails, whatever each of them
refutes. -/
theorem checks_noting {β : Type} {check : β → SessionM (List Failure)}
    (Asks : β → Question → Prop)
    (hCheck : ∀ b, ∀ s : Session, s.Poised p label → noting.Ensures (check b) s fun failures t =>
      t.Poised p label ∧ (failures = [] → ∀ question, Asks b question →
        t.Refutes p label question))
    (h : s.Poised p label) (bs : List β) :
    noting.Ensures (bs.mapM check) s fun failures t => t.Poised p label ∧
      (failures.flatten = [] → ∀ b ∈ bs, ∀ question, Asks b question →
        t.Refutes p label question) := by
  induction bs generalizing s with
  | nil =>
    rw [mapM_nil]
    exact ensures_pure ⟨h, fun _ b hb => by cases hb⟩
  | cons b bs ih =>
    rw [mapM_cons]
    refine (hCheck b s h).bind fun failed t _ ht => ?_
    refine (ih ht.1).bind fun failures u htu hu => ensures_pure ⟨hu.1, fun hNone => ?_⟩
    rw [flatten_cons, append_eq_nil_iff] at hNone
    -- what the first check refutes stays refuted: the checks after it only add queries
    refine forall_mem_cons.mpr ⟨fun question hAsks => ?_, hu.2 hNone.2⟩
    exact (ht.2 hNone.1 question hAsks).of_recordedIn htu.recordedIn

/-- Every transition of a list is checked, and with no failure each check was answered with no. -/
theorem consecutions_noting (h : s.Poised p label) (name : String) (rs : List Transition) :
    noting.Ensures (rs.mapM fun r => do
      let found ← violatesConsecution assumption property r
      return failureOf .consecution name r.name found) s fun failures t =>
        t.Poised p label ∧ (failures.flatten = [] →
          ∀ r ∈ rs, t.Refutes p label (.consecution assumption property r)) := by
  refine (checks_noting (fun r question => question = .consecution assumption property r)
    (fun r s hs => ?_) h rs).imp fun failures t _ ht => ⟨ht.1, fun hNone r hr => ?_⟩
  · refine (reports_noting (violatesConsecution_noting hs _ _ r)).imp fun _ t _ ht =>
      ⟨ht.1, fun hNone question hAsks => ?_⟩
    rw [hAsks]
    exact ht.2 hNone
  · exact ht.2 hNone r hr _ rfl

/-- **What is refuted when some predicates pass** as an inductive invariant that implies a safety
property: that they fail in an initial state, that a transition leads out of them, and that the
safety property fails where they hold. -/
theorem refutes_of_checkInductive {predicates : List Formula} {safety : Formula}
    (h : s.Poised p label) (hRun : checkInductive predicates safety s = .ok [] t) :
    t.Refutes p label (.initiation (.conj predicates)) ∧
      (∀ r ∈ p.transitions,
        t.Refutes p label (.consecution (.conj predicates) (.conj predicates) r)) ∧
      t.Refutes p label (.implication (.conj predicates) safety) := by
  have hChecked : noting.Ensures (checkInductive predicates safety) s fun failures t =>
      failures = [] → t.Refutes p label (.initiation (.conj predicates)) ∧
        (∀ r ∈ p.transitions,
          t.Refutes p label (.consecution (.conj predicates) (.conj predicates) r)) ∧
        t.Refutes p label (.implication (.conj predicates) safety) := by
    refine (violatesInitiation_noting h _).bind fun initiation u _ hu => ?_
    refine ensures_get ?_
    rw [hu.1.program]
    refine (consecutions_noting hu.1 _ _).bind fun consecution v huv hv => ?_
    refine (violatesImplication_noting hv.1 _ _).bind fun implication w hvw hw =>
      ensures_pure fun hNone => ?_
    rw [append_eq_nil_iff, append_eq_nil_iff] at hNone
    obtain ⟨⟨hFirst, hSteps⟩, hLast⟩ := hNone
    refine ⟨?_, fun r hr => (hv.2 hSteps r hr).of_recordedIn hvw.recordedIn,
      hw.2 (eq_none_of_failureOf hLast)⟩
    have hInitiation := (hu.2 (eq_none_of_failureOf hFirst)).of_recordedIn huv.recordedIn
    exact hInitiation.of_recordedIn hvw.recordedIn
  exact (hChecked.ok hRun).2 rfl

end Session

end InvariantSearch
