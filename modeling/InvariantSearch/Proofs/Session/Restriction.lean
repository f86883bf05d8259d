import InvariantSearch.Proofs.Session.Invariance
import InvariantSearch.Proofs.Session.Twins

/-!
# Restricted verification

A verification may be restricted to some invariants and some transitions. It then leaves out
checks, so its constants have other numbers and its queries come at other times. But what it asks
is asked by the full verification too, with the same assertions up to numbers. So a solver whose
answers depend on the query only answers it alike, and what is found is what the full verification
finds, without what was left out.

* `Failure.within` — a restriction keeps a failure.
* `Steadfast` — a solver answers alike what is asked alike.
* `Session.AtRest` — nothing is in force in a session but what was asserted at its start, and
  nobody has interrupted it. Every check leaves it so.
* `Session.Restricts` — one computation comes to what is left of another when checks are left out.

Main result: `verifyInvariants_restricted`.
-/

namespace InvariantSearch

open Discipline

open List hiding get modify

/-- The numbers below `start` with themselves, and those from `first` on with those from `first'`
on. -/
def Renumbering.align (start first first' : Nat) (h : start ≤ first) (h' : start ≤ first') :
    Renumbering where
  Pairs k k' := (k < start ∧ k' = k) ∨ ∃ j, k = first + j ∧ k' = first' + j
  unique := by
    rintro k k' l l' (⟨hk, rfl⟩ | ⟨i, rfl, rfl⟩) (⟨hl, rfl⟩ | ⟨j, rfl, rfl⟩) <;> omega

/-- A solver whose answers depend on the query only, up to the numbers of fresh constants. -/
def Steadfast (declared : String → Prop) (solver : Query → Option Answer) : Prop :=
  ∀ (N : Renumbering) {q q' : Query}, q.Alike N.Pairs q' →
    Option.Rel (Answer.Alike N.Pairs declared) (solver q) (solver q')

/-- What a restriction to some invariants and some transitions keeps of failures. Without names
there is no restriction. -/
def Failure.within (invariants transitions : NameSet) (f : Failure) : Bool :=
  (invariants.isEmpty || invariants.contains f.property) &&
    (f.kind == .initiation || (transitions.isEmpty || transitions.contains f.transition))

namespace Session

variable {α β γ δ : Type} {a : α} {act : SessionM α} {act' : SessionM β} {p : Program}
  {label : String} {first : Prover} {s s' : Session} {R : α → β → Prop}

/-! ## Sessions at rest -/

/-- A session of a program in which nothing is asserted but what is asserted at a start. It is like
its first prover in all that bears on answers, and no answer will interrupt it. -/
structure AtRest (p : Program) (label : String) (first : Prover) (s : Session) : Prop where
  program : s.program = p
  labeled : s.label = label
  options : s.prover.options = first.options
  heeds : s.prover.heedsInterrupts = first.heedsInterrupts
  solver : s.prover.solver = first.solver
  directories : s.prover.log.disk.directories = first.log.disk.directories
  mute : s.prover.Mute
  inForce : ∃ terms stop,
    (standing p).mapM (fun f => Encoding.encode ⟨p, label, stepKeys 1⟩ f 0 []) 0 = .ok terms stop ∧
      s.prover.inForce = [terms.reverse] ∧ stop ≤ s.prover.fresh

theorem atRest_of_start (hMute : first.Mute) (hFresh : first.fresh = 0)
    (hForce : first.inForce = [[]]) (h : start p label first = .ok () s) :
    s.AtRest p label first := by
  obtain ⟨-, terms, hTerms, hAsserts⟩ := eq_of_start h
  have hIdle := hAsserts.idle
  rw [hFresh] at hTerms
  refine ⟨hAsserts.program, hAsserts.label, hIdle.options, hIdle.heeds, hIdle.solver,
    hIdle.directories, hIdle.mute hMute, terms, _, hTerms, ?_, Nat.le_refl _⟩
  obtain ⟨scope, scopes, hBefore, hAfter⟩ := hAsserts.adds
  obtain ⟨rfl, rfl⟩ := cons.inj (hBefore.symm.trans hForce)
  rw [hAfter, append_nil]

/-- **A check leaves a session at rest**, whatever twins go through alike. -/
theorem AtRest.left (h : s.AtRest p label first) (hEven : ∀ N, (pairing N p label 0).Even act) :
    (left (act s)).AtRest p label first := by
  obtain ⟨rfl, rfl, hOptions, hHeeds, hSolver, hDirectories, hMute, terms, stop, hTerms, hForce,
    hStop⟩ := h
  obtain ⟨hTwins, hLeads⟩ := (hEven .same).alone s.twins_self
  have hSteady := hLeads.left
  have hSame : (Discipline.left (act s)).prover.inForce = s.prover.inForce := hSteady.outer
  exact ⟨hTwins.program, hTwins.labeled, hSteady.options.trans hOptions,
    hSteady.heeds.trans hHeeds, hSteady.solver.trans hSolver,
    hSteady.directories.trans hDirectories, hLeads.quiet hMute, terms, stop, hTerms,
    hSame.trans hForce, Nat.le_trans hStop hSteady.fresh⟩

/-- **Two sessions at rest are twins**, where the solver answers alike what is asked alike. -/
theorem AtRest.twins (h : s.AtRest p label first) (h' : s'.AtRest p label first)
    (hSolver : Steadfast (p.Calls label) first.solver) :
    ∃ N : Renumbering, Twins N p label s s' := by
  obtain ⟨terms, stop, hTerms, hForce, hStop⟩ := h.inForce
  obtain ⟨terms', stop', hTerms', hForce', hStop'⟩ := h'.inForce
  -- both assert what is asserted at a start, with constants of the same numbers
  obtain ⟨rfl, rfl⟩ : terms = terms' ∧ stop = stop' := by
    have hSame := hTerms.symm.trans hTerms'
    injection hSame with hTerms hStop
    exact ⟨hTerms, hStop⟩
  refine ⟨.align stop s.prover.fresh s'.prover.fresh hStop hStop', h.program, h.labeled,
    h'.program, h'.labeled, h'.options.trans h.options.symm, h'.heeds.trans h.heeds.symm,
    h'.mute.interrupted.trans h.mute.interrupted.symm, h'.mute.canceled.trans h.mute.canceled.symm,
    h'.mute.stopRequested.trans h.mute.stopRequested.symm, fun j => Or.inr ⟨j, rfl, rfl⟩, ?_, ?_,
    ?_, h'.directories.trans h.directories.symm⟩
  · rw [hForce, hForce']
    exact .cons (rel_reverse (standing_alike hTerms fun k hk => Or.inl ⟨hk, rfl⟩)) .nil
  · rw [h.mute.script, h'.mute.script]
    exact ⟨.nil, .none⟩
  · rw [h.solver, h'.solver]
    exact hSolver _

/-! ## Checks that are left out -/

/-- **What is left of a computation when checks are left out.** From two sessions at rest, the
second computation succeeds if the first one does, with a related result, and both sessions are at
rest again. -/
def Restricts (p : Program) (label : String) (first : Prover) (R : α → β → Prop)
    (act : SessionM α) (act' : SessionM β) : Prop :=
  ∀ ⦃s s' : Session⦄ ⦃a : α⦄ ⦃t : Session⦄, s.AtRest p label first → s'.AtRest p label first →
    act s = .ok a t →
    ∃ b t', act' s' = .ok b t' ∧ R a b ∧ t.AtRest p label first ∧ t'.AtRest p label first

theorem restricts_pure {b : β} (h : R a b) : Restricts p label first R (pure a) (pure b) := by
  intro s s' c t hs hs' hRun
  cases hRun
  exact ⟨b, s', rfl, h, hs, hs'⟩

/-- A check that is made in both. -/
theorem restricts_same (hSolver : Steadfast (p.Calls label) first.solver)
    (hEven : ∀ N, (pairing N p label 0).Even act) : Restricts p label first Eq act act := by
  intro s s' a t hs hs' hRun
  obtain ⟨N, hTwins⟩ := hs.twins hs' hSolver
  have hEnds := hEven N s s' hTwins
  have hRest := hs.left hEven
  have hRest' := hs'.left hEven
  rw [hRun] at hEnds hRest
  cases hRun' : act s' with
  | error e t' =>
    rw [hRun'] at hEnds
    exact hEnds.elim
  | ok b t' =>
    rw [hRun'] at hEnds hRest'
    exact ⟨b, t', rfl, hEnds.2.2, hRest, hRest'⟩

/-- A check that is left out. -/
theorem restricts_skip (hEven : ∀ N, (pairing N p label 0).Even act) :
    Restricts p label first (fun _ _ => True) act (pure ()) := by
  intro s s' a t hs hs' hRun
  have hRest := hs.left hEven
  rw [hRun] at hRest
  exact ⟨(), s', rfl, trivial, hRest, hs'⟩

theorem Restricts.bind {next : α → SessionM γ} {next' : β → SessionM δ} {R' : γ → δ → Prop}
    (h : Restricts p label first R act act')
    (hNext : ∀ a b, R a b → Restricts p label first R' (next a) (next' b)) :
    Restricts p label first R' (act >>= next) (act' >>= next') := by
  intro s s' c u hs hs' hRun
  obtain ⟨a, t, hFirst, hThen⟩ := run_bind_eq_ok.mp hRun
  obtain ⟨b, t', hFirst', hab, ht, ht'⟩ := h hs hs' hFirst
  obtain ⟨d, u', hThen', hcd, hu⟩ := hNext a b hab ht ht' hThen
  exact ⟨d, u', run_bind_eq_ok.mpr ⟨b, t', hFirst', hThen'⟩, hcd, hu⟩

/-- Nothing stands in the place of what is left out. -/
theorem Restricts.skip_bind {next : α → SessionM γ} {rest : SessionM δ} {b : β}
    {R' : γ → δ → Prop} (h : Restricts p label first R act (pure b))
    (hNext : ∀ a, R a b → Restricts p label first R' (next a) rest) :
    Restricts p label first R' (act >>= next) rest := by
  intro s s' c u hs hs' hRun
  obtain ⟨a, t, hFirst, hThen⟩ := run_bind_eq_ok.mp hRun
  obtain ⟨_, t', hFirst', hab, ht, ht'⟩ := h hs hs' hFirst
  cases hFirst'
  exact hNext a hab ht ht' hThen

/-- A list is gone through, and another run goes through a part of it: what it finds is what is
found in that part. -/
theorem restricts_mapM {f f' : γ → SessionM (List Failure)} {keep : Failure → Bool}
    {kept : γ → Bool}
    (h : ∀ c, Restricts p label first (fun found found' => found' = found.filter keep) (f c)
      (if kept c then f' c else pure [])) (cs : List γ) :
    Restricts p label first (fun found found' => found'.flatten = found.flatten.filter keep)
      (cs.mapM f) ((cs.filter kept).mapM f') := by
  induction cs with
  | nil => exact restricts_pure rfl
  | cons c cs ih =>
    have hc := h c
    cases hKept : kept c with
    | true =>
      rw [if_pos hKept] at hc
      rw [filter_cons_of_pos hKept, mapM_cons, mapM_cons]
      refine hc.bind fun found found' hFound => ih.bind fun rest rest' hRest => restricts_pure ?_
      rw [flatten_cons, flatten_cons, filter_append, hFound, hRest]
    | false =>
      rw [if_neg (by simp [hKept])] at hc
      rw [filter_cons_of_neg (by simp [hKept]), mapM_cons, ← bind_pure ((cs.filter kept).mapM f')]
      refine hc.skip_bind fun found hFound => ih.bind fun rest rest' hRest => restricts_pure ?_
      rw [flatten_cons, filter_append, ← hFound, hRest, nil_append]

/-! ## Verification -/

variable {invariants transitions : NameSet} {assumption : Formula} {i : Invariant}

theorem filter_failureOf (invariants transitions : NameSet) (kind : CheckKind)
    (property transition : String) (violation : Option Trace) :
    (failureOf kind property transition violation).filter (Failure.within invariants transitions) =
      if (invariants.isEmpty || invariants.contains property) &&
          (kind == .initiation || (transitions.isEmpty || transitions.contains transition))
        then failureOf kind property transition violation else [] := by
  cases violation with
  | none => simp [failureOf]
  | some trace =>
    simp only [failureOf, Option.map_some, Option.toList_some, filter_cons, filter_nil]
    rfl

/-- The failures of one transition. -/
def stepFailures (assumption : Formula) (i : Invariant) (r : Transition) :
    SessionM (List Failure) := do
  let found ← violatesConsecution assumption i.formula r
  return failureOf .consecution i.name r.name found

section Restricted

variable (hSolver : Steadfast (p.Calls label) first.solver)

include hSolver

/-- A transition is checked for an invariant if the names of both are chosen. -/
theorem stepFailures_restricts (invariants transitions : NameSet) (assumption : Formula)
    (i : Invariant) (rs : List Transition) :
    Restricts p label first
      (fun found found' =>
        found'.flatten = found.flatten.filter (Failure.within invariants transitions))
      (rs.mapM (stepFailures assumption i))
      ((rs.filter fun r => (invariants.isEmpty || invariants.contains i.name) &&
        (transitions.isEmpty || transitions.contains r.name)).mapM
          (stepFailures assumption i)) := by
  refine restricts_mapM (fun r => ?_) rs
  have hEven : ∀ N, (pairing N p label 0).Even (violatesConsecution assumption i.formula r) :=
    fun N => violatesConsecution_twins assumption i.formula r
  have hFilter := filter_failureOf invariants transitions .consecution i.name r.name
  simp only [show (CheckKind.consecution == CheckKind.initiation) = false from rfl,
    Bool.false_or] at hFilter
  split
  · rename_i hr
    refine (restricts_same hSolver hEven).bind fun found _ hFound => restricts_pure ?_
    rw [hFilter, if_pos hr, hFound]
  · rename_i hr
    refine (restricts_skip hEven).skip_bind fun found _ => restricts_pure ?_
    rw [hFilter, if_neg hr]

/-- An invariant is checked if its name is chosen. -/
theorem verifyInvariant_restricts (invariants transitions : NameSet) (assumption : Formula)
    (rs : List Transition) (i : Invariant) :
    Restricts p label first
      (fun found found' => found' = found.filter (Failure.within invariants transitions))
      (verifyInvariant assumption rs i)
      (if invariants.isEmpty || invariants.contains i.name then
        verifyInvariant assumption (chosen transitions Transition.name rs) i else pure []) := by
  have hSteps : Restricts p label first _ _ _ :=
    stepFailures_restricts hSolver invariants transitions assumption i rs
  cases hi : (invariants.isEmpty || invariants.contains i.name) with
  | true =>
    simp only [hi, Bool.true_and] at hSteps
    refine (restricts_same hSolver fun _ => violatesInitiation_twins _).bind
      fun found _ hFound => hSteps.bind fun steps steps' hs => restricts_pure ?_
    rw [filter_append, ← hs, filter_failureOf, hi, hFound]
    rfl
  | false =>
    simp only [hi, Bool.false_and, filter_false, mapM_nil] at hSteps
    refine (restricts_skip fun _ => violatesInitiation_twins _).skip_bind
      fun found _ => hSteps.skip_bind fun steps hs => restricts_pure ?_
    rw [filter_append, ← hs, filter_failureOf, hi]
    rfl

/-- **What is found when checks are left out** is what is found without leaving any out, but for the
failures of these checks. -/
theorem verifying_restricts (invariants transitions : NameSet) (assumption : Formula)
    (rs : List Transition) (is : List Invariant) :
    Restricts p label first
      (fun found found' => found' = found.filter (Failure.within invariants transitions))
      (verifying assumption rs is)
      (verifying assumption (chosen transitions Transition.name rs)
        (chosen invariants (·.name) is)) := by
  refine (restricts_mapM (verifyInvariant_restricts hSolver invariants transitions assumption rs)
    is).bind fun found found' hFound => ?_
  -- how many there are is logged, which is not the same in both
  intro s s' _ t hs hs' hRun
  obtain ⟨_, u, hLog, hPure⟩ := run_bind_eq_ok.mp hRun
  cases hPure
  cases hLog
  refine ⟨_, _, rfl, hFound, ?_, ?_⟩
  · exact hs.left fun _ => logging_twins (Log.calm_progress _) (Log.calm_progress _)
  · exact hs'.left fun _ => logging_twins (Log.calm_progress _) (Log.calm_progress _)

omit hSolver in
/-- Names are looked up before anything is asked. -/
theorem verifyInvariants_unknown (invariants transitions : NameSet)
    (h : (∃ name ∈ invariants.toList, ∀ i ∈ s.program.invariants, i.name ≠ name) ∨
      ∃ name ∈ transitions.toList, ∀ r ∈ s.program.transitions, r.name ≠ name) :
    ∃ fault, verifyInvariants invariants transitions s = .error (.program fault) s := by
  have hGet : ∀ f : Session → SessionM (List Failure), (get >>= f) s = f s s := fun _ => rfl
  rw [verifyInvariants, hGet]
  dsimp only
  cases hFirst : invariants.toList.find? fun name =>
      s.program.invariants.all fun i => i.name != name with
  | some name => exact ⟨_, rfl⟩
  | none =>
    cases hSecond : transitions.toList.find? fun name => (s.program.transition? name).isNone with
    | some name => exact ⟨_, rfl⟩
    | none =>
      rw [find?_eq_none] at hFirst hSecond
      rcases h with ⟨name, hName, hNone⟩ | ⟨name, hName, hNone⟩
      · exact absurd (by simpa using hNone) (hFirst name hName)
      · exact absurd (by simpa [Program.transition?] using hNone) (hSecond name hName)

/-- **Restricted verification is the restriction of full verification.** Let two sessions of a
program be at rest, with a solver whose answers depend on the query only. If there are all
invariants and transitions that are named, and the first session verifies all invariants, then the
second session finds those of the failures that the names choose, in the same order and with the
same counterexamples. A name that there is not is an error, and nothing is asked. -/
theorem verifyInvariants_restricted (hs : s.AtRest p label first) (hs' : s'.AtRest p label first)
    (invariants transitions : NameSet) :
    ((∀ name ∈ invariants.toList, ∃ i ∈ p.invariants, i.name = name) →
      (∀ name ∈ transitions.toList, ∃ r ∈ p.transitions, r.name = name) →
      ∀ failures t, verifyInvariants .empty .empty s = .ok failures t →
        ∃ t', verifyInvariants invariants transitions s' =
          .ok (failures.filter (Failure.within invariants transitions)) t') ∧
    ((∃ name ∈ invariants.toList, ∀ i ∈ p.invariants, i.name ≠ name) ∨
        (∃ name ∈ transitions.toList, ∀ r ∈ p.transitions, r.name ≠ name) →
      ∃ e, verifyInvariants invariants transitions s' = .error e s' ∧ e.kind = .input) := by
  have hProgram' := hs'.program
  refine ⟨fun hInvariants hTransitions failures t hRun => ?_, fun hUnknown => ?_⟩
  · have hRestricted : verifyInvariants invariants transitions s' =
        verifying (.conj (p.invariants.map (·.formula)))
          (chosen transitions Transition.name p.transitions)
          (chosen invariants (·.name) p.invariants) s' := by
      rw [verifyInvariants_eq (hProgram' ▸ hInvariants), hProgram']
      rw [hProgram']
      simpa [Program.transition?] using hTransitions
    rw [verifyInvariants_empty, hs.program] at hRun
    rw [hRestricted]
    obtain ⟨_, t', hRun', rfl, -⟩ := verifying_restricts hSolver _ _ _ _ _ hs hs' hRun
    exact ⟨t', hRun'⟩
  · obtain ⟨fault, hError⟩ :=
      verifyInvariants_unknown invariants transitions (hProgram'.symm ▸ hUnknown)
    exact ⟨_, hError, rfl⟩

end Restricted

/-- A door that may be open or locked, with a step for each, and an invariant that has no name. -/
def door : Program :=
  { Program.empty with
    symbols := [⟨"open", .relation [] none, true⟩, ⟨"locked", .relation [] none, true⟩]
    transitions := [⟨"swing", [], .ofList ["open"], .bool true⟩,
      ⟨"turn", [], .ofList ["locked"], .bool true⟩]
    invariants := [⟨⟨"shut", .not (.id "open")⟩, false⟩, ⟨⟨"", .id "locked"⟩, false⟩]
    validated := true }

/-- The questions about the door to which there is a model: it may be unlocked at first, opened by
the one step and unlocked by the other. -/
def doorFails : Question → Bool
  | .initiation property => property == .id "locked"
  | .consecution _ property r =>
    property == if r.name == "swing" then .not (.id "open") else .id "locked"
  | _ => false

/-- A prover with a solver that goes by the question. -/
def answering (found : Question → Bool) : Prover :=
  { Prover.start .standard ⟨[], none⟩ false (.new .empty) with
    solver := fun query =>
      some ⟨if found query.question then .sat .empty else .unsat none, false⟩ }

theorem steadfast_answering (declared : String → Prop) (found : Question → Bool) :
    Steadfast declared (answering found).solver := by
  intro N q q' hq
  show Option.Rel _ (some _) (some _)
  rw [hq.question]
  refine .some ⟨?_, rfl⟩
  dsimp only
  split
  · exact .sat ⟨rfl, rfl, fun _ _ => rfl, fun _ _ _ _ => rfl⟩
  · exact .unsat none

theorem mute_answering (found : Question → Bool) : (answering found).Mute :=
  ⟨rfl, fun query answer h => by cases h; rfl, rfl, rfl, rfl⟩

/-- Three failures of the door are found by full verification, and two of them by a verification
that is restricted to the invariant without a name and to one step. -/
theorem verifyInvariants_restricted_door :
    ∃ s failures t t',
      start door "" (answering doorFails) = .ok () s ∧
      verifyInvariants .empty .empty s = .ok failures t ∧
      failures.map (fun f => (f.property, f.transition)) =
        [("shut", "swing"), ("", ""), ("", "turn")] ∧
      verifyInvariants (.ofList [""]) (.ofList ["turn"]) s =
        .ok (failures.filter (Failure.within (.ofList [""]) (.ofList ["turn"]))) t' := by
  have hSpec : (match start door "" (answering doorFails) with
      | .ok _ s => match verifyInvariants .empty .empty s with
        | .ok failures _ => failures.map (fun f => (f.property, f.transition)) ==
          [("shut", "swing"), ("", ""), ("", "turn")]
        | .error _ _ => false
      | .error _ _ => false) = true := by decide +kernel
  split at hSpec
  · rename_i s hStart
    split at hSpec
    · rename_i failures t hRun
      have hRest := atRest_of_start (mute_answering _) rfl rfl hStart
      obtain ⟨t', hRun'⟩ := (verifyInvariants_restricted (steadfast_answering _ _) hRest hRest
        (.ofList [""]) (.ofList ["turn"])).1 (by decide) (by decide) failures t hRun
      exact ⟨s, failures, t, t', hStart, hRun, eq_of_beq hSpec, hRun'⟩
    · cases hSpec
  · cases hSpec

end Session

end InvariantSearch
