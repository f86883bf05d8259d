import InvariantSearch.Proofs.Search.Course
import InvariantSearch.Search.Workbench

/-!
# Scopes

Each query is posed in a scope of its own, and no step in between asserts anything.

* `Trust.blind` — trust in nothing at all. Whatever a computation keeps to then, it keeps to always.
* `Workbench.tidying` — the same terms are in force, in the same scopes.

Main result: `Operation.scopes_run`. Whatever is asked of a verifier, a bounded checker, a
generalizer or a search, and however the solver answers, the open scopes and all that is asserted in
them are afterwards as they were, also when the operation fails.
-/

namespace InvariantSearch

open Discipline Session Trust

/-- Trust in nothing at all. -/
def Trust.blind : Trust where
  record := []
  Good _ := True
  Sure := False
  Excuses _ := True
  Firm := False
  Spares _ := True
  sure := False.elim
  answered := False.elim

theorem Trust.sound_blind (p : Prover) : blind.Sound p := ⟨List.nil_suffix, False.elim⟩

/-! ## Sessions -/

namespace Session

/-- What is kept to in a session that asserts nothing. -/
abbrev tidying : Discipline Error Session := blind.onSession true

theorem encodable_blind (s : Session) (fs : List Formula) : Encodable .blind s fs :=
  ⟨False.elim, False.elim, False.elim⟩

theorem violatesInitiation_tidies (property : Formula) :
    tidying.Keeps (violatesInitiation property) := fun s =>
  (violatesInitiation_ensures (sound_blind _) (encodable_blind s _)).leads

theorem violatesConsecution_tidies (assumption property : Formula) (r : Transition) :
    tidying.Keeps (violatesConsecution assumption property r) := fun s =>
  (violatesConsecution_ensures (sound_blind _) (encodable_blind s _) False.elim).leads

theorem violatesImplication_tidies (assumption property : Formula) :
    tidying.Keeps (violatesImplication assumption property) := fun s =>
  (violatesImplication_ensures (sound_blind _) (encodable_blind s _)).leads

theorem violatesTheorem_tidies (t : Theorem) : tidying.Keeps (violatesTheorem t) := by
  intro s
  have hTidy : tidying.Ensures (violatesTheorem t) s fun _ _ => True := by
    refine (overSteps_ensures False.elim).bind fun e u _ _ => ?_
    refine (encode_ensures False.elim).bind fun bad v _ _ => ?_
    exact (witness_ensures (sound_blind _) False.elim False.elim _).imp fun _ _ _ _ => trivial
  exact hTidy.leads

theorem verifyInvariant_tidies (assumption : Formula) (rs : List Transition) (i : Invariant) :
    tidying.Keeps (verifyInvariant assumption rs i) := by
  refine (violatesInitiation_tidies _).bind fun _ => ?_
  refine (keeps_mapM (fun r => ?_) rs).bind fun _ => keeps_pure _
  exact (violatesConsecution_tidies _ _ r).bind fun _ => keeps_pure _

theorem logging_tidies (f : Log → Log) : tidying.Keeps (logging f) := fun _ =>
  (logging_ensures f).leads

theorem verifyInvariants_tidies (chosen transitions : NameSet) :
    tidying.Keeps (verifyInvariants chosen transitions) := by
  refine keeps_get.bind fun s => ?_
  dsimp only
  split
  · exact keeps_throw _
  · split
    · exact keeps_throw _
    · refine (keeps_mapM (fun i => verifyInvariant_tidies _ _ i) _).bind fun _ => ?_
      exact (logging_tidies _).bind fun _ => keeps_pure _

theorem verifyTheorems_tidies : tidying.Keeps verifyTheorems := by
  refine keeps_get.bind fun s => (keeps_mapM (fun t => ?_) _).bind fun _ => keeps_pure _
  exact (violatesTheorem_tidies t).bind fun _ => keeps_pure _

theorem checkInductive_tidies (predicates : List Formula) (safety : Formula) :
    tidying.Keeps (checkInductive predicates safety) := by
  refine (violatesInitiation_tidies _).bind fun _ => keeps_get.bind fun s => ?_
  refine (keeps_mapM (fun r => ?_) _).bind fun _ => ?_
  · exact (violatesConsecution_tidies _ _ r).bind fun _ => keeps_pure _
  · exact (violatesImplication_tidies _ _).bind fun _ => keeps_pure _

theorem findTrace_tidies (constraints : List (Option Formula)) (names : List String)
    (description : String) : tidying.Keeps (findTrace constraints names description) := fun _ =>
  (findTrace_ensures (sound_blind _) False.elim False.elim False.elim description
    False.elim).leads

theorem minimalModel_tidies (e : Encoding) (assumptions : List Term) (question : Question) :
    tidying.Keeps (minimalModel e assumptions question) := by
  intro s
  have hFails : (∀ m, s.prover.last ≠ .sat m) →
      minimalModel e assumptions question s = .error .noModel s := by
    intro hNone
    unfold minimalModel proving Prover.model
    dsimp only [bind, EStateM.bind, get, getThe, MonadStateOf.get, EStateM.get]
    cases hLast : s.prover.last with
    | sat m => exact absurd hLast (hNone m)
    | _ => rfl
  by_cases hLast : ∃ m, s.prover.last = .sat m
  · obtain ⟨m, hLast⟩ := hLast
    have hVouched : Vouched .blind question.states assumptions (fun _ => False) m s :=
      ⟨⟨question, [], assumptions⟩, rfl, rfl, fun _ h => h.elim, fun _ => ⟨false, trivial⟩⟩
    exact (minimalModel_ensures (sound_blind _) hLast (fun _ h => h.elim) hVouched).leads
  · rw [hFails (not_exists.mp hLast)]
    exact tidying.refl s

end Session

/-! ## Generalization -/

namespace Generalizer

/-- What is kept to by work that asserts nothing. -/
abbrev tidying : Discipline Error (Session × Generalizer) := blind.onWork Generalizer

theorem predecessor_tidies (frame : Formula) (d : Diagram) (context : String) (wanted : Wanted) :
    tidying.Keeps (predecessor frame d context wanted) := fun _ =>
  (predecessor_ensures rfl ⟨False.elim, False.elim, False.elim⟩ False.elim
    (sound_blind _)).leads

theorem generalize_tidies (d : Diagram) (frame : Formula) (context : String) :
    tidying.Keeps (generalize d frame context) := by
  intro s
  have hJudges : Judges .blind ⟨s.1.program, s.1.label, stepKeys 2⟩ frame
      (fun _ d' => d'.vars = d.vars) fun _ _ => True :=
    ⟨fun _ _ => trivial, False.elim, fun _ _ _ _ _ _ => trivial⟩
  exact (generalize_ensures hJudges False.elim False.elim
    ⟨rfl, rfl, sound_blind _, False.elim, rfl⟩ fun _ _ _ => trivial).leads

end Generalizer

/-! ## Search -/

namespace Search

open WorkM

/-- The account of a search that leaves nothing asserted. -/
def tidy (first : Session × Search) : Account :=
  ⟨first, fun s => s.1.prover.inForce = first.1.prover.inForce,
    fun _ s => s.1.prover.inForce = first.1.prover.inForce⟩

theorem tidy_sound (first : Session × Search) : (tidy first).Sound where
  leg hAt hLeg := by
    refine Eq.trans ?_ hAt.2
    cases hLeg with
    | quiet hErrand hDone => exact (hErrand.still.ok hDone).1.inForce
    | work hTop _ hDone => exact ((processTop_still hTop).ok hDone).2.inForce
    | _ => rfl
  errand hAt hErrand hRun := (hErrand.still.error hRun).1.inForce.trans hAt.2
  work hAt hTop _ hRun :=
    (((processTop_still hTop).error hRun).1 (.kept (.refl _))).inForce.trans hAt.2
  outOfFuel hAt := hAt.2

/-- What is kept to by a search that asserts nothing. -/
def tidying : Discipline Error (Session × Search) where
  Leads s t := t.1.prover.inForce = s.1.prover.inForce
  Fails _ _ := True
  refl _ := rfl
  trans h h' := h'.trans h

theorem run_tidies (fuel : Nat) : tidying.Keeps (run fuel) := by
  intro s
  refine (run_still fuel s).inForce.trans ?_
  have hWalks := explore_walks (tidy_sound s) fuel ⟨following.refl s, rfl⟩
  cases hRun : explore fuel s with
  | ok ending t => exact (hWalks.ok hRun).2.1.2
  | error e t => exact (hWalks.error hRun).2

theorem tidies_of_rests {α : Type} {act : SearchM α} {Q : α → Session × Search → Prop}
    {s : Session × Search} (h : (resting False).Ensures act s Q) :
    tidying.Leads s (left (act s)) :=
  h.leads.inForce

theorem logging_tidies (f : Log → Log) : tidying.Keeps (logging f) := fun _ =>
  tidies_of_rests (logging_rests f)

theorem change_tidies (f : SearchState → SearchState) : tidying.Keeps (change f) := fun _ => rfl

theorem simplify_tidies : tidying.Keeps simplify :=
  Keeps.bind (fun _ => rfl) fun _ => (change_tidies _).bind fun _ _ =>
    tidies_of_rests (count_rests _)

theorem restoreFrom_tidies (source : String) (found : Except CheckpointFault SearchState) :
    tidying.Keeps (restoreFrom source found) := by
  refine (keeps_liftExcept _ found).bind fun _ => (logging_tidies _).bind fun _ => ?_
  exact keeps_when (keeps_throw _) ((change_tidies _).bind fun _ => logging_tidies _)

theorem restore_tidies (state : SearchState) : tidying.Keeps (restore state) :=
  keeps_when (keeps_throw _) ((change_tidies _).bind fun _ => logging_tidies _)

end Search

/-! ## Operations -/

namespace Workbench

/-- What steps at a workbench do that assert nothing. -/
def tidying : Discipline Error Workbench where
  Leads v w := w.session.prover.inForce = v.session.prover.inForce
  Fails _ _ := True
  refl _ := rfl
  trans h h' := h'.trans h

variable {α : Type}

theorem inSession_tidies {act : SessionM α} (h : Session.tidying.Keeps act) :
    tidying.Keeps (inSession act) := by
  intro w
  have hSession := (h w.session).prover.inForce_eq
  unfold inSession
  cases hRun : act w.session <;> rw [hRun] at hSession <;> exact hSession

theorem inGeneralizer_tidies {act : WorkM Generalizer α} (h : Generalizer.tidying.Keeps act) :
    tidying.Keeps (inGeneralizer act) := by
  intro w
  have hWork := (h (w.session, w.generalizer)).prover.inForce_eq
  unfold inGeneralizer
  cases hRun : act (w.session, w.generalizer) <;> rw [hRun] at hWork <;> exact hWork

theorem startSearch_tidies (options : SearchOptions) : tidying.Keeps (startSearch options) := by
  refine keeps_get.bind fun w => (keeps_liftExcept _ _).bind fun search => ?_
  refine (inSession_tidies fun s => ?_).bind fun _ =>
    Keeps.bind (keeps_modify fun _ => rfl) fun _ => keeps_pure _
  exact (Session.proving_ensures
    (Prover.modify_ensures rfl rfl (Nat.le_refl _) rfl rfl)).leads

theorem inSearch_tidies {act : SearchM α} (h : Search.tidying.Keeps act) :
    tidying.Keeps (inSearch act) := by
  -- a search is taken or started first, and goes on the same way
  refine keeps_get.bind fun w => ?_
  split
  · refine (keeps_pure _).bind fun search w => ?_
    have hWork := h (w.session, search)
    dsimp only
    cases hRun : act (w.session, search) <;> rw [hRun] at hWork <;> exact hWork
  · refine (startSearch_tidies _).bind fun search w => ?_
    have hWork := h (w.session, search)
    dsimp only
    cases hRun : act (w.session, search) <;> rw [hRun] at hWork <;> exact hWork

end Workbench

/-- What can be asked of a verifier, a bounded checker, a generalizer and a search, and of a session
that has found a model. -/
inductive Operation where
  | initiation (property : Formula)
  | consecution (assumption property : Formula) (transition : Transition)
  | implication (assumption property : Formula)
  | statement (claim : Theorem)
  | invariants (chosen transitions : NameSet)
  | theorems
  | inductiveness (predicates : List Formula) (safety : Formula)
  | trace (constraints : List (Option Formula)) (names : List String) (description : String)
  | violation (property : Formula) (steps : Nat)
  | predecessor (frame : Formula) (diagram : Diagram) (context : String) (wanted : Wanted)
  | generalize (diagram : Diagram) (frame : Formula) (context : String)
  | startSearch (options : SearchOptions)
  | search (fuel : Nat)
  | simplify
  | frameFormula (index : Nat)
  | restore (state : SearchState)
  | load (source text : String)
  | requestStop
  | minimalModel (encoding : Encoding) (assumptions : List Term) (question : Question)

namespace Operation

open Workbench (inSession inGeneralizer inSearch)

/-- Does what is asked. The result is left out. -/
def run : Operation → BenchM Unit
  | .initiation property => discard (inSession (violatesInitiation property))
  | .consecution assumption property t =>
    discard (inSession (violatesConsecution assumption property t))
  | .implication assumption property =>
    discard (inSession (violatesImplication assumption property))
  | .statement t => discard (inSession (violatesTheorem t))
  | .invariants chosen transitions =>
    discard (inSession (verifyInvariants chosen transitions))
  | .theorems => discard (inSession verifyTheorems)
  | .inductiveness predicates safety =>
    discard (inSession (checkInductive predicates safety))
  | .trace constraints names description =>
    discard (inSession (findTrace constraints names description))
  | .violation property steps => discard (inSession (findViolation property steps))
  | .predecessor frame d context wanted =>
    discard (inGeneralizer (Generalizer.predecessor frame d context wanted))
  | .generalize d frame context => discard (inGeneralizer (Generalizer.generalize d frame context))
  | .startSearch options => discard (Workbench.startSearch options)
  | .search fuel => discard (inSearch (Search.run fuel))
  | .simplify => inSearch Search.simplify
  | .frameFormula index => discard (inSearch (Search.currentFormula index))
  | .restore state => inSearch (Search.restore state)
  | .load source text => Workbench.restore source text
  | .requestStop => inSession (proving Prover.requestStop)
  | .minimalModel e assumptions question =>
    discard (inSession (Session.minimalModel e assumptions question))

theorem run_tidies (op : Operation) : Workbench.tidying.Keeps op.run := by
  -- what is asked of the session, of the generalizer and of the search
  have inSession {α : Type} {act : SessionM α} (h : Session.tidying.Keeps act) :=
    (Workbench.inSession_tidies h).discard
  have inGeneralizer {α : Type} {act : WorkM Generalizer α} (h : Generalizer.tidying.Keeps act) :=
    (Workbench.inGeneralizer_tidies h).discard
  cases op with
  | initiation property => exact inSession (violatesInitiation_tidies property)
  | consecution assumption property t =>
    exact inSession (violatesConsecution_tidies assumption property t)
  | implication assumption property =>
    exact inSession (violatesImplication_tidies assumption property)
  | statement t => exact inSession (violatesTheorem_tidies t)
  | invariants chosen transitions =>
    exact inSession (verifyInvariants_tidies chosen transitions)
  | theorems => exact inSession verifyTheorems_tidies
  | inductiveness predicates safety =>
    exact inSession (checkInductive_tidies predicates safety)
  | trace constraints names description =>
    exact inSession (findTrace_tidies constraints names description)
  | violation property steps => exact inSession (findTrace_tidies _ _ _)
  | predecessor frame d context wanted =>
    exact inGeneralizer (Generalizer.predecessor_tidies frame d context wanted)
  | generalize d frame context =>
    exact inGeneralizer (Generalizer.generalize_tidies d frame context)
  | startSearch options => exact (Workbench.startSearch_tidies options).discard
  | search fuel => exact (Workbench.inSearch_tidies (Search.run_tidies fuel)).discard
  | simplify => exact Workbench.inSearch_tidies Search.simplify_tidies
  | frameFormula index =>
    exact (Workbench.inSearch_tidies fun s => Search.tidies_of_rests
      (Search.currentFormula_rests index False.elim)).discard
  | restore state => exact Workbench.inSearch_tidies (Search.restore_tidies state)
  | load source text =>
    exact keeps_get.bind fun _ => Workbench.inSearch_tidies (Search.restoreFrom_tidies source _)
  | requestStop =>
    exact Workbench.inSession_tidies fun s =>
      (proving_ensures (Prover.requestStop_ensures id)).leads
  | minimalModel e assumptions question =>
    exact inSession (minimalModel_tidies e assumptions question)

/-- **No assertion is left behind.** After any operation, whether it succeeded or failed, the same
scopes are open as before it, with the same terms asserted in them. -/
theorem scopes_run (op : Operation) (w : Workbench) :
    (left (op.run w)).session.prover.scopes = w.session.prover.scopes ∧
      (left (op.run w)).session.prover.base = w.session.prover.base := by
  have hForce : (left (op.run w)).session.prover.scopes ++ [(left (op.run w)).session.prover.base] =
      w.session.prover.scopes ++ [w.session.prover.base] := op.run_tidies w
  obtain ⟨hScopes, hBase⟩ := List.append_inj' hForce rfl
  exact ⟨hScopes, List.singleton_injective hBase⟩

end Operation

end InvariantSearch
