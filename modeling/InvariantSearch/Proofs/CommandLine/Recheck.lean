import InvariantSearch.CommandLine.Run
import InvariantSearch.Proofs.Search.Continuation
import InvariantSearch.Proofs.Session.Verification
import Mathlib

/-!
# A search is not taken at its word

A search may go on from a checkpoint with any frames, so what it calls proved may be no
invariant at all. It counts only if a session of its own finds the invariant inductive,
and safety implied by it.

* `Run.seek` — the first session, which searches.

Main result: `Run.safe_of_success`. If all that is denied in the second session is
impossible, then a search that ends with success has shown safety, whatever its first
session was told, and whatever it was restored from.
-/

namespace InvariantSearch

open Search Session Checkpoint Discipline

variable {n : Nat} {f : Search}

namespace Run

variable {α : Type} {fuel : Nat} {o : Options} {p : Program} {d d' : Desk}

/-! ## The two sessions of a search -/

/-- What a search finds, before it is checked. -/
def seek (fuel : Nat) (o : Options) (p : Program) :
    RunM ((Except Error SearchResult × Search) × Nat) :=
  inSession o p do
    let start ← liftExcept .program (new p o.search)
    WorkM.startingWith start (resume fuel o p)

/-- What becomes of what a search found: an invariant is checked in a session of its own, and the
result is printed. -/
def conclude (o : Options) (p : Program) (found : (Except Error SearchResult × Search) × Nat) :
    RunM (ExitStatus × Nat) := do
  let result ← liftExcept id found.1.1
  if let .proved _ invariant := result.conclusion then
    let (failures, _) ← inSession o p (checkInductive invariant found.1.2.safety)
    if let failure :: _ := failures then throw (.refuted failure.render)
  printResult o result.render result.toReport
  return (searchStatus result.conclusion, found.2)

theorem search_eq (fuel : Nat) (o : Options) (p : Program) :
    search fuel o p = seek fuel o p >>= conclude o p := rfl

theorem inSession_eq_ok {act : SessionM α} {a : α} (h : inSession o p act d = .ok (a, n) d') :
    ∃ s t, start p o.label (.start o.prover d.script false d.log) = .ok () s ∧
      act s = .ok a t ∧ d' = putBack t d := by
  unfold inSession at h
  cases hStart : start p o.label (.start o.prover d.script false d.log) with
  | error e s =>
    rw [hStart] at h
    cases h
  | ok _ s =>
    rw [hStart] at h
    dsimp only at h
    cases hRun : act s with
    | error e t =>
      rw [hRun] at h
      cases h
    | ok b t =>
      rw [hRun] at h
      cases h
      exact ⟨s, t, rfl, hRun, rfl⟩

theorem resume_eq (fuel : Nat) (p : Program) (s : Session) (f : Search) (h : o.checkpoint ≠ "") :
    resume fuel o p (s, f) = (do
      Search.restoreFrom o.checkpoint (load p o.checkpoint s.prover.log.disk)
      Search.run fuel : SearchM SearchResult) (s, f) := by
  simp only [resume, h, not_false_eq_true, if_true, ne_eq]
  rfl

theorem safety_of_resume (fuel : Nat) (o : Options) (p : Program) (s : Session) (h : Twins f f f) :
    (left (resume fuel o p (s, f))).2.safety = f.safety := by
  by_cases hCheckpoint : o.checkpoint = ""
  · have hResume : resume fuel o p = Search.run fuel := by simp [resume, hCheckpoint]
    rw [hResume]
    exact (keeps_of_twins h (run_twins fuel)).2.2.2.safety
  · rw [resume_eq fuel p s f hCheckpoint]
    exact (Search.keeps_of_twins (R := SearchResult.Alike) h (Pairing.Relates.bind (R := Eq)
      (Search.restoreFrom_twins _ _) fun _ _ _ => Search.run_twins fuel)).2.2.2.safety

/-- What is on the desk after a search. -/
def sought (d : Desk) : EStateM.Result Error (Session × Search) SearchResult →
    EStateM.Result Error Desk ((Except Error SearchResult × Search) × Nat)
  | .ok r t => .ok ((.ok r, t.2), t.1.prover.stats.queries) (putBack t.1 d)
  | .error e t => .ok ((.error e, t.2), t.1.prover.stats.queries) (putBack t.1 d)

theorem seek_eq {s : Session}
    (hStart : start p o.label (.start o.prover d.script false d.log) = .ok () s)
    (hNew : new p o.search = .ok f) : seek fuel o p d = sought d (resume fuel o p (s, f)) := by
  have hAct : (do
      let start ← liftExcept .program (new p o.search)
      WorkM.startingWith start (resume fuel o p) : SessionM _) s =
      WorkM.startingWith f (resume fuel o p) s := by
    rw [hNew]
    rfl
  unfold seek inSession
  rw [hStart]
  dsimp only
  rw [hAct, WorkM.startingWith]
  cases resume fuel o p (s, f) <;> rfl

theorem safety_of_seek {found : Except Error SearchResult}
    (h : seek fuel o p d = .ok ((found, f), n) d') :
    p.safety o.search.safetyName = .ok f.safety := by
  obtain ⟨s, t, hStart, hAct, -⟩ := inSession_eq_ok h
  obtain ⟨first, hNew⟩ : ∃ first, new p o.search = .ok first := by
    cases hSearch : new p o.search with
    | ok first => exact ⟨first, rfl⟩
    | error e =>
      rw [hSearch] at hAct
      cases hAct
  have hSafety : p.safety o.search.safetyName = .ok first.safety := by
    obtain ⟨safety, hSafety, hPure⟩ := bind_eq_ok.mp hNew
    cases hPure
    exact hSafety
  have hKept := safety_of_resume fuel o p s (twins_of_new hNew)
  rw [seek_eq hStart hNew] at h
  cases hRun : resume fuel o p (s, first) <;> rw [hRun] at h hKept <;> cases h <;>
    exact hSafety.trans (congrArg _ hKept.symm)

/-- **What is behind a success**: the search proves an invariant, and a second session has nothing
to say against it. -/
theorem search_eq_ok (h : search fuel o p d = .ok (.success, n) d') :
    ∃ found f k d₁ invariant s t, seek fuel o p d = .ok ((found, f), k) d₁ ∧
      start p o.label (.start o.prover d₁.script false d₁.log) = .ok () s ∧
      checkInductive invariant f.safety s = .ok [] t ∧
      d'.events = t.prover.events ++ d₁.events := by
  rw [search_eq] at h
  obtain ⟨⟨⟨found, f⟩, k⟩, d₁, hSeek, h⟩ := run_bind_eq_ok.mp h
  obtain ⟨result, d₂, hFound, h⟩ := run_bind_eq_ok.mp h
  obtain rfl : d₁ = d₂ := by
    cases found <;> cases hFound
    rfl
  refine ⟨found, f, k, d₁, ?_⟩
  -- of the conclusions only a proof is a success, and only when the second session objects to nothing
  cases hConclusion : result.conclusion with
  | disproved c =>
    rw [hConclusion] at h
    obtain ⟨_, d₃, -, hPure⟩ := run_bind_eq_ok.mp h
    cases hPure
  | interrupted =>
    rw [hConclusion] at h
    obtain ⟨_, d₃, -, hPure⟩ := run_bind_eq_ok.mp h
    cases hPure
  | proved index invariant =>
    rw [hConclusion] at h
    obtain ⟨⟨failures, m⟩, d₃, hCheck, h⟩ := run_bind_eq_ok.mp h
    obtain ⟨s, t, hStart, hAct, rfl⟩ := inSession_eq_ok hCheck
    cases failures with
    | cons failure failures => cases h
    | nil =>
      obtain ⟨_, d₄, hPrint, hPure⟩ := run_bind_eq_ok.mp h
      obtain ⟨-, rfl⟩ := run_pure_eq_ok.mp hPure
      cases hPrint
      exact ⟨invariant, s, t, hSeek, hStart, hAct, rfl⟩

/-! ## No false proof -/

/-- **A search that ends with success has shown safety**, whatever checkpoint it went on from and
whatever it was told while it searched, if the second session is told the truth: there, where a
query asserts what its question says and is answered with no, no states are as the question asks
for. Then safety holds in all states of every course of the program, of any length. -/
theorem safe_of_success {n : Nat} {new : List Event}
    (hRun : search fuel o p d = .ok (.success, n) d')
    (hNew : d'.events = new ++ (Discipline.left (seek fuel o p d)).events)
    (hTruthful : ∀ query answer core, Event.check query (some answer) ∈ new →
      answer.verdict = .unsat core → query.Poses p o.label →
      query.question.Truthful p (.unsat core)) :
    ∃ safety, p.safety o.search.safetyName = .ok safety ∧
      ∀ D : Domain, D.Inhabits p → ∀ (length : Nat) (σ : Nat → State D), IsCourse p length σ →
        ∀ i ≤ length, safety.HoldsIn (σ i) := by
  obtain ⟨found, f, k, d₁, invariant, s, t, hSeek, hStart, hCheck, hEvents⟩ := search_eq_ok hRun
  refine ⟨f.safety, safety_of_seek hSeek, fun D hD length σ hσ i hi => ?_⟩
  obtain rfl : new = t.prover.events := by
    rw [hSeek, hEvents] at hNew
    exact (List.append_cancel_right hNew).symm
  have hImpossible : ∀ question, t.Refutes p o.label question →
      ∃ core, ¬ question.HasModel p core := by
    rintro _ ⟨query, answer, core, hAsk, hVerdict, rfl, hPoses⟩
    exact ⟨core, hTruthful query answer core (Prover.mem_asks.mp hAsk) hVerdict hPoses⟩
  obtain ⟨hInitiation, hConsecution, hImplication⟩ :=
    Session.refutes_of_checkInductive (Session.poised_of_start hStart) hCheck
  -- the invariant holds all along, and implies safety
  obtain ⟨hState, hInvariant⟩ := hσ.holdsIn (f := .conj invariant)
    (fun s hs => by
      by_contra hNot
      obtain ⟨_, hNone⟩ := hImpossible _ hInitiation
      exact hNone ⟨D, hD, s, hs, hNot⟩)
    (fun r hr s t hs ht hInv hTakes => by
      by_contra hNot
      obtain ⟨_, hNone⟩ := hImpossible _ (hConsecution r hr)
      exact hNone ⟨D, hD, s, t, hs, ht, hInv, hTakes, hNot⟩) i hi
  by_contra hNot
  obtain ⟨_, hNone⟩ := hImpossible _ hImplication
  exact hNone ⟨D, hD, _, hState, hInvariant, hNot⟩

/-! ## A sample -/

/-- What a search about the lamp is said to have reached: that the lamp is broken, though only in
frame 0. -/
def spoiledState : SearchState :=
  { SearchState.empty with
    frames := [[.id "broken", .not (.id "broken")], [.not (.id "broken")], [.not (.id "broken")]]
    log := [.id "broken", .not (.id "broken")]
    learned := 2
    distinct := 2 }

/-- A search that goes on from a checkpoint. -/
def resuming : Options where
  subcommand := .search
  file := "lamp"
  json := false
  depth := 0
  checkpoint := "s"
  label := ""
  invariants := .empty
  transitions := .empty
  logFile := ""
  compression := .none
  topics := .empty
  prover := .standard
  search := { SearchOptions.standard with useCores := false }

/-- A desk with that checkpoint. The search is told, wrongly, that a broken lamp may be mended. -/
def spoiledDesk : Desk where
  log := .new (Disk.empty.add (Place.here.child "s") (render lamp spoiledState))
  script := ⟨[⟨.unsat none, false⟩, ⟨.sat .empty, false⟩], some ⟨.unsat none, false⟩⟩
  events := []

theorem load_spoiledDesk :
    load lamp "s" spoiledDesk.log.disk = .ok spoiledState := by
  have hSteps : Place.steps "s" = ["s"] := by cbv
  have hPlace : spoiledDesk.log.disk.place? "s" = some (Place.here.child "s") := by
    rw [Disk.place?, hSteps]
    decide +kernel
  have hRead : spoiledDesk.log.disk.read? "s" =
      some (render lamp spoiledState) := by
    rw [Disk.read?, hPlace]
    decide +kernel
  rw [load, hRead]
  decide +kernel

/-- The session in which the lamp's search begins. -/
def spoiledSession : Session :=
  ⟨lamp, "", .start .standard spoiledDesk.script false spoiledDesk.log, [stepKeys 1]⟩

/-- The lamp's search, from what was read. -/
def spoiledSearch : EStateM.Result Error Desk ((Except Error SearchResult × Search) × Nat) :=
  sought spoiledDesk ((do
    Search.restoreFrom "s" (.ok spoiledState)
    Search.run 9 : SearchM SearchResult) (spoiledSession, Search.coreless (.not (.id "broken"))))

theorem seek_spoiledDesk : seek 9 resuming lamp spoiledDesk = spoiledSearch := by
  have hStart : start lamp resuming.label
      (.start resuming.prover spoiledDesk.script false spoiledDesk.log) =
        .ok () spoiledSession := rfl
  have hNew : new lamp resuming.search =
      .ok (coreless (.not (.id "broken"))) := rfl
  have hLoad : load lamp resuming.checkpoint spoiledSession.prover.log.disk =
      .ok spoiledState := load_spoiledDesk
  rw [seek_eq hStart hNew, resume_eq 9 _ _ _ (by decide), hLoad]
  rfl

/-- How the lamp's search ends. -/
def spoiledEnd : EStateM.Result Error Desk (ExitStatus × Nat) :=
  match spoiledSearch with
  | .ok found d => conclude resuming lamp found d
  | .error e d => .error e d

theorem search_spoiledDesk : search 9 resuming lamp spoiledDesk = spoiledEnd := by
  rw [search_eq]
  show EStateM.bind _ _ _ = _
  unfold EStateM.bind spoiledEnd
  rw [seek_spoiledDesk]
  cases spoiledSearch <;> rfl

/-- What passed while the lamp's invariant was checked, newest first. -/
def spoiledEvents : List Event :=
  (left spoiledEnd).events.take
    ((left spoiledEnd).events.length - (left spoiledSearch).events.length)

/-- The question of a query. -/
def questionOf? : Event → Option Question
  | .check query _ => some query.question
  | _ => none

/-- The status of a run that did not fail. -/
def status? : EStateM.Result Error Desk (ExitStatus × Nat) → Option ExitStatus
  | .ok r _ => some r.1
  | .error _ _ => none

theorem spoiled_spec : status? spoiledEnd = some .success ∧
    (left spoiledEnd).events = spoiledEvents ++ (left spoiledSearch).events ∧
    spoiledEvents.filterMap questionOf? =
      [.implication (.not (.id "broken")) (.not (.id "broken")),
        .consecution (.not (.id "broken")) (.not (.id "broken")) ⟨"use", [], .empty, .bool true⟩,
        .initiation (.not (.id "broken"))] := by
  decide +kernel

/-- From a checkpoint whose frame 0 says that the lamp is broken, the search still shows that it
never is. -/
theorem safe_of_success_spoiled :
    Checkpoint.load lamp resuming.checkpoint spoiledDesk.log.disk = .ok spoiledState ∧
      status? (search 9 resuming lamp spoiledDesk) = some .success ∧
      ∀ (length : Nat) (σ : Nat → State noElements), IsCourse lamp length σ →
        ∀ i ≤ length, (Formula.not (.id "broken")).HoldsIn (σ i) := by
  obtain ⟨hStatus, hEvents, hQuestions⟩ := spoiled_spec
  have hRun := search_spoiledDesk
  refine ⟨load_spoiledDesk, hRun ▸ hStatus, ?_⟩
  obtain ⟨⟨status, n⟩, d', hEnd⟩ : ∃ r d', spoiledEnd = .ok r d' := by
    cases hEnd : spoiledEnd with
    | ok r d' => exact ⟨r, d', rfl⟩
    | error e d' =>
      rw [hEnd] at hStatus
      cases hStatus
  rw [hEnd] at hRun hStatus hEvents
  cases hStatus
  rw [← seek_spoiledDesk] at hEvents
  have hUse : some ⟨"use", [], .empty, .bool true⟩ ∈ Generalizer.ways lamp := by decide
  obtain ⟨safety, hSafety, hAll⟩ := safe_of_success hRun hEvents fun query answer core hIn _ _ => by
    -- none of the three questions has a model
    have hAsked : query.question ∈ spoiledEvents.filterMap questionOf? :=
      List.mem_filterMap.mpr ⟨_, hIn, rfl⟩
    rw [hQuestions] at hAsked
    simp only [List.mem_cons, List.not_mem_nil, or_false] at hAsked
    rcases hAsked with hQuestion | hQuestion | hQuestion <;> rw [hQuestion]
    · rintro ⟨D, -, σ, -, hσ, hNot⟩
      exact hNot hσ
    · rintro ⟨D, -, σ, τ, -, -, hσ, hTakes, hNot⟩
      exact hNot (Formula.holds_not.mpr (not_broken_of_goes hUse hTakes hσ))
    · rintro ⟨D, -, σ, hσ, hNot⟩
      exact hNot hσ.initial
  cases hSafety
  exact hAll _ inhabits_noElements

end Run

end InvariantSearch
