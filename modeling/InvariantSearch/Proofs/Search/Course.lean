import InvariantSearch.Proofs.Search.Walk

/-!
# The course of a search

A search is run, fails or is interrupted, is run again, and so on.

* `Search.Course` — how a search can go on from where it began. Between two runs, the
  session may be used for anything else.
* `Search.Concluded` — how a search that began in one state ends in another: with a proof
  that is established, or safety being refuted.

Main results: `run_follows` — a run makes moves, whatever the verdicts are, and what
it concludes is established or refuted. `Course.follows` — so does a whole course.
-/

namespace InvariantSearch

open Discipline Session Prover

variable {t : Session × Search} {conclusion : Conclusion}

namespace Search

open WorkM

variable {u : Session × Search}

/-! ## Runs -/

section Runs

variable {s : Session × Search} {Sure : Prop}

theorem simplify_follows :
    following.Ensures simplify s fun _ t =>
      t.1 = s.1 ∧ t.2.state = s.2.state.simplify := by
  refine ensures_own ?_
  refine (change_follows (f := fun _ => s.2.state.simplify) Move.simplify
    (List.prefix_refl _)).bind fun _ u _ hu => ?_
  exact (follows_of_rests (count_rests _ : (resting False).Ensures _ _ _)).imp fun _ v _ hv =>
    ⟨hv.2.trans hu.1, hv.1.state.trans hu.2⟩

/-- How a search that began in one state ends in another. -/
def Concluded (s t : Session × Search) (conclusion : Conclusion) : Prop :=
  Refuted s t.1 conclusion ∨ Established s t conclusion

theorem Follows.concluded (h : Follows s t) (htu : t.1.RecordedIn u.1)
    (hConcluded : Concluded t u conclusion) : Concluded s u conclusion := by
  refine hConcluded.imp h.refuted ?_
  rintro ⟨n, before, index, hSteps, hState, hFixpoint, hConclusion, hExcludes⟩
  obtain ⟨k, hMoves, -⟩ := h.moves
  have hTold : ∀ q v, t.1.Told q v → u.1.Told q v := fun _ _ hTold => hTold.of_recordedIn htu
  rw [h.session.program] at hSteps hExcludes
  rw [h.chosen] at hExcludes
  exact ⟨k + n, before, index,
    (hMoves.mono fun _ _ _ hMove => hMove.mono hTold).trans hSteps,
    hState, hFixpoint, hConclusion, hExcludes⟩

theorem Concluded.of_recordedIn (h : Concluded s t conclusion) (htu : t.1.RecordedIn u.1)
    (hState : u.2.state = t.2.state) : Concluded s u conclusion := by
  have hTold : ∀ q v, t.1.Told q v → u.1.Told q v := fun _ _ hTold => hTold.of_recordedIn htu
  refine h.imp (fun h => h.of_recordedIn htu) ?_
  rintro ⟨n, before, index, hSteps, hSimplify, hFixpoint, hConclusion, hExcludes⟩
  rw [← hState] at hSimplify hFixpoint hConclusion
  exact ⟨n, before, index, hSteps.mono fun _ _ _ hMove => hMove.mono hTold, hSimplify,
    hFixpoint, hConclusion, fun property hProperty =>
      (hExcludes property hProperty).of_gains (.refl before) hTold⟩

theorem explore_follows (fuel : Nat) :
    following.Ensures (explore fuel) s fun ending t =>
      ending.1 ≠ .interrupted → Concluded s t ending.1 := by
  have hWalks := explore_walks (Account.plain_sound s) fuel ⟨following.refl s, trivial⟩
  exact hWalks.change (fun _ _ _ ht => ⟨ht.1.1, fun hEnded =>
    (ht.2 hEnded).imp_left Refutes.refuted⟩) fun _ _ _ hFails => hFails

theorem suspend_rests (message : String) :
    (resting Sure).Ensures (suspend message) s fun _ _ => True := by
  refine (inSession_rests (proving_ensures clearInterrupt_ensures)).bind
    fun _ t _ _ => writeCheckpoint_rests.bind fun _ u _ _ => ?_
  exact (logging_rests _).imp fun _ _ _ _ => trivial

theorem finish_rests (ending : Ending) :
    (resting Sure).Ensures (finish ending) s fun r _ => r.conclusion = ending.1 := by
  refine ensures_own (ensures_session ?_)
  exact (logging_rests _).bind fun _ v _ _ => ensures_pure rfl

theorem ends_rests (Sure : Prop) (ending : Ending) :
    (resting Sure).Ensures
      (do
        if ending.1 = .interrupted then suspend ending.2
        finish ending)
      s fun r _ => r.conclusion = ending.1 := by
  refine ensures_ite (fun _ => ?_) fun _ => finish_rests ending
  exact (suspend_rests _).bind fun _ t _ _ => finish_rests ending

/-- **A run makes moves, whatever the verdicts are, and also if it fails.** Where it ends by
itself, it refutes safety or establishes it. -/
theorem run_follows (fuel : Nat) :
    following.Ensures (run fuel) s fun r t =>
      r.conclusion ≠ .interrupted → Concluded s t r.conclusion := by
  have hEnds : ∀ (ending : Ending) (t : Session × Search),
      (ending.1 ≠ .interrupted → Concluded s t ending.1) →
      following.Ensures
        (do
          if ending.1 = .interrupted then suspend ending.2
          finish ending)
        t fun r u => r.conclusion ≠ .interrupted → Concluded s u r.conclusion := by
    intro ending t ht
    refine (follows_of_rests (ends_rests False ending)).imp fun r u _ hu h => ?_
    rw [hu.2] at h ⊢
    exact (ht h).of_recordedIn hu.1.session.recorded hu.1.state
  refine ((explore_follows fuel).attempt fun _ h => h).bind fun r t _ ht => ?_
  cases r with
  | ok ending => exact hEnds ending t (ht.1 ending rfl)
  | error e =>
    have hThrow : ∀ {Q : SearchResult → Session × Search → Prop},
        following.Ensures (throw e) t Q := ensures_throw (ht.2 e rfl)
    cases e with
    | inconclusive cause =>
      refine ensures_ite (fun _ => ?_) fun _ => hThrow
      exact hEnds (.interrupted, cause.message) t fun h => absurd rfl h
    | _ => exact hThrow

/-- A run ends with what it came to. If it fails, then with its error, unless that only says that
it was interrupted. -/
theorem run_ends (fuel : Nat) (s : Session × Search) :
    match explore fuel s with
    | .ok ending t => run fuel s = (do
        if ending.1 = .interrupted then suspend ending.2
        finish ending : SearchM SearchResult) t
    | .error e t => run fuel s = .error e t ∨ ∃ message, run fuel s = (do
        suspend message
        finish (.interrupted, message) : SearchM SearchResult) t := by
  unfold run
  cases hExplore : explore fuel s with
  | ok ending t =>
    simp only [bind, EStateM.bind, attempt, hExplore]
    rfl
  | error e t =>
    cases e with
    | inconclusive cause =>
      cases hCause : cause.interrupted with
      | true =>
        refine Or.inr ⟨cause.message, ?_⟩
        simp only [bind, EStateM.bind, attempt, hExplore, hCause, if_true]
        rfl
      | false =>
        refine Or.inl ?_
        simp only [bind, EStateM.bind, attempt, hExplore, hCause]
        rfl
    | _ =>
      refine Or.inl ?_
      simp only [bind, EStateM.bind, attempt, hExplore]
      rfl

/-- **What a run leaves is what it came to.** -/
theorem run_still (fuel : Nat) (s : Session × Search) :
    Still (left (explore fuel s)) (left (run fuel s)) := by
  have hEnds := run_ends fuel s
  cases hExplore : explore fuel s with
  | ok ending t =>
    rw [hExplore] at hEnds
    rw [hEnds]
    exact (ends_rests False ending).leads
  | error e t =>
    rw [hExplore] at hEnds
    rcases hEnds with hError | ⟨message, hMessage⟩
    · rw [hError]
      exact .refl t
    · rw [hMessage]
      exact (ends_rests False (.interrupted, message)).leads

theorem conclusion_run {fuel : Nat} {r : SearchResult} (h : run fuel s = .ok r t)
    (hEnded : r.conclusion ≠ .interrupted) :
    ∃ ending u, explore fuel s = .ok ending u ∧ r.conclusion = ending.1 := by
  have hEnds := run_ends fuel s
  cases hExplore : explore fuel s with
  | ok ending u =>
    rw [hExplore, h] at hEnds
    exact ⟨ending, u, rfl, ((ends_rests False ending).ok hEnds.symm).2⟩
  | error e u =>
    rw [hExplore, h] at hEnds
    rcases hEnds with hError | ⟨message, hMessage⟩
    · cases hError
    · exact absurd ((ends_rests False (.interrupted, message)).ok hMessage.symm).2 hEnded

end Runs

/-! ## Courses -/

/-- How a search goes on from where it began: it is run, with any outcome, its predicates are
pruned, or it is interrupted, and meanwhile the session is used for other things. -/
inductive Course (first : Session × Search) : Session × Search → Prop
  | fresh : Course first first
  | run {s : Session × Search} (fuel : Nat) (h : Course first s) :
      Course first (left (Search.run fuel s))
  | simplify {s : Session × Search} (h : Course first s) :
      Course first (left (Search.simplify s))
  | interrupt {s : Session × Search} (h : Course first s) :
      Course first (left (inSession (proving requestStop) s))
  | meanwhile {s : Session × Search} {t : Session} (h : Course first s) (hst : s.1.Continues t) :
      Course first (t, s.2)

/-- **A course of a search is made of moves.** -/
theorem Course.follows {first s : Session × Search} (h : Course first s) :
    Follows first s := by
  induction h with
  | fresh => exact following.refl first
  | run fuel _ ih => exact ih.trans (run_follows fuel).leads
  | simplify _ ih => exact ih.trans simplify_follows.leads
  | @interrupt s _ ih =>
    have hStop : (resting False).Ensures (inSession (proving requestStop)) s _ :=
      inSession_rests (proving_ensures (requestStop_ensures id))
    exact ih.trans hStop.leads.follows
  | meanwhile _ hst ih =>
    exact ih.trans ⟨hst, rfl, rfl, rfl, ⟨0, .refl _, hst.recorded.asked_le⟩,
      stems_of_beginning (List.prefix_refl _)⟩

end Search

end InvariantSearch
