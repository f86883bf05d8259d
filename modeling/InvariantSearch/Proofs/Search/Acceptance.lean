import InvariantSearch.Proofs.Search.Grounds
import InvariantSearch.Proofs.Search.Resumption

/-!
# Going on from a checkpoint that was accepted

A search that goes on from a state it relies on makes no misstep, whatever the options and the
verdicts are: it never asks for a frame that there is not, for a formula that cannot be encoded,
or for a run whose states and steps do not fit each other.

* `Search.Standing` — a search about a program stands on a grounded state, so that all it asks for
  is there. A run of more states than a word of 32 bits counts may be refused, but it has no more
  states than there are frames.

Main results: `excused_of_run`, and `resumes_from_accepted` about every text that is read as a
checkpoint.
-/

namespace InvariantSearch

open Discipline Session Checkpoint

namespace Search

open WorkM

/-! ## Standing on a state -/

/-- A search about a program stands on a grounded state, and its properties can be encoded. -/
structure Standing (p : Program) (s : Session × Search) : Prop where
  program : s.1.program = p
  proper : Proper p
  safety : s.2.safety.Resolves p []
  chosen : ∀ property ∈ s.2.chosen, property.Resolves p []
  state : s.2.state.Grounded p

namespace Standing

variable {p : Program} {s t : Session × Search}

theorem of_sited (h : Sited p s) (hState : s.2.state.Grounded p) : Standing p s where
  program := h.program
  proper := h.proper
  safety := by
    rw [h.safety]
    exact Formula.resolves_conj fun f hf => (h.sorted f hf).resolves (by simp)
  chosen f hf := (h.sorted f hf).resolves (by simp)
  state := hState

/-- **Moves leave a search standing.** -/
theorem moves (hs : Standing p s) (hst : Follows s t) : Standing p t where
  program := hst.session.program.trans hs.program
  proper := hs.proper
  safety := hst.safety ▸ hs.safety
  chosen := hst.chosen ▸ hs.chosen
  state := by
    obtain ⟨n, hSteps, -⟩ := hst.moves
    rw [hs.program] at hSteps
    exact Steps.grounded hs.proper.declared.nodup_names hSteps hs.state

theorem footing (hs : Standing p s) : Footing s := by
  obtain ⟨rfl, hProper, hSafety, hChosen, hPredicates, hDiagrams, hStack⟩ := hs
  exact ⟨hProper.checked, hSafety, hChosen, hPredicates, hDiagrams, hStack.frame,
    hStack.transition, hStack.length_chain⟩

end Standing

/-! ## Runs -/

section Runs

variable {p : Program} {s t : Session × Search}

/-- The account of a search that makes no misstep. -/
def surefooted (first : Session × Search) : Account := ⟨first, fun _ => True, Excused⟩

theorem surefooted_sound (hs : Standing p s) : (surefooted s).Sound where
  leg _ _ := trivial
  errand hAt hErrand hRun :=
    ((hErrand.rests fun _ : True => (hs.moves hAt.1).footing).error hRun).2.2 trivial
  work hAt hTop _ hRun :=
    ((processTop_labors hTop fun _ : True => (hs.moves hAt.1).footing).error hRun).2.2 trivial
  outOfFuel _ := Or.inl rfl

/-- **A run makes no misstep**, whatever is answered. -/
theorem excused_of_run (hs : Standing p s) {fuel : Nat} {error : Error}
    (hRun : run fuel s = .error error t) : Excused error t := by
  have hEnds := run_ends fuel s
  -- what is done after the search proper asks for nothing
  cases hExplore : explore fuel s with
  | ok ending u =>
    rw [hExplore, hRun] at hEnds
    exact ((ends_rests True ending).error hEnds.symm).2.2 trivial
  | error e u =>
    rw [hExplore, hRun] at hEnds
    obtain hSame | ⟨message, hMessage⟩ := hEnds
    · injection hSame with hError hState
      subst hError hState
      have hWalks := explore_walks (surefooted_sound hs) fuel ⟨following.refl s, trivial⟩
      exact (hWalks.error hExplore).2
    · exact ((ends_rests True (.interrupted, message)).error hMessage.symm).2.2 trivial

end Runs

/-! ## Accepted checkpoints -/

theorem exists_restoreFrom (source : String) {state : SearchState}
    (hFrames : 2 ≤ state.frames.length) (s : Session × Search) :
    ∃ logged t, s.1.Continues logged ∧ restore state (logged, s.2) = .ok () t ∧
      restoreFrom source (.ok state) s = .ok () t := by
  have hLogging : ∀ f : Log → Log, ∃ logged, logging f s = .ok () (logged, s.2) :=
    fun _ => ⟨_, rfl⟩
  have hFrom : restoreFrom source (.ok state) = (do
      logging fun log => log.entry .checkpoints fun _ => loadedLine source state
      restore state) := rfl
  obtain ⟨logged, hLogged⟩ := hLogging
    fun log => log.entry .checkpoints fun _ => loadedLine source state
  have hRestore : ∃ t, restore state (logged, s.2) = .ok () t := by
    unfold restore
    rw [if_neg (by omega)]
    exact ⟨_, rfl⟩
  obtain ⟨t, ht⟩ := hRestore
  have hStill : ∀ f, (resting False).Ensures (logging f) s _ := fun f => logging_rests f
  refine ⟨logged, t, ((hStill _).ok hLogged).1.session, ht, ?_⟩
  rw [hFrom]
  exact run_bind_eq_ok.mpr ⟨(), _, hLogged, ht⟩

/-- **A checkpoint that is accepted can be gone on from safely.** Any text is read as a state of a
search on the program, or refused with a fault of checkpoints, and then the search is as it was.
A search that goes on from what was read, with any options and however it is answered, never fails
for a formula that cannot be encoded, for a frame that there is not, or for an unknown transition,
and it asks for no run whose states and steps do not fit each other. States are counted by words of
32 bits, so a run may be refused once there are more frames than such a word counts. From every
obligation on the stack, following parents ends at a root, which is where the search's own walk
leads. -/
theorem resumes_from_accepted {p : Program} (hDeclared : p.Declared) {opened : Session × Search}
    (hOpened : Opened p opened) (source text : String) :
    (∃ fault, read p source text = .error fault ∧
      restoreFrom source (read p source text) opened =
        .error (.checkpoint fault) opened) ∨
    ∃ state first, read p source text = .ok state ∧
      restoreFrom source (read p source text) opened = .ok () first ∧
      first.2.state = state.normalize ∧
      ∀ s, Course first s →
        (∀ i < s.2.state.obligations.length, ∃ root, Climbs s.2.state.obligations i root ∧
          (SearchState.lineage s.2.state.obligations i i).getLast? = some root) ∧
        ∀ fuel error t, run fuel s = .error error t →
          (∀ fault, error ≠ .encoding fault) ∧ (∀ index count, error ≠ .noFrame index count) ∧
          (∀ name, error ≠ .unknownTransition name) ∧
          ∀ states steps, error = .traceQuery states steps →
            UInt32.size ≤ t.2.state.frames.length := by
  cases hRead : read p source text with
  | error fault => exact Or.inl ⟨fault, rfl, rfl⟩
  | ok state =>
    obtain ⟨hFrames, hGrounded⟩ := grounded_of_read hRead
    obtain ⟨logged, first, hContinues, hRestore, hFrom⟩ :=
      exists_restoreFrom source hFrames opened
    have hOwn := (own_of_restore hRestore).2
    have hState : first.2.state = state.normalize := by rw [hOwn]
    have hSited := ((hOpened.course (.meanwhile .fresh hContinues)).restored hRestore).sited
      hDeclared
    have hFirst : Standing p first := .of_sited hSited (hState ▸ hGrounded.normalize)
    refine Or.inr ⟨state, first, rfl, hFrom, hState, fun s hCourse => ?_⟩
    have hs := hFirst.moves hCourse.follows
    refine ⟨fun i hi => hs.state.stack.climbs hi (Nat.le_refl i), fun fuel error t hRun => ?_⟩
    rcases excused_of_run hs hRun with hSound | ⟨hSize, states, steps, rfl⟩
    · refine ⟨fun _ h => ?_, fun _ _ h => ?_, fun _ h => ?_, fun _ _ h => ?_⟩ <;>
        (rw [h] at hSound; cases hSound)
    · exact ⟨by simp, by simp, by simp, fun _ _ _ => hSize⟩

/-- A state that no search comes to: there are two roots on the stack, one of them with a
transition, and the top belongs to the lower one. -/
def tangledState : SearchState where
  frames := [[.not (.id "broken")], [.not (.id "broken")]]
  log := []
  learned := 7
  distinct := 0
  iterations := 1
  obligations :=
    [⟨1, ⟨[], [⟨.relation, true, .id "broken"⟩]⟩, "", Obligation.root, false⟩,
      ⟨1, ⟨[], []⟩, "drop", Obligation.root, true⟩,
      ⟨0, ⟨[], [⟨.relation, true, .not (.id "broken")⟩]⟩, "drop", 0, false⟩]

theorem read_tangledState :
    read fragile "saved" (render fragile tangledState) =
      .ok tangledState := by
  decide +kernel

/-- A search for a lamp that works, in a session in which nothing is answered, after it was restored
from the tangled state. -/
def tangledSearch : Session × Search :=
  Discipline.left (restoreFrom "saved" (.ok tangledState)
    (fragileSession [], fragileSearch "works" (.not (.id "broken"))))

theorem run_tangledSearch : ∃ t, run 5 tangledSearch = .error .unanswered t := by
  have hFails : ∃ t, run 5 tangledSearch = .error .unanswered t ∧ True := by decide +kernel
  exact hFails.imp fun _ h => h.1

/-- The tangled state is accepted, and the search stops for want of an answer: it asks for a run
along the chain of the top, of which the root in between is no part. -/
theorem resumes_from_tangledState :
    restoreFrom "saved" (read fragile "saved" (render fragile tangledState))
        (fragileSession [], fragileSearch "works" (.not (.id "broken"))) = .ok () tangledSearch ∧
      (∃ t, run 5 tangledSearch = .error .unanswered t) ∧
      (∃ root, Climbs tangledSearch.2.state.obligations 2 root ∧
        (SearchState.lineage tangledSearch.2.state.obligations 2 2).getLast? = some root) ∧
      ∀ fuel error t, run fuel tangledSearch = .error error t →
        (∀ fault, error ≠ .encoding fault) ∧ (∀ index count, error ≠ .noFrame index count) ∧
        (∀ name, error ≠ .unknownTransition name) ∧
        ∀ states steps, error = .traceQuery states steps →
          UInt32.size ≤ t.2.state.frames.length := by
  have hNew : Search.new fragile
      { SearchOptions.standard with useCores := false, safetyName := "works" } =
        .ok (fragileSearch "works" (.not (.id "broken"))) := rfl
  obtain ⟨fault, hFault, -⟩ | ⟨state, first, -, hFrom, -, hAll⟩ :=
    resumes_from_accepted fragile_declared (opened_fragile [] hNew) "saved"
      (render fragile tangledState)
  · rw [read_tangledState] at hFault
    cases hFault
  · have hFirst : first = tangledSearch := by
      rw [read_tangledState] at hFrom
      rw [tangledSearch, hFrom, Discipline.left]
    rw [hFirst] at hFrom hAll
    obtain ⟨hClimbs, hRun⟩ := hAll tangledSearch .fresh
    exact ⟨hFrom, run_tangledSearch, hClimbs 2 (by decide +kernel), hRun⟩

end Search

end InvariantSearch
