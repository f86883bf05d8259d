import InvariantSearch.Proofs.Checkpoint.RoundTrip
import InvariantSearch.Proofs.Search.Resumption
import InvariantSearch.Proofs.Search.Twins

/-!
# Going on from a checkpoint

A search that was interrupted can go on where it is, or its state can be saved and
restored in a new session. It makes no difference.

* `Search.History` — what a search and its session may go through: searches, restored
  states, and whatever else leaves the assertions as they are.
* `Search.EndAlike` — two runs ask the same queries up to the numbering of fresh
  constants, and end alike in the same state.

The argument: all that a search and its session go through leaves what is asserted as it
was at the start (`History.keeps`), a session of the same program asserts the same at its
start (`Session.eq_of_start`), and an interrupted search leaves no request to stop
(`clear_of_interrupted`). So the two are twins, and `run_twins` applies.

Main result: `run_restored`.
-/

namespace InvariantSearch

open Checkpoint Session Discipline

variable {p : Program} {label : String} {α : Type} {a : α} {o : Search} {first : Session × Search}
  {r : SearchResult}

theorem Session.proving_eq_ok {act : ProverM α} {s t : Session} :
    proving act s = .ok a t ↔ ∃ prover, act s.prover = .ok a prover ∧ t = { s with prover } := by
  unfold proving
  cases act s.prover <;> simp [and_assoc, eq_comm]

theorem WorkM.inSession_eq_ok {σ : Type} {act : SessionM α} {s t : Session × σ} :
    inSession act s = .ok a t ↔ ∃ session, act s.1 = .ok a session ∧ t = (session, s.2) := by
  obtain ⟨session, x⟩ := s
  unfold inSession
  dsimp only
  cases act session <;> simp [and_assoc, eq_comm]

namespace Search

variable {s t : Session × Search}

/-! ## What may happen to a search -/

/-- What a search and its session may go through. -/
inductive History (first : Session × Search) : Session × Search → Prop
  | start : History first first
  | run {s : Session × Search} (h : History first s) (fuel : Nat) :
      History first (left (run fuel s))
  | restore {s : Session × Search} (h : History first s) (state : SearchState) :
      History first (left (restore state s))
  | simplify {s : Session × Search} (h : History first s) :
      History first (left (simplify s))
  /-- The session is used for something else, or an interrupt arrives. What is asserted stays as it
  is. -/
  | meanwhile {s : Session × Search} (h : History first s) {session : Session}
      (hProgram : session.program = s.1.program) (hLabel : session.label = s.1.label)
      (hSteady : s.1.prover.Steady 0 session.prover) : History first (session, s.2)

/-- One computation that twins go through alike keeps a session and a search as they were. -/
theorem keeps_of_twins {R : α → α → Prop} {act : SearchM α} (hs : Twins o s.2 s.2)
    (h : (WorkM.pairing .same s.1.program s.1.label (Twins o)).Relates R act act) :
    let t := left (act s)
    t.1.program = s.1.program ∧ t.1.label = s.1.label ∧ s.1.prover.Steady 0 t.1.prover ∧
      Twins o t.2 t.2 := by
  obtain ⟨⟨hSession, hOwn⟩, hLeads⟩ := h.alone (s := s) ⟨s.1.twins_self, hs⟩
  exact ⟨hSession.program, hSession.labeled, hLeads.left, hOwn⟩

/-- **All that is asserted stays as it was**, and the search keeps its options and lists nothing
twice. -/
theorem History.keeps (h : History first s) (hFirst : Twins o first.2 first.2) :
    s.1.program = first.1.program ∧ s.1.label = first.1.label ∧
      first.1.prover.Steady 0 s.1.prover ∧ Twins o s.2 s.2 := by
  have hStep : ∀ {α : Type} {R : α → α → Prop} {act : SearchM α} {s : Session × Search},
      (∀ p label, (WorkM.pairing .same p label (Twins o)).Relates R act act) →
      s.1.program = first.1.program ∧ s.1.label = first.1.label ∧
        first.1.prover.Steady 0 s.1.prover ∧ Twins o s.2 s.2 →
      let t := left (act s)
      t.1.program = first.1.program ∧ t.1.label = first.1.label ∧
        first.1.prover.Steady 0 t.1.prover ∧ Twins o t.2 t.2 := by
    intro α R act s hAct hs
    obtain ⟨hProgram, hLabel, hSteady, hOwn⟩ := keeps_of_twins hs.2.2.2 (hAct _ _)
    exact ⟨hProgram.trans hs.1, hLabel.trans hs.2.1, hs.2.2.1.trans hSteady, hOwn⟩
  induction h with
  | start => exact ⟨rfl, rfl, .refl 0 _, hFirst⟩
  | run h fuel ih => exact hStep (fun _ _ => run_twins fuel) ih
  | restore h state ih => exact hStep (fun _ _ => restore_twins state) ih
  | simplify h ih => exact hStep (fun _ _ => simplify_twins) ih
  | meanwhile h hProgram hLabel hSteady ih =>
    exact ⟨hProgram.trans ih.1, hLabel.trans ih.2.1, ih.2.2.1.trans hSteady, ih.2.2.2⟩

theorem twins_of_new {options : SearchOptions} {f : Search} (h : Search.new p options = .ok f) :
    Twins f f f := by
  refine ⟨rfl, rfl, rfl, rfl, rfl, rfl, rfl, rfl, rfl, ?_⟩
  rw [state_of_new h]
  exact .empty

/-! ## Interrupts -/

/-- Nobody asks to stop. -/
def Clear (s : Session × Search) : Prop :=
  s.1.prover.interrupted = false ∧ s.1.prover.stopRequested = false

theorem clear_of_logging {f : Log → Log} (hs : Clear s) (h : WorkM.logging f s = .ok () t) :
    Clear t := by
  cases h
  exact hs

theorem clear_of_writeCheckpoint (hs : Clear s) (h : writeCheckpoint s = .ok () t) : Clear t := by
  obtain ⟨_, _, hOwn, h⟩ := run_bind_eq_ok.mp h
  cases hOwn
  split at h
  · cases h
    exact hs
  · obtain ⟨_, _, hSession, h⟩ := run_bind_eq_ok.mp h
    cases hSession
    obtain ⟨_, u, hSave, h⟩ := run_bind_eq_ok.mp h
    refine clear_of_logging ?_ h
    -- only the disk changes
    obtain ⟨session, hProving, rfl⟩ := WorkM.inSession_eq_ok.mp hSave
    obtain ⟨prover, hDisk, rfl⟩ := proving_eq_ok.mp hProving
    unfold Prover.onDisk at hDisk
    split at hDisk
    · cases hDisk
      exact hs
    · cases hDisk

theorem clear_of_suspend {message : String} (h : suspend message s = .ok () t) : Clear t := by
  obtain ⟨_, u, hClear, h⟩ := run_bind_eq_ok.mp h
  cases hClear
  obtain ⟨_, v, hWrite, h⟩ := run_bind_eq_ok.mp h
  exact clear_of_logging (clear_of_writeCheckpoint ⟨rfl, rfl⟩ hWrite) h

theorem conclusion_of_finish {ending : Ending} (h : finish ending s = .ok r t) :
    r.conclusion = ending.1 ∧ (Clear s → Clear t) := by
  obtain ⟨_, _, hOwn, h⟩ := run_bind_eq_ok.mp h
  cases hOwn
  obtain ⟨_, _, hSession, h⟩ := run_bind_eq_ok.mp h
  cases hSession
  obtain ⟨_, u, hLog, h⟩ := run_bind_eq_ok.mp h
  obtain ⟨rfl, rfl⟩ := run_pure_eq_ok.mp h
  exact ⟨rfl, fun hs => clear_of_logging hs hLog⟩

/-- **A search that was interrupted leaves no request to stop.** -/
theorem clear_of_interrupted {fuel : Nat} (h : run fuel s = .ok r t)
    (hStop : r.conclusion = .interrupted) : Clear t := by
  -- only a search that is suspended is interrupted, and suspending takes the request back
  have hEnd : ∀ (ending : Ending) (u : Session × Search),
      (do
        if ending.1 = .interrupted then suspend ending.2
        finish ending : SearchM SearchResult) u = .ok r t → Clear t := by
    intro ending u h
    by_cases hEnding : ending.1 = .interrupted
    · rw [if_pos hEnding] at h
      obtain ⟨_, v, hSuspend, h⟩ := run_bind_eq_ok.mp h
      exact (conclusion_of_finish h).2 (clear_of_suspend hSuspend)
    · rw [if_neg hEnding] at h
      exact absurd ((conclusion_of_finish h).1.symm.trans hStop) hEnding
  obtain ⟨ended, u, -, h⟩ := run_bind_eq_ok.mp h
  cases ended with
  | ok ending => exact hEnd ending u h
  | error fault =>
    cases fault with
    | inconclusive cause =>
      by_cases hCause : cause.interrupted = true
      · dsimp only at h
        rw [if_pos hCause] at h
        exact hEnd (.interrupted, cause.message) u h
      · dsimp only at h
        rw [if_neg hCause] at h
        cases h
    | _ => cases h

/-! ## Going on -/

/-- Two searches are in the same state, and they and their sessions have asked the same queries up
to numbers since two others. -/
structure SameCourse (R : Nat → Nat → Prop) (declared : String → Prop)
    (s s' t t' : Session × Search) : Prop where
  state : t'.2.state = t.2.state
  asks : ∃ new new', t.1.prover.asks = new ++ s.1.prover.asks ∧
    t'.1.prover.asks = new' ++ s'.1.prover.asks ∧ List.Forall₂ (AskAlike R declared) new new'

/-- Two runs that began in two states end alike: with results that say the same, or with the same
error, up to numbers. -/
inductive EndAlike (R : Nat → Nat → Prop) (declared : String → Prop) (s s' : Session × Search) :
    EStateM.Result Error (Session × Search) SearchResult →
    EStateM.Result Error (Session × Search) SearchResult → Prop
  | ok {r r' : SearchResult} {t t' : Session × Search} (hResult : r.Alike r')
      (hCourse : SameCourse R declared s s' t t') : EndAlike R declared s s' (.ok r t) (.ok r' t')
  | error {e e' : Error} {t t' : Session × Search} (hError : e.Alike R e')
      (hCourse : SameCourse R declared s s' t t') :
      EndAlike R declared s s' (.error e t) (.error e' t')

theorem restoreFrom_eq_ok (source : String) {state : SearchState}
    (hFrames : 2 ≤ state.frames.length) (hDistinct : state.Distinct) (session : Session)
    (f : Search) :
    ∃ log, restoreFrom source (.ok state) (session, f) =
        .ok () ({ session with prover := { session.prover with log } }, { f with state }) ∧
      log.disk.directories = session.prover.log.disk.directories := by
  -- the lines that are logged change no directory
  have hLogged : ∀ g g' : Log → Log, Log.Calm g → Log.Calm g' → ∃ log, (do
      WorkM.logging g
      change fun _ => state
      WorkM.logging g' : SearchM Unit) (session, f) =
        .ok () ({ session with prover := { session.prover with log } }, { f with state }) ∧
      log.disk.directories = session.prover.log.disk.directories :=
    fun g g' hg hg' => ⟨g' (g session.prover.log), rfl, (hg' _).trans (hg _)⟩
  have hCount : ¬ state.frames.length = 1 := by omega
  obtain ⟨log, hRun, hLog⟩ := hLogged _ _ (Log.calm_entry .checkpoints fun _ =>
    loadedLine source state) (Log.calm_progress fun _ =>
      "Restored " ++ toString state.frames.length ++ " frames, " ++ toString state.log.length ++
        " predicates and " ++ toString state.obligations.length ++ " obligations\n")
  refine ⟨log, Eq.trans ?_ hRun, hLog⟩
  have hRestore : restoreFrom source (.ok state) = (do
      WorkM.logging fun log => log.entry .checkpoints fun _ => loadedLine source state
      restore state) := rfl
  rw [hRestore]
  unfold restore
  rw [if_neg hCount, normalize_of_nodup hDistinct.frames hDistinct.log]

/-- A session that has gone through something since its start, without a request to stop, and one
of the same program that has just started are twins, if their answers to come are alike. Constants
from before the start are shared, and those made since are shifted. -/
theorem twins_of_start {options : ProverOptions} {script script' : Script} {heeds : Bool}
    {log log' : Log} {s s' t : Session}
    (hStart : start p label (.start options script heeds log) = .ok () s)
    (hStart' : start p label (.start options script' heeds log') = .ok () s')
    (hProgram : t.program = s.program) (hLabel : t.label = s.label)
    (hSteady : s.prover.Steady 0 t.prover) (hInterrupted : t.prover.interrupted = false)
    (hStop : t.prover.stopRequested = false) (hCanceled : t.prover.canceled = false)
    (hDisk : log'.disk.directories = t.prover.log.disk.directories)
    (hScript : t.prover.script.Alike (Renumbering.Shifted s.prover.fresh t.prover.fresh) (p.Calls
      label) script') :
    Session.Twins (.shift s.prover.fresh t.prover.fresh hSteady.fresh) p label t s' := by
  obtain ⟨-, terms, hTerms, hs⟩ := Session.eq_of_start hStart
  obtain ⟨-, terms', hTerms', hs'⟩ := Session.eq_of_start hStart'
  -- both sessions asserted the same at their start
  obtain ⟨rfl, hFresh⟩ : terms = terms' ∧ s.prover.fresh = s'.prover.fresh := by
    have hSame := hTerms.symm.trans hTerms'
    injection hSame with hTerms hFresh
    exact ⟨hTerms, hFresh⟩
  have hForce : t.prover.inForce = [terms.reverse] := by
    have hSame : t.prover.inForce = s.prover.inForce := hSteady.outer
    rw [hSame, hs.inForce_base rfl]
    simp [Prover.start]
  have hForce' : s'.prover.inForce = [terms.reverse] := by
    rw [hs'.inForce_base rfl]
    simp [Prover.start]
  refine ⟨hProgram.trans hs.program, hLabel.trans hs.label, hs'.program, hs'.label, ?_⟩
  refine ⟨?_, ?_, ?_, ?_, ?_, fun j => Or.inr ⟨j, rfl, by rw [hFresh]⟩, ?_, ?_, ?_, ?_⟩
  · rw [hs'.idle.options, hSteady.options, hs.idle.options]
    rfl
  · rw [hs'.idle.heeds, hSteady.heeds, hs.idle.heeds]
    rfl
  · rw [hs'.idle.interrupted, hInterrupted]
    rfl
  · rw [hs'.idle.canceled, hCanceled]
    rfl
  · rw [hs'.idle.stopRequested, hStop]
    rfl
  · rw [hForce, hForce']
    exact .cons (List.rel_reverse (standing_alike hTerms fun k hk => Or.inl ⟨hk, rfl⟩)) .nil
  · rw [hs'.idle.script]
    exact hScript
  · rw [hs'.idle.solver, hSteady.solver, hs.idle.solver]
    exact fun _ => .none
  · rw [hs'.idle.directories]
    exact hDisk

/-- **Going on from a checkpoint is going on.** Let a search be interrupted, after whatever it and
its session went through, in a state that can be read back as it was. Then a session of the same
program can be started and the state be restored there, and from then on both searches ask the same
queries and end alike, in the same state. This is up to the numbering of fresh constants, and if
they get the same answers. -/
theorem run_restored {p : Program} {label : String} {options : ProverOptions}
    {script script' : Script} {heeds : Bool} {log log' : Log} {s : Session}
    {searching : SearchOptions} {f : Search} {past a : Session × Search} {r : SearchResult}
    {fuel : Nat} {source : String}
    (hStart : start p label (.start options script heeds log) = .ok () s)
    (hNew : Search.new p searching = .ok f) (hPast : History (s, f) past)
    (hRun : run fuel past = .ok r a) (hInterrupted : r.conclusion = .interrupted)
    (hFrames : 2 ≤ a.2.state.frames.length) (hCanceled : a.1.prover.canceled = false)
    (hStored : read p source (render p a.2.state) = .ok a.2.state)
    (hDisk : log'.disk.directories = a.1.prover.log.disk.directories)
    (hScript : a.1.prover.script.Alike (Renumbering.Shifted s.prover.fresh a.1.prover.fresh)
      (p.Calls label) script') :
    ∃ s' b, start p label (.start options script' heeds log') = .ok () s' ∧
      restoreFrom source (read p source (render p a.2.state)) (s', f) =
        .ok () b ∧
      ∀ fuel', EndAlike (Renumbering.Shifted s.prover.fresh a.1.prover.fresh) (p.Calls label) a b
        (run fuel' a) (run fuel' b) := by
  obtain ⟨s', hStart'⟩ := Session.start_again hStart (.start options script' heeds log') rfl
  have hHistory := hPast.run fuel
  rw [hRun] at hHistory
  obtain ⟨hProgram, hLabel, hSteady, hOwn⟩ := hHistory.keeps (twins_of_new hNew)
  have hClear := clear_of_interrupted hRun hInterrupted
  have hTwins := twins_of_start hStart hStart' hProgram hLabel hSteady hClear.1 hClear.2 hCanceled
    hDisk hScript
  obtain ⟨restored, hRestore, hDirectories⟩ :=
    restoreFrom_eq_ok source hFrames hOwn.distinct s' f
  refine ⟨s', _, hStart', hStored ▸ hRestore, fun fuel' => ?_⟩
  -- restoring writes to the log, and changes nothing else in the session
  have hSame : s'.prover.Same { s'.prover with log := restored } :=
    ⟨⟨rfl, rfl, rfl, rfl, rfl, rfl, rfl, hDirectories, rfl⟩, rfl, rfl, rfl, rfl⟩
  have hSessions : Session.Twins (.shift s.prover.fresh a.1.prover.fresh hSteady.fresh) p label a.1
      { s' with prover := { s'.prover with log := restored } } :=
    ⟨hTwins.program, hTwins.labeled, hTwins.program', hTwins.labeled',
      hTwins.prover.of_same (.refl _) hSame⟩
  have hSearches : Twins f a.2 { f with state := a.2.state } :=
    ⟨hOwn.options, hOwn.safety, hOwn.properties, hOwn.cores, rfl, rfl, rfl, rfl, rfl, hOwn.distinct⟩
  have hEnds := run_twins fuel' a ({ s' with prover := { s'.prover with log := restored } },
    { f with state := a.2.state }) ⟨hSessions, hSearches⟩
  revert hEnds
  generalize run fuel' a = ending
  generalize run fuel' _ = ending'
  intro hEnds
  cases ending <;> cases ending'
  · obtain ⟨ht, hLeads, hAlike⟩ := hEnds
    exact .ok hAlike ⟨ht.2.state, hLeads.asks⟩
  · exact hEnds.elim
  · exact hEnds.elim
  · obtain ⟨ht, hLeads, hAlike⟩ := hEnds
    exact .error hAlike ⟨ht.2.state, hLeads.asks⟩

theorem History.requestStop (h : History first s) :
    History first (left (proving Prover.requestStop s.1), s.2) := by
  have hStop : ∃ q, Prover.requestStop s.1.prover = .ok () q ∧ s.1.prover.Steady 0 q := by
    unfold Prover.requestStop Prover.interrupt
    dsimp only [bind, EStateM.bind, modify, modifyGet, MonadStateOf.modifyGet, EStateM.modifyGet,
      get, getThe, MonadStateOf.get, EStateM.get]
    cases s.1.prover.checking <;> exact ⟨_, rfl, rfl, rfl, rfl, rfl, Nat.le_refl _, rfl, rfl⟩
  obtain ⟨q, hRun, hSteady⟩ := hStop
  have hProving : proving Prover.requestStop s.1 = .ok () { s.1 with prover := q } :=
    proving_eq_ok.mpr ⟨q, hRun, rfl⟩
  rw [hProving]
  exact h.meanwhile rfl rfl hSteady

/-- The answers about a fragile lamp: it does not break within a step that is looked at first; then
those by which a search finds out that it does. -/
def laterAnswers : List Answer := ⟨.unsat none, false⟩ :: worksAnswers

/-- A session about the fragile lamp that was used for a bounded check. -/
def checkedSession : Session :=
  left (findViolation (.not (.id "broken")) 1 (fragileSession laterAnswers))

/-- The search for a lamp that works, where it is asked to stop. -/
def stoppedSearch : Session × Search :=
  let s := left (restore pendingState
    (checkedSession, fragileSearch "works" (.not (.id "broken"))))
  (left (proving Prover.requestStop s.1), s.2)

theorem history_stoppedSearch :
    History (fragileSession laterAnswers, fragileSearch "works" (.not (.id "broken")))
      stoppedSearch := by
  have hAlone := (findViolation_twins (.not (.id "broken")) 1 :
    (pairing .same _ _ 0).Even _).alone (fragileSession laterAnswers).twins_self
  have hChecked : History (fragileSession laterAnswers, fragileSearch "works" (.not (.id "broken")))
      (checkedSession, fragileSearch "works" (.not (.id "broken"))) :=
    .meanwhile .start hAlone.1.program hAlone.1.labeled hAlone.2.left
  exact (hChecked.restore pendingState).requestStop

theorem alike_breaking (R : Nat → Nat → Prop) (declared : String → Prop) :
    breaking.Alike R declared breaking := by
  have hNone : ∀ base k, breaking.tables.lookup (freshName base k) = none := by
    intro base k
    have hMark : '!' ∈ (freshName base k).toList := by simp [freshName]
    have hNe : ∀ name : String, '!' ∉ name.toList → (freshName base k == name) = false :=
      fun name h => beq_false_of_ne fun hEq => h (hEq ▸ hMark)
    simp only [breaking, List.lookup_cons, hNe "s0_broken" (by decide +kernel),
      hNe "s1_broken" (by decide +kernel), List.lookup_nil]
  exact ⟨rfl, rfl, fun _ _ => rfl, fun base k k' _ => by rw [hNone, hNone]⟩

theorem alike_worksAnswers (R : Nat → Nat → Prop) (declared : String → Prop) :
    Script.Alike R declared ⟨worksAnswers, none⟩ ⟨worksAnswers, none⟩ :=
  ⟨.cons ⟨.unsat none, rfl⟩ (.cons ⟨.sat (alike_breaking R declared), rfl⟩
    (.cons ⟨.sat (alike_breaking R declared), rfl⟩ .nil)), .none⟩

/-- The search where it has stopped. -/
def pausedSearch : Session × Search := left (run 9 stoppedSearch)

theorem paused_spec : pausedSearch.2.state = pendingState ∧
    conclusion? 9 stoppedSearch = some .interrupted ∧
    conclusion? 9 pausedSearch = some (.disproved worksCounterexample) ∧
    pausedSearch.1.prover.canceled = false ∧ (fragileSession laterAnswers).prover.fresh = 0 ∧
    pausedSearch.1.prover.fresh = 2 ∧
    pausedSearch.1.prover.log.disk.directories = (Log.new .empty).disk.directories ∧
    pausedSearch.1.prover.script = ⟨worksAnswers, none⟩ := by
  decide +kernel

theorem read_pendingState :
    read fragile "saved" (render fragile pendingState) =
      .ok pendingState := by
  decide +kernel

/-- The search for a lamp that works ends alike, whether it goes on or is restored: the lamp
breaks. -/
theorem run_restored_pausedSearch :
    conclusion? 9 stoppedSearch = some .interrupted ∧
      conclusion? 9 pausedSearch = some (.disproved worksCounterexample) ∧
      ∃ s' b, start fragile "" (.start .standard ⟨worksAnswers, none⟩ true (.new .empty)) =
          .ok () s' ∧
        restoreFrom "saved" (read fragile "saved"
          (render fragile pausedSearch.2.state))
          (s', fragileSearch "works" (.not (.id "broken"))) = .ok () b ∧
        EndAlike (Renumbering.Shifted 0 2) (fragile.Calls "") pausedSearch b (run 9 pausedSearch)
          (run 9 b) := by
  obtain ⟨hState, hInterrupted, hDisproved, hCanceled, hFirst, hFresh, hDisk, hScript⟩ :=
    paused_spec
  obtain ⟨r, hRun, hConclusion⟩ : ∃ r, run 9 stoppedSearch = .ok r pausedSearch ∧
      r.conclusion = .interrupted := exists_result hInterrupted
  have hAlike : pausedSearch.1.prover.script.Alike
      (Renumbering.Shifted (fragileSession laterAnswers).prover.fresh pausedSearch.1.prover.fresh)
      (fragile.Calls "") ⟨worksAnswers, none⟩ := by
    rw [hScript]
    exact alike_worksAnswers _ _
  have hNew : Search.new fragile
      { SearchOptions.standard with useCores := false, safetyName := "works" } =
        .ok (fragileSearch "works" (.not (.id "broken"))) := rfl
  have hFrames : 2 ≤ pausedSearch.2.state.frames.length := by
    rw [hState]
    decide
  have hStored : read fragile "saved" (render fragile pausedSearch.2.state) =
      .ok pausedSearch.2.state := by
    rw [hState]
    exact read_pendingState
  have hRestored := run_restored (start_fragile laterAnswers) hNew history_stoppedSearch hRun
    hConclusion hFrames hCanceled hStored hDisk.symm hAlike
  rw [hFirst, hFresh] at hRestored
  obtain ⟨s', b, hStart, hRestore, hEnds⟩ := hRestored
  exact ⟨hInterrupted, hDisproved, s', b, hStart, hRestore, hEnds 9⟩

end Search

end InvariantSearch
