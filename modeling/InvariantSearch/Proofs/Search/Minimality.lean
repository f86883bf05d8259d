import InvariantSearch.Proofs.Search.Predecessors
import InvariantSearch.Proofs.Search.Shrinking
import InvariantSearch.Proofs.Search.Soundness

/-!
# Diagrams that cannot be generalized further

Generalizing drops literals of a diagram that has no predecessor. No literal of the result
can be dropped as well, unless an answer was not true.

* `CoreLoop` — keeping to cores, with no bound on the rounds.
* `TrueAnswer` — an answer settles its query, and is right.

Main results: `coreLoop_keepToCores` and `generalize_sound_and_minimal`.
-/

namespace InvariantSearch

open Discipline Search List

theorem Diagram.Thins.literals {d small : Diagram} (h : small.Thins d) :
    small.conjuncts.map (fun c => (c.kind, c.formula)) =
      d.conjuncts.map fun c => (c.kind, c.formula) := by
  obtain ⟨test, rfl⟩ := h
  refine ext_getElem? fun i => ?_
  rw [getElem?_map, getElem?_map, getElem?_keepWhere]
  cases d.conjuncts[i]? <;> rfl

namespace Generalizer

open WorkM

/-! ## Rounds of the core loop -/

section CoreLoop

variable {frame : Formula} {context : String} {d : Diagram} {s : Session × Generalizer}

/-- One round of keeping to cores: what is left, or nothing if the cores cover all there is. -/
def coreRound (frame : Formula) (context : String) (d : Diagram) :
    WorkM Generalizer (Option Diagram) := do
  let answer ← predecessor frame d context ⟨false, true⟩
  if answer.predecessor.isSome then throw (.hasPredecessor context d)
  let reduced := d.restrictTo answer.core
  let dropped := d.enabled.length - reduced.enabled.length
  count fun s => { s with coreDrops := s.coreDrops + dropped }
  logging fun log => log.entry .generalization fun _ =>
    "Unsat cores of " ++ context ++ " cover " ++ toString answer.core.length ++
      " conjuncts, dropped " ++ toString dropped ++ "\n"
  return if dropped = 0 then none else some reduced

/-- Round after round, until the cores cover all that is left or a round fails. -/
inductive CoreLoop (frame : Formula) (context : String) :
    Diagram → Session × Generalizer → EStateM.Result Error (Session × Generalizer) Diagram → Prop
  | stop {d : Diagram} {s t : Session × Generalizer}
      (h : coreRound frame context d s = .ok none t) : CoreLoop frame context d s (.ok d t)
  | again {d reduced : Diagram} {s t : Session × Generalizer}
      {result : EStateM.Result Error (Session × Generalizer) Diagram}
      (h : coreRound frame context d s = .ok (some reduced) t)
      (hNext : CoreLoop frame context reduced t result) : CoreLoop frame context d s result
  | fail {d : Diagram} {s t : Session × Generalizer} {error : Error}
      (h : coreRound frame context d s = .error error t) : CoreLoop frame context d s (.error error t)

theorem keepToCores_succ (rounds : Nat) :
    keepToCores frame context (rounds + 1) d = (do
      match ← coreRound frame context d with
      | none => return d
      | some reduced => keepToCores frame context rounds reduced) := by
  rw [keepToCores, coreRound]
  simp only [bind_assoc]
  refine congrArg _ (funext fun answer => ?_)
  split
  · rfl
  · simp only [pure_bind, bind_assoc]
    refine congrArg _ (funext fun _ => congrArg _ (funext fun _ => ?_))
    split <;> rfl

theorem length_enabled_of_coreRound {reduced : Diagram} {t : Session × Generalizer}
    (h : coreRound frame context d s = .ok (some reduced) t) :
    reduced.enabled.length < d.enabled.length := by
  obtain ⟨answer, u, -, h⟩ := run_bind_eq_ok.mp h
  split at h
  · obtain ⟨_, _, hThrow, -⟩ := run_bind_eq_ok.mp h
    cases hThrow
  · obtain ⟨_, v, -, h⟩ := run_bind_eq_ok.mp h
    obtain ⟨_, w, -, h⟩ := run_bind_eq_ok.mp h
    obtain ⟨hReduced, -⟩ := run_pure_eq_ok.mp h
    split at hReduced
    · cases hReduced
    · rename_i hDropped
      cases hReduced
      omega

/-- **Keeping to cores ends**, whatever the solver says: with as many rounds as there are
literals, and one more, the bound on the rounds makes no difference. -/
theorem coreLoop_keepToCores (rounds : Nat) (hRounds : d.enabled.length < rounds) :
    CoreLoop frame context d s (keepToCores frame context rounds d s) := by
  induction rounds generalizing d s with
  | zero => omega
  | succ rounds ih =>
    rw [keepToCores_succ]
    change CoreLoop frame context d s (EStateM.bind _ _ s)
    unfold EStateM.bind
    cases hRound : coreRound frame context d s with
    | error error t => exact .fail hRound
    | ok next t =>
      cases next with
      | none => exact .stop hRound
      | some reduced =>
        have hLess := length_enabled_of_coreRound hRound
        exact .again hRound (ih (by omega))

end CoreLoop

end Generalizer

/-! ## True answers -/

/-- An answer settles its query, and is right about what the query asks. -/
def TrueAnswer (p : Program) (ask : Query × Option Answer) : Prop :=
  ∃ verdict, ask.2 = some ⟨verdict, false⟩ ∧ verdict.outcome ≠ .unknown ∧
    ask.1.question.Truthful p verdict

theorem TrueAnswer.decisive {p : Program} {ask : Query × Option Answer} (h : TrueAnswer p ask) :
    Decisive ask := by
  obtain ⟨verdict, hVerdict, hOutcome, -⟩ := h
  exact ⟨verdict, hVerdict, hOutcome⟩

namespace Generalizer

variable {p : Program} {frame : Formula} {context : String} {d : Diagram}

/-- **Generalizing is sound, and its results are minimal.** Keeping to cores ends, whatever the
solver says. Where the solver decides every query and is right, a diagram without predecessors is
generalized without an error: variables and literals are the same, some that were on are off, there
still is no predecessor, and there would be one if any other literal was off. -/
theorem generalize_sound_and_minimal (hChecked : p.checkAll = .ok ())
    (hVars : ∀ x ∈ d.vars, p.hasSort x.sort = true)
    (hConjuncts : ∀ c ∈ d.conjuncts,
      p.check (Formula.thereIs d.vars c.formula) .singleState = .ok ())
    (hFrame : p.check frame .singleState = .ok ()) {s : Session × Generalizer}
    (hProgram : s.1.program = p)
    (hReady : s.1.prover.interrupted = false ∧ s.1.prover.canceled = false) :
    (∀ (d : Diagram) (s : Session × Generalizer), CoreLoop frame context d s
      (keepToCores frame context (d.enabled.length + 1) d s)) ∧
    ((∀ ask ∈ s.1.prover.asksSince (left (generalize d frame context s)).1.prover,
        TrueAnswer p ask) → ¬ d.HasPredecessor p frame →
      ∃ small t, generalize d frame context s = .ok small t ∧ small.vars = d.vars ∧
        small.conjuncts.map (fun c => (c.kind, c.formula)) =
          d.conjuncts.map (fun c => (c.kind, c.formula)) ∧
        (∀ i, small.isEnabled i = true → d.isEnabled i = true) ∧
        ¬ small.HasPredecessor p frame ∧
        ∀ i, small.isEnabled i = true → (small.switch i false).HasPredecessor p frame) := by
  refine ⟨fun d s => coreLoop_keepToCores _ (Nat.lt_succ_self _), fun hTrue hFree => ?_⟩
  let T : Trust := .since s.1.prover.asks (TrueAnswer p) TrueAnswer.decisive
  have hJudges : Judges T ⟨p, s.1.label, stepKeys 2⟩ frame (fun _ d' => d'.vars = d.vars)
      fun way d => ¬ d.HasPredecessorBy p frame way := by
    refine judges_of_truthful (fun hSame => hSame ▸ hVars) fun _ _ _ hTells => ?_
    obtain ⟨interrupts, verdict, hVerdict, -, hTruthful⟩ := hTells
    cases hVerdict
    exact hTruthful
  have hResolves := (Program.check_eq_ok hFrame).resolves (by simp)
  obtain ⟨small, t, hRun, ⟨hThins, hSmall⟩, hKept⟩ := WorkM.exists_of_kept (T := T) trivial
    (fun _ h => h) (generalize_ensures hJudges (fun _ => Program.checked_of_checkAll hChecked)
      (fun _ => hResolves) ⟨hProgram, rfl, Trust.sound_since rfl hReady,
        fun _ => Diagram.resolves_of_check hVars hConjuncts, rfl⟩
      fun _ => not_hasPredecessor_iff.mp hFree) (Trust.kept_since rfl hTrue)
  obtain ⟨hSmallFree, hNeeded⟩ := hSmall hKept
  refine ⟨small, t, hRun, hThins.vars, hThins.literals, fun _ hi => hThins.isEnabled hi,
    not_hasPredecessor_iff.mpr hSmallFree, fun i hi => not_not.mp fun hNone => ?_⟩
  exact hNeeded trivial i hi (not_hasPredecessor_iff.mp hNone)

/-- A broken lamp, in a state in which something holds that always does. -/
def brokenLamp : Diagram :=
  ⟨[], [⟨.relation, true, .id "broken"⟩, ⟨.relation, true, .bool true⟩]⟩

/-- The answers about a broken lamp: by the first literal it is not reached from lamps that work,
neither at first nor when the other one is dropped, but there is a step into some state. -/
def brokenLampVerdicts : List Verdict :=
  [.unsat (some [0]), .unsat (some [0]), .unsat (some [0]), .unsat (some [0]), .sat .empty]

/-- That the lamp is broken is all that counts. -/
theorem generalize_sound_and_minimal_lamp :
    let s := (sessionOf lamp brokenLampVerdicts, Generalizer.new true)
    ∃ small t, generalize brokenLamp (.not (.id "broken")) "a lamp" s = .ok small t ∧
      small.isEnabled 0 = true ∧ small.isEnabled 1 = false ∧
      ¬ small.HasPredecessor lamp (.not (.id "broken")) ∧
      (small.switch 0 false).HasPredecessor lamp (.not (.id "broken")) := by
  intro s
  have hBreaks : ∀ {way : Option Transition} {d : Diagram} {core : Option (List Nat)},
      way ∈ ways lamp → .id "broken" ∈ d.coreLiterals core → d.vars = [] →
      ¬ (Question.predecessor "a lamp" (.not (.id "broken")) d way).HasModel lamp core := by
    rintro way d core hWay hIn hVars ⟨D, -, σ, τ, -, -, hσ, hGoes, hτ⟩
    rw [hVars] at hτ
    exact not_broken_of_goes hWay hGoes hσ (hτ _ hIn)
  have hAsks : (s.1.prover.asksSince (left (generalize brokenLamp (.not (.id "broken")) "a lamp"
      s)).1.prover).map (fun ask => (ask.1.question, ask.2)) =
      [(.predecessor "a lamp" (.not (.id "broken")) (brokenLamp.keepWhere fun _ => false) none,
          some ⟨.sat .empty, false⟩),
        (.predecessor "a lamp" (.not (.id "broken")) (brokenLamp.restrictTo [0])
          (some ⟨"use", [], .empty, .bool true⟩), some ⟨.unsat (some [0]), false⟩),
        (.predecessor "a lamp" (.not (.id "broken")) (brokenLamp.restrictTo [0]) none,
          some ⟨.unsat (some [0]), false⟩),
        (.predecessor "a lamp" (.not (.id "broken")) brokenLamp
          (some ⟨"use", [], .empty, .bool true⟩), some ⟨.unsat (some [0]), false⟩),
        (.predecessor "a lamp" (.not (.id "broken")) brokenLamp none,
          some ⟨.unsat (some [0]), false⟩)] := by
    decide +kernel
  have hUse : some ⟨"use", [], .empty, .bool true⟩ ∈ ways lamp := by decide
  have hTrue : ∀ ask ∈ s.1.prover.asksSince (left (generalize brokenLamp (.not (.id "broken"))
      "a lamp" s)).1.prover, TrueAnswer lamp ask := by
    intro ask hAsk
    have hIn := mem_map_of_mem (f := fun ask => (ask.1.question, ask.2)) hAsk
    rw [hAsks] at hIn
    obtain ⟨⟨question, assertions, assumptions⟩, answer⟩ := ask
    simp only [mem_cons, Prod.mk.injEq, not_mem_nil, or_false] at hIn
    rcases hIn with ⟨rfl, rfl⟩ | ⟨rfl, rfl⟩ | ⟨rfl, rfl⟩ | ⟨rfl, rfl⟩ | ⟨rfl, rfl⟩
    · refine ⟨_, rfl, by decide, noElements, inhabits_noElements,
        lampState _ false, lampState _ false, isState_lampState _ _,
        isState_lampState _ _, works_lampState _, .refl _ _, fun f hf => ?_⟩
      simp [Diagram.coreLiterals, Diagram.enabled, Diagram.keepWhere, brokenLamp] at hf
    · exact ⟨_, rfl, by decide, hBreaks hUse (by decide) rfl⟩
    · exact ⟨_, rfl, by decide, hBreaks mem_cons_self (by decide) rfl⟩
    · exact ⟨_, rfl, by decide, hBreaks hUse (by decide) rfl⟩
    · exact ⟨_, rfl, by decide, hBreaks mem_cons_self (by decide) rfl⟩
  have hFree : ¬ brokenLamp.HasPredecessor lamp (.not (.id "broken")) := by
    rintro ⟨way, hWay, hLeads⟩
    have hIn : .id "broken" ∈ brokenLamp.coreLiterals none := by decide
    exact hBreaks hWay hIn rfl
      ((Diagram.hasPredecessorBy_iff (fun x hx => by cases hx) "a lamp").mp hLeads)
  have hFrame : lamp.check (.not (.id "broken")) .singleState = .ok () := by decide +kernel
  obtain ⟨small, t, hRun, -, -, -, hSmall, hNeeded⟩ := (generalize_sound_and_minimal
    (d := brokenLamp) (by decide +kernel) (fun x hx => by cases hx) (by decide +kernel) hFrame rfl
    ⟨rfl, rfl⟩).2 hTrue hFree
  obtain ⟨small', t', hRun', hOn, hOff⟩ : ∃ small t,
      generalize brokenLamp (.not (.id "broken")) "a lamp" s = .ok small t ∧
        small.isEnabled 0 = true ∧ small.isEnabled 1 = false := by
    decide +kernel
  obtain ⟨rfl, rfl⟩ := EStateM.Result.ok.inj (hRun.symm.trans hRun')
  exact ⟨small, t, hRun, hOn, hOff, hSmall, hNeeded 0 hOn⟩

/-- **A variable of a sort that is not declared cannot be bound.** Where a diagram has one and no
literals, all of these can be checked, and nothing leads from no states into it, but generalizing
fails before anything is asked. -/
theorem generalize_fails_on_unknown_sort :
    let d : Diagram := ⟨[⟨"X", "ghost"⟩], []⟩
    let s := (sessionOf lamp [], Generalizer.new true)
    lamp.checkAll = .ok () ∧ (∀ c ∈ d.conjuncts,
      lamp.check (Formula.thereIs d.vars c.formula) .singleState = .ok ()) ∧
    ¬ d.HasPredecessor lamp (.bool false) ∧
    ∃ t, generalize d (.bool false) "a ghost" s = .error (.encoding (.unknownSort "ghost")) t ∧
      s.1.prover.asksSince t.1.prover = [] := by
  intro d s
  refine ⟨by decide +kernel, fun c hc => (by cases hc), ?_, by decide +kernel⟩
  rintro ⟨way, -, D, -, σ, τ, -, -, hFrame, -⟩
  exact Bool.false_ne_true (Formula.holds_bool.mp hFrame)

end Generalizer

end InvariantSearch
