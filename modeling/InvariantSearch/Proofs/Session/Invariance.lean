import InvariantSearch.Proofs.Search.Soundness
import InvariantSearch.Proofs.Session.Verification

/-!
# Verified invariants

Each invariant of a program is checked on its own: that it holds initially, and that every
transition leads into it from states in which all invariants hold. No single check shows
that its invariant is kept. Together they do, by one induction along a course of states
with the conjunction of all invariants.

Main result: `Session.invariants_hold`.
-/

namespace InvariantSearch

open Discipline

open List hiding get modify

open Search (lamp sessionOf noElements inhabits_noElements truthful_lampRecord)

namespace Session

variable {p : Program} {label : String} {s t : Session}

/-- What is asked about an invariant: whether it fails initially, and whether one of some transitions
leads out of it from states of an assumption. -/
def AsksAbout (assumption : Formula) (rs : List Transition) (i : Invariant)
    (question : Question) : Prop :=
  question = .initiation i.formula ∨ ∃ r ∈ rs, question = .consecution assumption i.formula r

theorem verifyInvariant_noting (assumption : Formula) (rs : List Transition) (i : Invariant)
    (h : s.Poised p label) :
    noting.Ensures (verifyInvariant assumption rs i) s fun failures t => t.Poised p label ∧
      (failures = [] → ∀ question, AsksAbout assumption rs i question →
        t.Refutes p label question) := by
  refine (violatesInitiation_noting h _).bind fun initiation u _ hu => ?_
  refine (consecutions_noting hu.1 _ _).bind fun consecution v huv hv => ensures_pure ⟨hv.1, ?_⟩
  intro hNone
  obtain ⟨hFirst, hSteps⟩ := append_eq_nil_iff.mp hNone
  rintro _ (rfl | ⟨r, hr, rfl⟩)
  · exact (hu.2 (eq_none_of_failureOf hFirst)).of_recordedIn huv.recordedIn
  · exact hv.2 hSteps r hr

/-- Some invariants are verified one after another, and it is logged how many failures there are. -/
def verifying (assumption : Formula) (rs : List Transition) (invariants : List Invariant) :
    SessionM (List Failure) := do
  let failures ← invariants.mapM (verifyInvariant assumption rs)
  let failures := failures.flatten
  logging fun log => log.progress fun _ =>
    "Checked " ++ toString invariants.length ++ " invariants, " ++ toString failures.length ++
      " failures\n"
  return failures

/-- Names that there are all choose something, and then what they choose is verified, with all
invariants for an assumption. -/
theorem verifyInvariants_eq {invariants transitions : NameSet}
    (hInvariants : ∀ name ∈ invariants.toList, ∃ i ∈ s.program.invariants, i.name = name)
    (hTransitions : ∀ name ∈ transitions.toList, (s.program.transition? name).isSome = true) :
    verifyInvariants invariants transitions s =
      verifying (.conj (s.program.invariants.map (·.formula)))
        (chosen transitions Transition.name s.program.transitions)
        (chosen invariants (·.name) s.program.invariants) s := by
  have hKnown : (invariants.toList.find? fun name =>
      s.program.invariants.all fun i => i.name != name) = none := by
    simpa [find?_eq_none] using hInvariants
  have hKnown' : (transitions.toList.find? fun name =>
      (s.program.transition? name).isNone) = none := by
    simpa [find?_eq_none, ← Option.isSome_iff_ne_none] using hTransitions
  have hGet : ∀ f : Session → SessionM (List Failure), (get >>= f) s = f s s := fun _ => rfl
  rw [verifyInvariants, hGet, hKnown]
  dsimp only
  rw [hKnown']
  rfl

/-- Without names to choose from, all invariants and all transitions count. -/
theorem verifyInvariants_empty (s : Session) :
    verifyInvariants .empty .empty s =
      verifying (.conj (s.program.invariants.map (·.formula))) s.program.transitions
        s.program.invariants s := by
  have hAll : ∀ {α : Type} (name : α → String) (items : List α),
      chosen .empty name items = items := by
    intro α name items
    simp [chosen, NameSet.isEmpty, NameSet.empty]
  rw [verifyInvariants_eq (by simp [NameSet.empty]) (by simp [NameSet.empty]), hAll, hAll]

/-- **What is refuted when a program has no failure**: that any of its invariants fails initially,
and that any of its transitions leads out of any of them while all of them hold. -/
theorem refutes_of_verifyInvariants (h : s.Poised p label)
    (hRun : verifyInvariants .empty .empty s = .ok [] t) :
    ∀ i ∈ p.invariants, ∀ question,
      AsksAbout (.conj (p.invariants.map (·.formula))) p.transitions i question →
        t.Refutes p label question := by
  rw [verifyInvariants_empty, h.program] at hRun
  have hVerified : noting.Ensures (verifying (.conj (p.invariants.map (·.formula))) p.transitions
      p.invariants) s fun failures t => failures = [] → ∀ i ∈ p.invariants, ∀ question,
        AsksAbout (.conj (p.invariants.map (·.formula))) p.transitions i question →
          t.Refutes p label question := by
    refine (checks_noting _ (fun i s hs => verifyInvariant_noting _ _ i hs) h _).bind
      fun failures u _ hu => ?_
    refine (logging_ensures _).bind fun _ v huv _ => ensures_pure ?_
    exact fun hNone i hi question hAsks =>
      (hu.2 hNone i hi question hAsks).of_recordedIn huv.recordedIn
  exact (hVerified.ok hRun).2 rfl

/-- **Verified invariants hold forever.** If a session of a program verifies all its invariants
without a failure, then each of them holds in every state of every course of the program, of any
length. All that is asked of the solver is that it denies no question that has a model, where its
query asserts what the question says. -/
theorem invariants_hold {options : ProverOptions} {script : Script} {heeds : Bool} {log : Log}
    (hStart : start p label (.start options script heeds log) = .ok () s)
    (hRun : verifyInvariants .empty .empty s = .ok [] t)
    (hTruthful : ∀ query answer core, (query, some answer) ∈ t.prover.asks →
      answer.verdict = .unsat core → query.Poses p label →
      query.question.Truthful p (.unsat core)) :
    ∀ i ∈ p.invariants, ∀ D : Domain, D.Inhabits p → ∀ (length : Nat) (σ : Nat → State D),
      IsCourse p length σ → ∀ k ≤ length, i.formula.HoldsIn (σ k) := by
  intro i hi D hD length σ hσ k hk
  have hImpossible : ∀ question, t.Refutes p label question →
      ∃ core, ¬ question.HasModel p core := by
    rintro _ ⟨query, answer, core, hAsk, hVerdict, rfl, hPoses⟩
    exact ⟨core, hTruthful query answer core hAsk hVerdict hPoses⟩
  have hRefuted := refutes_of_verifyInvariants (poised_of_start hStart) hRun
  -- the induction carries all invariants at once, since each check assumes them all
  have hTogether := (hσ.holdsIn (f := .conj (p.invariants.map (·.formula))) ?_ ?_ k hk).2
  · exact Formula.holds_conj.mp hTogether _ (mem_map_of_mem hi)
  · refine fun s hs => Formula.holds_conj.mpr (forall_mem_map.mpr fun j hj => ?_)
    by_contra hNot
    obtain ⟨_, hNone⟩ := hImpossible _ (hRefuted j hj _ (.inl rfl))
    exact hNone ⟨D, hD, s, hs, hNot⟩
  · refine fun r hr s u hs hu hBefore hTakes =>
      Formula.holds_conj.mpr (forall_mem_map.mpr fun j hj => ?_)
    by_contra hNot
    obtain ⟨_, hNone⟩ := hImpossible _ (hRefuted j hj _ (.inr ⟨r, hr, rfl⟩))
    exact hNone ⟨D, hD, s, u, hs, hu, hBefore, hTakes, hNot⟩

/-- A session about the lamp in which two questions are denied. -/
def lampSession : Session :=
  { sessionOf lamp [.unsat none, .unsat none] with encodings := [stepKeys 1] }

/-- The lamp is verified in a session that denies both questions about it, and so it never
breaks. -/
theorem invariants_hold_lamp :
    ∃ t, verifyInvariants .empty .empty lampSession = .ok [] t ∧
      ∀ (length : Nat) (σ : Nat → State noElements), IsCourse lamp length σ →
        ∀ k ≤ length, (Formula.not (.id "broken")).HoldsIn (σ k) := by
  obtain ⟨_, t, hRun, rfl, hQuestions⟩ : ∃ failures t,
      verifyInvariants .empty .empty lampSession = .ok failures t ∧ failures = [] ∧
        t.prover.asks.map (·.1.question) = [.consecution (.not (.id "broken"))
          (.not (.id "broken")) ⟨"use", [], .empty, .bool true⟩, .initiation (.not (.id "broken"))] := by
    decide +kernel
  refine ⟨t, hRun, ?_⟩
  refine invariants_hold (p := lamp) rfl hRun ?_ _ (mem_singleton.mpr rfl) _ inhabits_noElements
  intro query answer core hAsk _ _
  have hAsked := mem_map_of_mem (f := (·.1.question)) hAsk
  rw [hQuestions, mem_cons, mem_singleton] at hAsked
  rcases hAsked with hAsked | hAsked <;> dsimp only at hAsked <;> rw [hAsked]
  · exact truthful_lampRecord _ mem_cons_self
  · rintro ⟨D, -, σ, hσ, hNot⟩
    exact hNot hσ.initial

end Session

end InvariantSearch
