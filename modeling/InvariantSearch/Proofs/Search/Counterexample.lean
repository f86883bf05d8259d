import InvariantSearch.Proofs.Search.Soundness

/-!
# Concrete counterexamples

A trace that a search gives as a counterexample is a run of the program into a
violation of safety, if the models that it was given are true.

Main result: `isRunOf_of_disproved`, whichever query the trace comes from: the first
one of all, the replay of a chain of obligations, or the search for any run of that
length.
-/

namespace InvariantSearch

open List

variable {options : SearchOptions}

namespace Search

variable {p : Program} {label : String} {session : Session} {search : Search}

theorem sorted_chosen (hChecked : p.Checked) (hNew : Search.new p options = .ok search) :
    ∀ property ∈ search.chosen, p.Sorted .singleState property := by
  obtain ⟨safety, hSafety, hNew⟩ := bind_eq_ok.mp hNew
  cases hNew
  have hSafety := hChecked.sorted_safety hSafety
  unfold chosen
  dsimp only
  intro property hProperty
  split at hProperty
  · split at hProperty
    · exact mem_singleton.mp hProperty ▸ hSafety
    · obtain ⟨i, hi, rfl⟩ := mem_map.mp hProperty
      exact hChecked.invariants i (mem_filter.mp hi).1
  · exact mem_singleton.mp hProperty ▸ hSafety

theorem sorted_safety (hChecked : p.Checked) (hNew : Search.new p options = .ok search) :
    p.Sorted .singleState search.safety := by
  rw [safety_eq_conj hNew]
  exact .conj (sorted_chosen hChecked hNew)

theorem Contradicts.exists_conj {f property : Formula} (h : Contradicts f property) :
    ∃ fs, f = Formula.conj fs ∧ Formula.not property ∈ fs := by
  obtain rfl | ⟨fs, rfl⟩ := h
  · exact ⟨[.not property], rfl, mem_singleton.mpr rfl⟩
  · exact ⟨_, rfl, mem_append_right _ (mem_singleton.mpr rfl)⟩

/-- **A concrete counterexample is real.** However often the search is interrupted, fails and is
run again: when it disproves safety by a trace, and all models satisfy what was asserted and
list whole universes, then the trace is a run of the program. It starts in an initial state,
every step goes as it is named, and safety does not hold in its last state. No transition may
be called a stutter. -/
theorem isRunOf_of_disproved (hDeclared : p.Declared)
    (hStutter : ∀ r ∈ p.transitions, r.name ≠ stutterName) {prover : ProverOptions}
    {script : Script} {heedsInterrupts : Bool} {log : Log}
    (hStart : Session.start p label (.start prover script heedsInterrupts log) = .ok () session)
    {options : SearchOptions} (hNew : Search.new p options = .ok search)
    {s t : Session × Search} (hCourse : Course (session, search) s) {fuel : Nat}
    {r : SearchResult} (hRun : run fuel s = .ok r t) {c : Counterexample}
    (hDisproved : r.conclusion = .disproved c) {trace : Trace} (hTrace : c.trace = some trace)
    (hFaithful : t.1.Faithful) :
    trace.IsRunOf p ∧ ¬ search.safety.HoldsIn (trace.meaning p trace.transitions.length) := by
  obtain ⟨rfl, rfl, hValidated, hBase⟩ := Session.assumes_of_start rfl hStart
  have hProper := Session.proper_of_validated hDeclared hValidated
  obtain ⟨hFollows, hConcluded⟩ := (run_follows fuel).ok hRun
  have hConcluded := hCourse.follows.concluded hFollows.session.recorded
    (hConcluded (by rw [hDisproved]; exact fun h => by cases h))
  rw [hDisproved] at hConcluded
  obtain ⟨_, hEq, hShown, -⟩ | ⟨n, before, index, -, -, -, hConclusion, -⟩ := hConcluded
  · cases hEq
    obtain ⟨constraints, names, f, hLast, hf, hShows⟩ := hShown trace hTrace
    have hContinues := (hCourse.follows.trans hFollows).session
    obtain ⟨hRunOf, hLength, hParts⟩ := hShows.isRunOf hFaithful hContinues.program
      hContinues.label hProper hBase hStutter
    refine ⟨hRunOf, ?_⟩
    obtain ⟨fs, rfl, hIn⟩ := hf.exists_conj
    rw [List.getLast?_eq_getElem?, ← hLength, Nat.add_sub_cancel] at hLast
    exact Formula.holds_not.mp
      (hParts _ fs hLast _ hIn (sorted_safety hProper.checked hNew).not)
  · cases hConclusion

/-- No node is lit. -/
def dark : Formula := .all [⟨"x", "node"⟩] (.not (.app "lit" [.id "x"]))

/-- Nodes that are dark at first and can be lit. -/
def beacon : Program :=
  { Program.empty with
    sorts := ["node"]
    symbols := [⟨"lit", .relation ["node"] none, true⟩]
    inits := [⟨"", dark⟩]
    transitions := [⟨"light", [⟨"x", "node"⟩], .ofList ["lit"], .new (.app "lit" [.id "x"])⟩]
    invariants := [⟨⟨"dark", dark⟩, true⟩]
    validated := true }

theorem beacon_declared : beacon.Declared := by
  have hSort := @Program.Declared.sort _ _ "node" .empty rfl
  have hSymbol := hSort.symbol (s := ⟨"lit", .relation ["node"] none, true⟩) rfl
  have hInit := hSymbol.initial (f := ⟨"", dark⟩) rfl
  have hTransition := hInit.transition (t := ⟨"light", [⟨"x", "node"⟩], .ofList ["lit"],
    .new (.app "lit" [.id "x"])⟩) rfl
  have hInvariant := hTransition.invariant (i := ⟨⟨"dark", dark⟩, true⟩) rfl
  exact hInvariant.validate rfl

/-- A model with one node, which is lit in some states. -/
def litModel (first second : Bool) : SolverModel :=
  ⟨[("node", 1)], [("s0_lit", ⟨[([0], .bool first)], none⟩),
    ("s1_lit", ⟨[([0], .bool second)], none⟩)]⟩

/-- The trace of the node that is lit. -/
def litTrace : Trace :=
  ⟨[("node", ["node0"])], [],
    [[⟨"lit", .relation, [(["node0"], "false")]⟩], [⟨"lit", .relation, [(["node0"], "true")]⟩]],
    ["light"]⟩

/-- The verdicts on the queries about the beacon: no node is lit at first, one may be lit in the
last frame, which is no stutter but a step from the darkness, and so there is a run. -/
def beaconVerdicts : List Verdict :=
  [.unsat none, .sat (litModel true true), .unsat none, .sat (litModel false true),
    .sat (litModel false true)]

/-- The session in which these verdicts are given. -/
def beaconSession : Session :=
  Discipline.left (Session.start beacon ""
    (.start .standard ⟨beaconVerdicts.map fun v => ⟨v, false⟩, none⟩ false (.new .empty)))

theorem start_beacon : Session.start beacon ""
    (.start .standard ⟨beaconVerdicts.map fun v => ⟨v, false⟩, none⟩ false (.new .empty)) =
      .ok () beaconSession := rfl

instance {P : Counterexample → Prop} [DecidablePred P] :
    (conclusion : Conclusion) → Decidable (∃ c, conclusion = .disproved c ∧ P c)
  | .disproved c => decidable_of_iff (P c) (by simp)
  | .proved _ _ | .interrupted => isFalse (by simp)

/-- The beacon's search ends with a run of one step, in which a node is lit. -/
theorem isRunOf_of_disproved_beacon :
    litTrace.IsRunOf beacon ∧ ¬ dark.HoldsIn (litTrace.meaning beacon 1) := by
  have hNew : Search.new beacon { SearchOptions.standard with useCores := false } =
      .ok (coreless dark) := rfl
  have hFaithful : (Discipline.left (run 9 (beaconSession, coreless dark))).1.Faithful := by
    decide +kernel
  obtain ⟨r, t, hRun, c, hDisproved, hTrace⟩ : ∃ r t, run 9 (beaconSession, coreless dark) =
      .ok r t ∧ ∃ c, r.conclusion = .disproved c ∧ c.trace = some litTrace := by
    decide +kernel
  rw [hRun] at hFaithful
  exact isRunOf_of_disproved beacon_declared (by decide) start_beacon hNew .fresh hRun hDisproved
    hTrace hFaithful

end Search

end InvariantSearch
