import InvariantSearch.Proofs.Search.Generalization

/-!
# Dropping literals

Generalizing drops literals of a diagram that no way leads into, as long as none leads into what
is left.

* `Generalizer.Prepared` — a diagram can be asked about.
* `Generalizer.ToldBy` — a verdict on a question is among some answers.

Main results: `generalize_ensures`. No way leads into what is left, and each of its literals is
needed, by the judgement of the answers. `generalize_isolates` — by the record alone, what is left
of an isolated diagram is isolated.
-/

namespace InvariantSearch

open Discipline Diagram Trust

open List hiding get modify

/-! ## Diagrams with fewer literals -/

namespace Diagram

variable {p : Program} {d small : Diagram}

theorem isEnabled_keepWhere (d : Diagram) (test : Nat → Bool) (i : Nat) :
    (d.keepWhere test).isEnabled i = (d.isEnabled i && test i) := by
  rw [isEnabled, isEnabled, getElem?_keepWhere]
  cases d.conjuncts[i]? <;> rfl

theorem lt_length_of_isEnabled {i : Nat} (h : d.isEnabled i = true) : i < d.conjuncts.length := by
  by_contra hOut
  rw [isEnabled, getElem?_eq_none (Nat.not_lt.mp hOut)] at h
  cases h

theorem Thins.isEnabled (h : small.Thins d) {i : Nat} (hi : small.isEnabled i = true) :
    d.isEnabled i = true := by
  obtain ⟨test, rfl⟩ := h
  rw [isEnabled_keepWhere, Bool.and_eq_true] at hi
  exact hi.1

theorem Thins.switch (h : small.Thins d) (i : Nat) :
    (small.switch i false).Thins (d.switch i false) := by
  obtain ⟨test, rfl⟩ := h
  refine ⟨test, ?_⟩
  rw [switch_false, switch_false, keepWhere_keepWhere, keepWhere_keepWhere]
  exact congrArg d.keepWhere (funext fun j => Bool.and_comm _ _)

theorem thins_switch (d : Diagram) (i : Nat) : (d.switch i false).Thins d :=
  ⟨_, d.switch_false i⟩

theorem Thins.resolves (h : small.Thins d) (hd : d.Resolves p) : small.Resolves p := by
  refine ⟨fun x hx => hd.vars x (h.vars ▸ hx), fun c hc => ?_⟩
  obtain ⟨test, rfl⟩ := h
  obtain ⟨i, hi, rfl⟩ := mem_mapIdx.mp hc
  exact hd.conjuncts d.conjuncts[i] (getElem_mem hi)

end Diagram

namespace Generalizer

open WorkM

/-! ## Being free of predecessors -/

/-- A diagram can be asked about: names in it can be resolved, where that is relied on. -/
structure Prepared (T : Trust) (p : Program) (label : String) (vars : List Var)
    (s : Session × Generalizer) (d : Diagram) : Prop where
  program : s.1.program = p
  label : s.1.label = label
  sound : T.Sound s.1.prover
  resolves : T.Sure → d.Resolves p
  vars : d.vars = vars

section Shrinking

variable {T : Trust} {p : Program} {frame : Formula} {context : String} {d small : Diagram}
  {label : String} {vars : List Var} {Free : Option Transition → Diagram → Prop}
  {s t : Session × Generalizer}

theorem Prepared.later (h : Prepared T p label vars s d) (hst : T.Proceeds true s.1 t.1)
    (hThins : small.Thins d) : Prepared T p label vars t small :=
  ⟨hst.program.trans h.program, hst.label.trans h.label, hst.sound h.sound,
    fun hSure => hThins.resolves (h.resolves hSure), hThins.vars.trans h.vars⟩

/-- No way leads into a diagram. -/
def AllFree (p : Program) (Free : Option Transition → Diagram → Prop) (d : Diagram) : Prop :=
  ∀ way ∈ ways p, Free way d

variable (hJudges : Judges T ⟨p, label, stepKeys 2⟩ frame (fun _ d => d.vars = vars) Free)
  (hChecked : T.Sure → p.Checked) (hFrame : T.Sure → frame.Resolves p [])

include hJudges hChecked hFrame

theorem judge_ensures (hs : Prepared T p label vars s d) (core : Bool) :
    (T.onWork Generalizer).Ensures (predecessor frame d context ⟨false, core⟩) s fun answer t =>
      (T.Kept t.1.prover.asks → if answer.predecessor.isSome then T.Firm → ¬ AllFree p Free d else
        AllFree p Free d ∧ (core = true → ∀ test : Nat → Bool, (∀ i ∈ answer.core, test i = true) →
          AllFree p Free (d.keepWhere test))) ∧ t.2.useCores = s.2.useCores := by
  obtain ⟨hProgram, rfl, hSound, hResolves, hVars⟩ := hs
  refine (predecessor_ensures hProgram ⟨hChecked, hFrame, hResolves⟩ (fun _ h => by cases h)
    hSound).imp fun answer t _ ht => ?_
  obtain ⟨⟨positions, hSurveys, hCore⟩, hCores, -⟩ := ht
  refine ⟨fun hKept => ?_, hCores⟩
  obtain ⟨found, named⟩ := answer
  cases found with
  | some found =>
    intro hFirm hFree
    obtain ⟨before, way, after, hWays, -, hNot, -⟩ :=
      hSurveys.firstWay hJudges hVars hFirm hKept
    exact hNot (hFree way (hWays ▸ mem_append_right _ mem_cons_self))
  | none =>
    obtain ⟨hFree, hRest⟩ := hSurveys.free hJudges hVars hKept
    refine ⟨hFree, fun hWanted test hTest => (hRest hWanted).2 test fun i hi => hTest i ?_⟩
    -- a literal that is on has a position in range
    have hRange := lt_length_of_isEnabled ((hRest hWanted).1 i hi)
    rw [show named = _ from hCore]
    exact mem_filter.mpr ⟨mem_range.mpr hRange, contains_iff_mem.mpr hi⟩

/-! ## Keeping to cores -/

/-- What is left of a diagram is free, unless an answer is not as trusted. -/
theorem keepToCores_ensures (rounds : Nat) (hs : Prepared T p label vars s d)
    (hFree : T.Kept s.1.prover.asks → AllFree p Free d) :
    (T.onWork Generalizer).Ensures (keepToCores frame context rounds d) s fun small t =>
      small.Thins d ∧ (T.Kept t.1.prover.asks → AllFree p Free small) ∧
        t.2.useCores = s.2.useCores := by
  induction rounds generalizing s d with
  | zero => exact ensures_pure ⟨.refl d, hFree, rfl⟩
  | succ rounds ih =>
    refine (judge_ensures hJudges hChecked hFrame hs true).bind fun answer t hst ht => ?_
    obtain ⟨hAnswer, hCores⟩ := ht
    refine ensures_ite (fun hSome => ensures_throw (fails_of_answer rfl rfl
      fun hFirm hKept => ?_)) fun hNone => ?_
    · have hNot := hAnswer hKept
      rw [if_pos hSome] at hNot
      exact absurd (hFree (hst.kept hKept)) (hNot hFirm)
    refine (update_ensures _).bind fun _ u htu hu => ?_
    refine (logging_ensures _).bind fun _ v huv hv => ?_
    have htv := (T.onWork Generalizer).trans htu huv
    have hsv := (T.onWork Generalizer).trans hst htv
    have hLast : v.2.useCores = s.2.useCores := by rw [hv, hu.2, ← hCores]
    have hTest : T.Kept v.1.prover.asks → AllFree p Free d ∧ (true = true → ∀ test : Nat → Bool,
        (∀ i ∈ answer.core, test i = true) → AllFree p Free (d.keepWhere test)) := by
      intro hKept
      have hAll := hAnswer (htv.kept hKept)
      rwa [if_neg hNone] at hAll
    refine ensures_ite (fun _ => ensures_pure ⟨.refl d, fun hKept => (hTest hKept).1, hLast⟩)
      fun _ => ?_
    have hThins : (d.restrictTo answer.core).Thins d := ⟨_, rfl⟩
    refine (ih (hs.later hsv hThins) fun hKept => ?_).imp fun small w _ hw => ?_
    · exact (hTest hKept).2 rfl _ fun i hi => contains_iff_mem.mpr hi
    · exact ⟨hw.1.trans hThins, hw.2.1, hw.2.2.trans hLast⟩

/-! ## Dropping literals one by one -/

theorem dropLiteral_ensures (position : Nat) (hs : Prepared T p label vars s d)
    (hFree : T.Kept s.1.prover.asks → AllFree p Free d) :
    (T.onWork Generalizer).Ensures (dropLiteral frame context d position) s fun small t =>
      small.Thins d ∧ (T.Kept t.1.prover.asks → AllFree p Free small ∧
        (T.Firm → small.isEnabled position = true →
          ¬ AllFree p Free (small.switch position false))) := by
  refine ensures_ite (fun hOff => ensures_pure
    ⟨.refl d, fun hKept => ⟨hFree hKept, fun _ hOn => ?_⟩⟩) fun _ => ?_
  · rw [hOn] at hOff
    cases hOff
  refine ensures_own ?_
  have hThins := d.thins_switch position
  refine (judge_ensures hJudges hChecked hFrame (hs.later ((T.onSession true).refl _) hThins)
    _).bind fun answer u hsu hu => ?_
  obtain ⟨hAnswer, -⟩ := hu
  refine ensures_ite (fun hSome => ensures_pure ⟨.refl d, fun hKept => ?_⟩) fun hNone => ?_
  · have hNot := hAnswer hKept
    rw [if_pos hSome] at hNot
    exact ⟨hFree (hsu.kept hKept), fun hFirm _ => hNot hFirm⟩
  refine (update_ensures _).bind fun _ v huv hv => ?_
  refine (logging_ensures _).bind fun _ w hvw hw => ?_
  have huw := (T.onWork Generalizer).trans huv hvw
  -- the literal at the position is off from here on
  have hOff : ∀ test : Nat → Bool,
      ((d.switch position false).keepWhere test).isEnabled position = true → False := by
    intro test hOn
    rw [switch_false, isEnabled_keepWhere, isEnabled_keepWhere] at hOn
    simp at hOn
  refine ensures_ite (fun hCores => ?_) fun _ => ensures_pure ⟨hThins, fun hKept => ?_⟩
  · refine (update_ensures _).bind fun _ x hwx hx =>
      ensures_pure ⟨.trans ⟨_, rfl⟩ hThins, fun hKept => ⟨?_, fun _ hOn => (hOff _ hOn).elim⟩⟩
    have hAll := hAnswer (((T.onWork Generalizer).trans huw hwx).kept hKept)
    rw [if_neg hNone] at hAll
    refine hAll.2 hCores _ fun i hi => ?_
    rw [Bool.or_eq_true, contains_iff_mem]
    exact .inr hi
  · have hAll := hAnswer (huw.kept hKept)
    rw [if_neg hNone] at hAll
    refine ⟨hAll.1, fun _ hOn => (hOff (fun _ => true) ?_).elim⟩
    rwa [keepWhere_true]

/-- Literals are dropped one by one. One that is needed stays needed when more literals go. -/
theorem dropLiterals_ensures (positions : Nat) (hs : Prepared T p label vars s d)
    (hFree : T.Kept s.1.prover.asks → AllFree p Free d) :
    (T.onWork Generalizer).Ensures ((range positions).foldlM (dropLiteral frame context) d) s
      fun small t => small.Thins d ∧ (T.Kept t.1.prover.asks → AllFree p Free small ∧
        (T.Firm → ∀ i < positions, small.isEnabled i = true →
          ¬ AllFree p Free (small.switch i false))) := by
  induction positions with
  | zero => exact ensures_pure ⟨.refl d, fun hKept => ⟨hFree hKept, fun _ i hi => by omega⟩⟩
  | succ positions ih =>
    rw [range_succ, foldlM_append]
    refine ih.bind fun small t hst ht => ?_
    obtain ⟨hThins, hSmall⟩ := ht
    rw [foldlM_cons]
    refine (dropLiteral_ensures hJudges hChecked hFrame positions (hs.later hst hThins)
      fun hKept => (hSmall hKept).1).bind fun smaller u htu hu => ensures_pure ?_
    obtain ⟨hThins', hSmaller⟩ := hu
    refine ⟨hThins'.trans hThins, fun hKept => ⟨(hSmaller hKept).1, fun hFirm i hi hOn => ?_⟩⟩
    by_cases hLast : i = positions
    · subst hLast
      exact (hSmaller hKept).2 hFirm hOn
    · intro hFree'
      refine (hSmall (htu.kept hKept)).2 hFirm i (by omega) (hThins'.isEnabled hOn) ?_
      exact fun way hWay => hJudges.mono (hThins'.switch i) (hFree' way hWay)

/-- **What generalizing leaves is free, and each of its literals is needed**, unless an answer is
not as trusted. -/
theorem generalize_ensures (hs : Prepared T p label vars s d)
    (hFree : T.Kept s.1.prover.asks → AllFree p Free d) :
    (T.onWork Generalizer).Ensures (generalize d frame context) s fun small t =>
      small.Thins d ∧ (T.Kept t.1.prover.asks → AllFree p Free small ∧
        (T.Firm → ∀ i, small.isEnabled i = true → ¬ AllFree p Free (small.switch i false))) := by
  refine (update_ensures _).bind fun _ t hst ht => ensures_own ?_
  extract_lets useCores rest
  -- What is done after the cores, whether they are used or not.
  have hRest : ∀ kept v, T.Proceeds true s.1 v.1 → kept.Thins d →
      (T.Kept v.1.prover.asks → AllFree p Free kept) →
      (T.onWork Generalizer).Ensures (rest kept) v fun small t =>
        small.Thins d ∧ (T.Kept t.1.prover.asks → AllFree p Free small ∧
          (T.Firm → ∀ i, small.isEnabled i = true →
            ¬ AllFree p Free (small.switch i false))) := by
    intro kept v hsv hKept hFree
    refine (dropLiterals_ensures hJudges hChecked hFrame _ (hs.later hsv hKept) hFree).bind
      fun small w _ hw => ?_
    refine (update_ensures _).bind fun _ x hwx _ => ?_
    refine (logging_ensures _).bind fun _ y hxy _ => ensures_pure ?_
    obtain ⟨hThins, hSmall⟩ := hw
    refine ⟨hThins.trans hKept, fun hy => ?_⟩
    obtain ⟨hIs, hNeeded⟩ := hSmall (((T.onWork Generalizer).trans hwx hxy).kept hy)
    exact ⟨hIs, fun hFirm i hi => hNeeded hFirm i
      (lt_length_of_isEnabled (hThins.isEnabled hi)) hi⟩
  have hFirst : T.Kept t.1.prover.asks → AllFree p Free d := by
    rw [ht.1]
    exact hFree
  refine ensures_ite (fun _ => ?_) fun _ => hRest d t hst (.refl d) hFirst
  refine (keepToCores_ensures hJudges hChecked hFrame _ (hs.later hst (.refl d)) hFirst).bind
    fun kept v htv hv => ?_
  exact hRest kept v ((T.onWork Generalizer).trans hst htv) hv.1 hv.2.1

end Shrinking

/-! ## By the record -/

section Record

variable {final : List (Query × Option Answer)} {Sure : Prop} {limit : Nat} {p : Program}
  {label : String} {frame : Formula} {d : Diagram}

/-- A verdict on a question is among some answers. -/
def ToldBy (final : List (Query × Option Answer)) (question : Question) (verdict : Verdict) :
    Prop :=
  ∃ query interrupts, (query, some ⟨verdict, interrupts⟩) ∈ final ∧ query.question = question

theorem toldBy_asks (s : Session) (question : Question) (verdict : Verdict) :
    ToldBy s.prover.asks question verdict ↔ s.Told question verdict := by
  constructor
  · rintro ⟨query, interrupts, hIn, hQuestion⟩
    exact ⟨query, ⟨verdict, interrupts⟩, Prover.mem_asks.mp hIn, hQuestion, rfl⟩
  · rintro ⟨query, ⟨_, interrupts⟩, hRecorded, hQuestion, rfl⟩
    exact ⟨query, interrupts, Prover.mem_asks.mpr hRecorded, hQuestion⟩

theorem toldBy_of_kept {s : Session} (hKept : (recording final Sure limit).Kept s.prover.asks)
    {question : Question} {verdict : Verdict} (h : s.Told question verdict) :
    ToldBy final question verdict := by
  obtain ⟨query, interrupts, hIn, hQuestion⟩ := (toldBy_asks s question verdict).mpr h
  exact ⟨query, interrupts, hKept _ (append_nil _).symm _ hIn, hQuestion⟩

theorem judges_recording (vars : List Var) :
    Judges (.recording final Sure limit) ⟨p, label, stepKeys 2⟩ frame (fun _ d => d.vars = vars)
      fun way d => Unreached (ToldBy final) frame d way where
  mono hThins h := by
    obtain ⟨context, d', core, hTold, hVars, hCore⟩ := h
    exact ⟨context, d', core, hTold, hVars.trans hThins.vars,
      fun f hf => hThins.enabled_subset f (hCore f hf)⟩
  found hFirm := hFirm.elim
  free := by
    intro way inForce d context query terms definitions core positions test _ _ hAsks hTells
      hCovers hTest
    obtain ⟨interrupts, hGood⟩ := hTells
    exact hCovers.unreached ⟨query, interrupts, hGood, by rw [hAsks.query_eq]⟩ hTest

/-- **What generalizing leaves of an isolated diagram is isolated**, by the record. -/
theorem generalize_isolates {s : Session × Generalizer} {context : String}
    (h : Askable (.recording final Sure limit) s.1.program frame d)
    (hIsolated : Isolated s.1.Told s.1.program frame d) :
    ((recording final Sure limit).onWork Generalizer).Ensures (generalize d frame context) s
      fun small t => small.Thins d ∧ ((recording final Sure limit).Kept t.1.prover.asks →
        Isolated (ToldBy final) s.1.program frame small) := by
  refine (generalize_ensures (judges_recording d.vars) h.checked h.frame
    ⟨rfl, rfl, sound_recording _ _ _ _, h.diagram, rfl⟩ fun hKept => ?_).imp
      fun small t _ ht => ⟨ht.1, fun hKept => (ht.2 hKept).1⟩
  exact hIsolated.mono fun _ _ hTold => toldBy_of_kept hKept hTold

theorem Surveys.pictured {t : Session} {inForce : List (List Term)} {base : List Term}
    {context : String} {wanted : Wanted} {found : Predecessor} {core core' : List Nat}
    (h : Surveys (.recording t.prover.asks Sure limit) ⟨p, label, stepKeys 2⟩ inForce frame d context
      wanted (ways p) core ⟨some found, core'⟩ t) (hBase : ∀ u ∈ base, u ∈ inForce.flatten) :
    ∃ way ∈ ways p, found.transition = wayName way ∧
      (∃ m, t.Told (.predecessor context frame d way) (.sat m)) ∧
      (wanted.trace = true → found.trace ≠ none) ∧
      ∀ trace, found.trace = some trace → t.Pictures p label base 2 frame none trace := by
  obtain ⟨before, way, after, hWays, -, core, query, terms, definitions, hAsks, hName, hWanted,
    ⟨m, hTells⟩, hTrace⟩ := h
  obtain ⟨answer, hRecorded, hVerdict⟩ := exists_recorded hTells
  refine ⟨way, hWays ▸ mem_append_right _ mem_cons_self, hName,
    ⟨m, query, answer, hRecorded, by rw [hAsks.query_eq], hVerdict⟩, hWanted, fun trace hSome => ?_⟩
  obtain ⟨m', read, hRead, rfl, hVouched⟩ := hTrace trace hSome
  obtain ⟨hStep, hAre, rfl⟩ := hAsks
  refine ⟨m', _, read, hVouched.modelled, fun u hu => mem_append_right _ (hBase u hu),
    hAre.defines rfl fun u hu => ?_, ⟨terms.before, ?_, hStep.before⟩, fun _ hr => (by cases hr),
    hRead, _, rfl⟩
  · exact mem_append_left _ (mem_reverse.mpr (mem_append_left _ hu))
  · exact mem_append_left _ (mem_reverse.mpr (mem_append_right _ mem_cons_self))

end Record

end Generalizer

end InvariantSearch
