import InvariantSearch.Proofs.Meaning.Question
import InvariantSearch.Proofs.Search.Generalization

/-!
# Predecessors of diagrams

* `Diagram.HasPredecessor` — a state of a frame leads into a diagram, in one step.

Main result: `Generalizer.judges_of_truthful`. Where verdicts are right about what their questions
ask, answers about predecessors tell which ways lead into a diagram.
-/

namespace InvariantSearch

open List

/-! ## Predecessors of diagrams -/

namespace Diagram

variable {p : Program} {frame : Formula} {d : Diagram} {way : Option Transition}

/-- A state of a frame leads, by a way, to a state in which a diagram holds. -/
def HasPredecessorBy (p : Program) (frame : Formula) (d : Diagram) (way : Option Transition) :
    Prop :=
  ∃ D : Domain, D.Inhabits p ∧ ∃ s t : State D, IsState p s ∧ IsState p t ∧ frame.HoldsIn s ∧
    Goes p way s t ∧ d.toFormula.HoldsIn t

/-- A state of a frame leads to a state in which a diagram holds, by stuttering or by a
transition. -/
def HasPredecessor (p : Program) (frame : Formula) (d : Diagram) : Prop :=
  ∃ way ∈ Generalizer.ways p, d.HasPredecessorBy p frame way

theorem hasPredecessorBy_iff (hVars : ∀ x ∈ d.vars, p.hasSort x.sort = true) (context : String) :
    d.HasPredecessorBy p frame way ↔
      (Question.predecessor context frame d way).HasModel p none := by
  have hFormula : ∀ {D : Domain} (t : State D), D.Inhabits p →
      (d.toFormula.HoldsIn t ↔ ExistsOf d.vars (d.Matches t) .empty) := fun t hD =>
    holdsIn_toFormula fun x hx => hD x.sort (by simpa [Program.hasSort] using hVars x hx)
  constructor
  · rintro ⟨D, hD, s, t, hs, ht, hFrame, hGoes, hHolds⟩
    exact ⟨D, hD, s, t, hs, ht, hFrame, hGoes, (hFormula t hD).mp hHolds⟩
  · rintro ⟨D, hD, s, t, hs, ht, hFrame, hGoes, hHolds⟩
    exact ⟨D, hD, s, t, hs, ht, hFrame, hGoes, (hFormula t hD).mpr hHolds⟩

theorem not_hasPredecessorBy_keepWhere (hVars : ∀ x ∈ d.vars, p.hasSort x.sort = true)
    {context : String} {core : Option (List Nat)} {positions : List Nat}
    (hCore : ¬ (Question.predecessor context frame d way).HasModel p core)
    (hCovers : d.Covers core positions) {test : Nat → Bool}
    (hTest : ∀ i ∈ positions, test i = true) :
    ¬ (d.keepWhere test).HasPredecessorBy p frame way := by
  have hSmall : ∀ x ∈ (d.keepWhere test).vars, p.hasSort x.sort = true := hVars
  rw [hasPredecessorBy_iff hSmall context]
  rintro ⟨D, hD, s, t, hs, ht, hFrame, hGoes, hHolds⟩
  refine hCore ⟨D, hD, s, t, hs, ht, hFrame, hGoes, .mono (fun v hv => ?_) hHolds⟩
  intro f hf
  obtain ⟨i, hi, c, hc, hOn, rfl⟩ := hCovers f hf
  exact hv _ (mem_map.mpr ⟨_, mem_enabled_keepWhere hc hOn (hTest i hi), rfl⟩)

/-- **With fewer literals there are more predecessors.** -/
theorem Thins.hasPredecessorBy {small : Diagram} (h : small.Thins d)
    (hd : d.HasPredecessorBy p frame way) : small.HasPredecessorBy p frame way := by
  obtain ⟨D, hD, s, t, hs, ht, hFrame, hGoes, hHolds⟩ := hd
  exact ⟨D, hD, s, t, hs, ht, hFrame, hGoes, h.holdsIn_toFormula hHolds⟩

end Diagram

namespace Generalizer

variable {T : Trust} {p : Program} {label : String} {frame : Formula}
  {Fit : List (List Term) → Diagram → Prop}

/-- **True verdicts tell whether a way leads into a diagram**, and into what a core leaves of it. -/
theorem judges_of_truthful
    (hVars : ∀ {inForce d}, Fit inForce d → ∀ x ∈ d.vars, p.hasSort x.sort = true)
    (hTrue : ∀ {way inForce d context query terms definitions v}, Fit inForce d → way ∈ ways p →
      Asks ⟨p, label, stepKeys 2⟩ inForce frame d context way query terms definitions →
        T.Tells query v → query.question.Truthful p v) :
    Judges T ⟨p, label, stepKeys 2⟩ frame Fit fun way d => ¬ d.HasPredecessorBy p frame way where
  mono hThins hFree hd := hFree (hThins.hasPredecessorBy hd)
  found := by
    intro way inForce d context query terms definitions m _ hFit hWay hAsks hTells
    have hModel := hTrue hFit hWay hAsks hTells
    rw [hAsks.query_eq] at hModel
    exact not_not_intro ((Diagram.hasPredecessorBy_iff (hVars hFit) context).mpr hModel)
  free := by
    intro way inForce d context query terms definitions core positions test hFit hWay hAsks hTells
      hCovers hTest
    have hNone := hTrue hFit hWay hAsks hTells
    rw [hAsks.query_eq] at hNone
    exact Diagram.not_hasPredecessorBy_keepWhere (hVars hFit) hNone hCovers hTest

theorem not_hasPredecessor_iff {d : Diagram} :
    ¬ d.HasPredecessor p frame ↔ ∀ way ∈ ways p, ¬ d.HasPredecessorBy p frame way := by
  simp only [Diagram.HasPredecessor, not_exists, not_and]

end Generalizer

end InvariantSearch
