import InvariantSearch.Proofs.Meaning.Question
import InvariantSearch.Proofs.Search.Structure

/-!
# Frames approximate reachability

Frame `i` holds in all states that are reached in at most `i` steps. This rests on
verdicts that exclude states, and on nothing that a model shows.

* `Trusted` — all such verdicts that were told are right.
* `Approximates` — predicates are clauses over plain symbols, they hold initially, and
  each frame leads into the next one.

Main result: `Steps.approximates` — moves keep to this while verdicts are right.
-/

namespace InvariantSearch

open List SearchState Symbol

variable {frame : List Formula} {index : Nat}

/-- The verdicts that exclude states are right. -/
def Trusted (told : Question → Verdict → Prop) (p : Program) : Prop :=
  ∀ q core, q.isExclusion = true → told q (.unsat core) → q.Truthful p (.unsat core)

variable {p : Program} {D : Domain}

/-- A state meets the condition of a frame; for frame 0 it is initial besides. -/
def InFrame (p : Program) (index : Nat) (frame : List Formula) (σ : State D) : Prop :=
  (index = 0 → p.initial.HoldsIn σ) ∧ ∀ f ∈ frame, f.HoldsIn σ

theorem holdsIn_frame {σ : State D} :
    (Formula.conj (if index = 0 then p.initial :: frame else frame)).HoldsIn σ ↔
      InFrame p index frame σ := by
  unfold InFrame Formula.HoldsIn
  rw [Formula.holds_conj]
  split
  · rename_i h
    simp [h]
  · rename_i h
    simp [h]

/-- A frame meets with initial states and leads into the next frame. -/
structure Approximates (p : Program) (D : Domain) (s : SearchState) : Prop where
  named : ∀ (i : Nat) (frame : List Formula), s.frames[i]? = some frame →
    ∀ f ∈ frame, (Clause.ofFormula f).WellNamed p
  diagrams : ∀ o ∈ s.obligations, o.diagram.WellNamed p
  initial : ∀ (i : Nat) (frame : List Formula), s.frames[i]? = some frame →
    ∀ σ : State D, IsInitial p σ → ∀ f ∈ frame, f.HoldsIn σ
  step : ∀ (i : Nat) (frame next : List Formula), s.frames[i]? = some frame →
    s.frames[i + 1]? = some next → ∀ r ∈ p.transitions, ∀ σ τ : State D, IsState p σ →
      IsState p τ → Takes p r σ τ → InFrame p i frame σ → ∀ f ∈ next, f.HoldsIn τ

theorem approximates_empty (p : Program) (D : Domain) : Approximates p D .empty where
  named := by simp [empty]
  diagrams := by simp [empty]
  initial := by simp [empty]
  step := by simp [empty]

/-! ## What verdicts say about states -/

section Verdicts

variable {told : Question → Verdict → Prop} {states : Formula} {d : Diagram} {σ τ : State D}

/-- **No state leads into a diagram that is isolated from it.** -/
theorem Isolated.holdsIn_toPredicate (h : Isolated told p states d) (hTrusted : Trusted told p)
    (hD : D.Inhabits p) (hd : d.WellNamed p) (way : Option Transition)
    (hWay : way ∈ Generalizer.ways p) (hσ : IsState p σ) (hτ : IsState p τ)
    (hStates : states.HoldsIn σ) (hGoes : Goes p way σ τ) : d.toPredicate.HoldsIn τ := by
  rw [Diagram.holdsIn_toPredicate]
  intro hDiagram
  obtain ⟨context, d', core, hTold, hVars, hCore⟩ := h way hWay
  refine hTrusted _ core rfl hTold ⟨D, hD, σ, τ, hσ, hτ, hStates, hGoes, ?_⟩
  have hSorts : ∀ x ∈ d.vars, ∃ a, D.sort a = x.sort := by
    intro x hx
    obtain ⟨sort, hSort, i, rfl⟩ := hd.vars x hx
    exact hD sort hSort
  -- The literals of the core are literals of the diagram.
  rw [hVars]
  exact ((Diagram.holdsIn_toFormula hSorts).mp hDiagram).mono fun v hv f hf => hv f (hCore f hf)

theorem Stutters.holdsIn {f : Formula} (h : Stutters p σ τ)
    (hNamed : (Clause.ofFormula f).WellNamed p) (hf : f.HoldsIn σ) : f.HoldsIn τ := by
  refine (Formula.holdsIn_congr_state fun n hn => ?_).mp hf
  obtain ⟨x, hx, hDerived⟩ := hNamed.isPlain_of_uses hn
  have hName : x.name = n := by simpa using find?_some hx
  rw [← hName]
  exact h.same (mem_of_find?_eq_some hx) hDerived

end Verdicts

/-! ## Moves -/

section Moves

variable {told : Question → Verdict → Prop} {s t : SearchState} {n i : Nat} {before : Formula}
  {σ : State D}

namespace Approximates

/-- A predicate may be added to some frames if it holds initially, and after each step from
a frame before one of them. -/
theorem insert {f : Formula} {test : Nat → Prop} [DecidablePred test] (h : Approximates p D s)
    (hFrames : ∀ i : Nat, t.frames[i]? =
      s.frames[i]?.map fun frame => if test i then insertNew f frame else frame)
    (hStack : t.obligations = s.obligations) (hNamed : (Clause.ofFormula f).WellNamed p)
    (hInitial : ∀ σ : State D, IsInitial p σ → f.HoldsIn σ)
    (hStep : ∀ i frame, s.frames[i]? = some frame → test (i + 1) → ∀ r ∈ p.transitions,
      ∀ σ τ : State D, IsState p σ → IsState p τ → Takes p r σ τ → InFrame p i frame σ →
        f.HoldsIn τ) : Approximates p D t := by
  -- The members of a frame are old ones, or the new predicate where the test says so.
  have hMem : ∀ {i frame}, t.frames[i]? = some frame → ∃ old, s.frames[i]? = some old ∧
      (∀ g ∈ old, g ∈ frame) ∧ ∀ g ∈ frame, (test i ∧ g = f) ∨ g ∈ old := by
    intro i frame hFrame
    rw [hFrames] at hFrame
    obtain ⟨old, hOld, rfl⟩ := Option.map_eq_some_iff.mp hFrame
    refine ⟨old, hOld, ?_⟩
    split
    · rename_i hTest
      exact ⟨fun g hg => mem_insertNew.mpr (Or.inr hg), fun g hg =>
        (mem_insertNew.mp hg).imp_left fun hEq => ⟨hTest, hEq⟩⟩
    · exact ⟨fun g hg => hg, fun g hg => Or.inr hg⟩
  refine ⟨fun i frame hFrame g hg => ?_, hStack ▸ h.diagrams, fun i frame hFrame σ hσ g hg => ?_,
    fun i frame next hFrame hNext r hr σ τ hσ hτ hTakes hIn g hg => ?_⟩
  · obtain ⟨old, hOld, -, hNew⟩ := hMem hFrame
    rcases hNew g hg with ⟨-, rfl⟩ | hg
    · exact hNamed
    · exact h.named i old hOld g hg
  · obtain ⟨old, hOld, -, hNew⟩ := hMem hFrame
    rcases hNew g hg with ⟨-, rfl⟩ | hg
    · exact hInitial σ hσ
    · exact h.initial i old hOld σ hσ g hg
  · obtain ⟨old, hOld, hKept, -⟩ := hMem hFrame
    obtain ⟨oldNext, hOldNext, -, hNew⟩ := hMem hNext
    have hInOld : InFrame p i old σ := ⟨hIn.1, fun f hf => hIn.2 f (hKept f hf)⟩
    rcases hNew g hg with ⟨hTest, rfl⟩ | hg
    · exact hStep i old hOld hTest r hr σ τ hσ hτ hTakes hInOld
    · exact h.step i old oldNext hOld hOldNext r hr σ τ hσ hτ hTakes hInOld g hg

theorem learn (h : Approximates p D s) (hs : s.WellFormed p) (hTrusted : Trusted told p)
    (hD : D.Inhabits p) {small : Diagram}
    (hBefore : Search.frameFormula p s (index - 1) = .ok before) (hSmall : small.WellNamed p)
    (hIsolated : Isolated told p before small) :
    Approximates p D (s.learn small.toPredicate index) := by
  obtain ⟨last, hLast, rfl⟩ := Search.frameFormula_eq_ok hBefore
  refine h.insert (getElem?_learn s _ index) rfl hSmall.clause (fun σ hσ => ?_)
    fun i frame hFrame hTest r hr σ τ hσ hτ hTakes hIn => ?_
  · -- An initial state is its own predecessor, by stuttering.
    refine hIsolated.holdsIn_toPredicate hTrusted hD hSmall none mem_cons_self hσ.state
      hσ.state (holdsIn_frame.mpr ⟨fun _ => hσ.initial, ?_⟩) (.refl p σ)
    exact h.initial _ last hLast σ hσ
  · refine hIsolated.holdsIn_toPredicate hTrusted hD hSmall (some r)
      (mem_cons_of_mem _ (mem_map_of_mem hr)) hσ hτ (holdsIn_frame.mpr ⟨?_, ?_⟩) hTakes
    · exact fun hZero => hIn.1 (by omega)
    · exact fun f hf => hIn.2 f (hs.subset (by omega) hFrame hLast f hf)

theorem addToFrame (h : Approximates p D s) (hTrusted : Trusted told p) (hD : D.Inhabits p)
    {predicate : Formula} (hBefore : Search.frameFormula p s index = .ok before)
    (hIn : s.frameHas index predicate = true)
    (hKept : ∀ r ∈ p.transitions, ∃ core, told (.consecution before predicate r) (.unsat core)) :
    Approximates p D (s.addToFrame predicate (index + 1)) := by
  obtain ⟨source, hSource, rfl⟩ := Search.frameFormula_eq_ok hBefore
  obtain ⟨frame, hFrame, hPredicate⟩ := SearchState.WellFormed.mem_of_frameHas hIn
  refine h.insert (getElem?_addToFrame s _ _) rfl (h.named index frame hFrame _ hPredicate)
    (fun σ hσ => h.initial index frame hFrame σ hσ _ hPredicate)
    fun i frame' hFrame' hTest r hr σ τ hσ hτ hTakes hInFrame => ?_
  obtain rfl : index = i := by omega
  rw [hSource] at hFrame'
  obtain rfl := Option.some.inj hFrame'
  obtain ⟨core, hTold⟩ := hKept r hr
  by_contra hNot
  exact hTrusted _ core rfl hTold ⟨D, hD, σ, τ, hσ, hτ, holdsIn_frame.mpr hInFrame, hTakes, hNot⟩

theorem addFrame (h : Approximates p D s) : Approximates p D s.addFrame where
  named i frame hFrame f hf := by
    rcases mem_addFrame hFrame with hFrame | rfl
    · exact h.named i frame hFrame f hf
    · exact absurd hf not_mem_nil
  diagrams := h.diagrams
  initial i frame hFrame σ hσ f hf := by
    rcases mem_addFrame hFrame with hFrame | rfl
    · exact h.initial i frame hFrame σ hσ f hf
    · exact absurd hf not_mem_nil
  step i frame next hFrame hNext r hr σ τ hσ hτ hTakes hIn f hf := by
    rcases mem_addFrame hNext with hNext | rfl
    · have hi := (List.getElem?_eq_some_iff.mp hNext).1
      rw [SearchState.addFrame, List.getElem?_append_left (by omega)] at hFrame
      exact h.step i frame next hFrame hNext r hr σ τ hσ hτ hTakes hIn f hf
    · exact absurd hf not_mem_nil

theorem holdsIn_of_simplify (h : Approximates p D s) {old : List Formula}
    (hFrame : s.simplify.frames[i]? = some frame) (hOld : s.frames[i]? = some old)
    (hσ : ∀ f ∈ frame, f.HoldsIn σ) : ∀ f ∈ old, f.HoldsIn σ := by
  rw [simplify, getElem?_siftFrames, hOld, Option.map_some, Option.some.injEq] at hFrame
  subst hFrame
  exact holds_of_siftFrame (fun f hf => (h.named i old hOld f hf).closed) hσ

theorem simplify (h : Approximates p D s) : Approximates p D s.simplify where
  named i frame hFrame f hf := by
    obtain ⟨old, hOld, hSublist, -⟩ := sifted hFrame
    exact h.named i old hOld f (hSublist.subset hf)
  diagrams := h.diagrams
  initial i frame hFrame σ hσ f hf := by
    obtain ⟨old, hOld, hSublist, -⟩ := sifted hFrame
    exact h.initial i old hOld σ hσ f (hSublist.subset hf)
  step i frame next hFrame hNext r hr σ τ hσ hτ hTakes hIn f hf := by
    obtain ⟨old, hOld, -⟩ := sifted hFrame
    obtain ⟨oldNext, hOldNext, hSublist, -⟩ := sifted hNext
    exact h.step i old oldNext hOld hOldNext r hr σ τ hσ hτ hTakes
      ⟨hIn.1, h.holdsIn_of_simplify hFrame hOld hIn.2⟩ f (hSublist.subset hf)

/-- **What a frame says holds in all states that are reached within its steps.** -/
theorem holdsIn_of_reachable (h : Approximates p D s) (hs : s.WellFormed p)
    (hReachable : Reachable p i σ) (hFrame : s.frames[i]? = some frame) :
    ∀ f ∈ frame, f.HoldsIn σ := by
  induction hReachable generalizing frame with
  | initial hInitial => exact h.initial _ frame hFrame _ hInitial
  | @step i σ τ way hBefore hWay hτ hGoes ih =>
    have hi := (List.getElem?_eq_some_iff.mp hFrame).1
    have hSource : s.frames[i]? = some s.frames[i] := List.getElem?_eq_getElem _
    have hIn := ih hSource
    intro f hf
    cases way with
    | none =>
      -- A stutter keeps what the frame before has, and that is more.
      have hShrinks := hs.shrinks i _ frame hSource hFrame f hf
      exact Stutters.holdsIn hGoes (h.named _ frame hFrame f hf) (hIn f hShrinks)
    | some r =>
      have hr : r ∈ p.transitions := by simpa [Generalizer.ways] using hWay
      refine h.step i _ frame hSource hFrame r hr σ τ hBefore.state hτ hGoes ⟨?_, hIn⟩ f hf
      rintro rfl
      cases hBefore with
      | initial hInitial => exact hInitial.initial

end Approximates

theorem Diagram.Depicts.wellNamed {d : Diagram} (h : d.Depicts p)
    (hNames : (p.symbols.map name).Nodup) : d.WellNamed p := by
  obtain ⟨trace, index, simplify, hFits, hOf⟩ := h
  exact Diagram.wellNamed_ofTrace hNames hFits hOf

theorem Work.approximates (h : Work told p n s t) (hNames : (p.symbols.map name).Nodup)
    (hTrusted : Trusted told p) (hD : D.Inhabits p) (hs : s.WellFormed p)
    (hApprox : Approximates p D s) : Approximates p D t := by
  have hPush : ∀ o : Obligation, o.diagram.Depicts p →
      Approximates p D (s.pushObligation o) := by
    intro o ho
    refine { hApprox with diagrams := forall_mem_append.mpr ⟨hApprox.diagrams, ?_⟩ }
    exact forall_mem_singleton.mpr (ho.wellNamed hNames)
  cases h with
  | root hEmpty hFrame hd => exact hPush _ hd
  | descend hTop hFrame hWay hd => exact hPush _ hd
  | learn hTop hFrame hBefore hSmall hIsolated =>
    have hDiagram := hApprox.diagrams _ (mem_of_getLast? hTop)
    exact hApprox.learn hs hTrusted hD hBefore (hDiagram.of_thins hSmall) hIsolated
  | drop count =>
    exact { hApprox with diagrams := fun o ho => hApprox.diagrams o (mem_of_mem_take ho) }
  | push hBefore hIn hKept => exact hApprox.addToFrame hTrusted hD hBefore hIn hKept

theorem Move.approximates (h : Move told p n s t) (hNames : (p.symbols.map name).Nodup)
    (hTrusted : Trusted told p) (hD : D.Inhabits p) (hs : s.WellFormed p)
    (hApprox : Approximates p D s) : Approximates p D t := by
  cases h with
  | work h => exact h.approximates hNames hTrusted hD hs hApprox
  | «begin» => exact hApprox.addFrame.addFrame
  | addFrame => exact hApprox.addFrame
  | simplify => exact hApprox.simplify
  | iterate => exact { hApprox with }

/-- **Moves keep to the approximation of reachability while verdicts are right.** -/
theorem Steps.approximates (h : Steps (Move told p) n s t)
    (hNames : (p.symbols.map name).Nodup) (hTrusted : Trusted told p) (hD : D.Inhabits p)
    (hs : s.WellFormed p) (hApprox : Approximates p D s) : Approximates p D t := by
  have hBoth := h.keeps (I := fun u => u.WellFormed p ∧ Approximates p D u)
    (fun _ u v hMove hu =>
      ⟨hMove.wellFormed hu.1, hMove.approximates hNames hTrusted hD hu.1 hu.2⟩) ⟨hs, hApprox⟩
  exact hBoth.2

end Moves

end InvariantSearch
