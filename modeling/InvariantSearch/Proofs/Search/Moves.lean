import InvariantSearch.Proofs.Search.Generalization
import InvariantSearch.Search.Basic

/-!
# The moves of a search

All that a search ever does to what it knows is one of a few moves, and each move
that adds knowledge rests on verdicts that were told.

* `Work` — the moves within an iteration: obligations come and go, predicates are
  learned and pushed. Frames keep their number and lose no predicate.
* `Move` — all moves; besides, frames are added and pruned, and iterations counted.
* `Steps` — several moves in a row. The number they carry counts the learned states,
  repetitions included.

What holds of a search is proved here once for each move, and then for all runs.
-/

namespace InvariantSearch

open List

variable {f : Formula} {fs : List Formula}

/-- The diagram of a state of a trace of the program. -/
def Diagram.Depicts (p : Program) (d : Diagram) : Prop :=
  ∃ t index simplify, t.Fits p ∧ Diagram.ofTrace p t index simplify = .ok d

/-- A move within an iteration. -/
inductive Work (told : Question → Verdict → Prop) (p : Program) :
    Nat → SearchState → SearchState → Prop
  /-- A state is to be excluded from a frame. -/
  | root {s : SearchState} {frame : Nat} {d : Diagram} {may : Bool}
      (hEmpty : s.obligations = []) (hFrame : frame < s.frames.length) (hd : d.Depicts p) :
      Work told p 0 s (s.pushObligation ⟨frame, d, "", Obligation.root, may⟩)
  /-- A predecessor of the top is to be excluded first. -/
  | descend {s : SearchState} {o : Obligation} {d : Diagram} {way : Option Transition}
      (hTop : s.obligations.getLast? = some o) (hFrame : o.frame ≠ 0)
      (hWay : way ∈ Generalizer.ways p) (hd : d.Depicts p) :
      Work told p 0 s (s.pushObligation
        ⟨o.frame - 1, d, wayName way, (s.obligations.length - 1 : Nat), o.may⟩)
  /-- What the top stands for has no predecessor, and is excluded. -/
  | learn {s : SearchState} {o : Obligation} {small : Diagram} {before : Formula}
      (hTop : s.obligations.getLast? = some o) (hFrame : o.frame ≠ 0)
      (hBefore : Search.frameFormula p s (o.frame - 1) = .ok before)
      (hSmall : small.Thins o.diagram) (hIsolated : Isolated told p before small) :
      Work told p 1 s (s.learn small.toPredicate o.frame)
  /-- Obligations are taken off the stack. -/
  | drop {s : SearchState} (count : Nat) :
      Work told p 0 s { s with obligations := s.obligations.take count }
  /-- A predicate of a frame is kept by all transitions, and goes on to the next frame. -/
  | push {s : SearchState} {predicate before : Formula} {index : Nat}
      (hBefore : Search.frameFormula p s index = .ok before)
      (hIn : s.frameHas index predicate = true)
      (hKept : ∀ r ∈ p.transitions, ∃ core, told (.consecution before predicate r) (.unsat core)) :
      Work told p 0 s (s.addToFrame predicate (index + 1))

/-- A move of a search. -/
inductive Move (told : Question → Verdict → Prop) (p : Program) :
    Nat → SearchState → SearchState → Prop
  | work {n : Nat} {s t : SearchState} (h : Work told p n s t) : Move told p n s t
  /-- The first two frames are made. -/
  | begin {s : SearchState} (hEmpty : s.frames = []) : Move told p 0 s s.addFrame.addFrame
  | addFrame {s : SearchState} (hSome : s.frames ≠ []) : Move told p 0 s s.addFrame
  | simplify {s : SearchState} : Move told p 0 s s.simplify
  | iterate {s : SearchState} : Move told p 0 s { s with iterations := s.iterations + 1 }

/-- Several moves in a row. -/
inductive Steps (R : Nat → SearchState → SearchState → Prop) :
    Nat → SearchState → SearchState → Prop
  | refl (s : SearchState) : Steps R 0 s s
  | step {n k : Nat} {s t u : SearchState} (h : Steps R n s t) (hStep : R k t u) :
      Steps R (n + k) s u

/-! ## Moves in a row -/

section Rows

variable {R : Nat → SearchState → SearchState → Prop} {told told' : Question → Verdict → Prop}
  {p : Program} {n k : Nat} {s t u : SearchState}

theorem Steps.single (h : R n s t) : Steps R n s t := by
  have h := (Steps.refl s).step h
  rwa [Nat.zero_add] at h

theorem Steps.trans (h : Steps R n s t) (h' : Steps R k t u) : Steps R (n + k) s u := by
  induction h' with
  | refl => exact h
  | step _ hStep ih =>
    rw [← Nat.add_assoc]
    exact (ih h).step hStep

theorem Steps.mono {R' : Nat → SearchState → SearchState → Prop} (h : Steps R n s t)
    (hMono : ∀ n s t, R n s t → R' n s t) : Steps R' n s t := by
  induction h with
  | refl => exact .refl _
  | step _ hStep ih => exact ih.step (hMono _ _ _ hStep)

theorem Steps.keeps {I : SearchState → Prop} (h : Steps R n s t)
    (hKeeps : ∀ n s t, R n s t → I s → I t) (hs : I s) : I t := by
  induction h with
  | refl => exact hs
  | step _ hStep ih => exact hKeeps _ _ _ hStep (ih hs)

theorem Work.mono (h : Work told p n s t) (hMono : ∀ q v, told q v → told' q v) :
    Work told' p n s t := by
  cases h with
  | root hEmpty hFrame hd => exact .root hEmpty hFrame hd
  | descend hTop hFrame hWay hd => exact .descend hTop hFrame hWay hd
  | learn hTop hFrame hBefore hSmall hIsolated =>
    exact .learn hTop hFrame hBefore hSmall (hIsolated.mono hMono)
  | drop count => exact .drop count
  | push hBefore hIn hKept =>
    exact .push hBefore hIn fun r hr => (hKept r hr).imp fun _ h => hMono _ _ h

theorem Move.mono (h : Move told p n s t) (hMono : ∀ q v, told q v → told' q v) :
    Move told' p n s t := by
  cases h with
  | work h => exact .work (h.mono hMono)
  | «begin» hEmpty => exact .begin hEmpty
  | addFrame hSome => exact .addFrame hSome
  | simplify => exact .simplify
  | iterate => exact .iterate

end Rows

/-! ## Frames during work -/

section Frames

variable {told : Question → Verdict → Prop} {p : Program} {n : Nat} {s t : SearchState}

theorem mem_insertNew {g : Formula} : g ∈ insertNew f fs ↔ g = f ∨ g ∈ fs := by
  unfold insertNew
  split
  · rename_i h
    rw [contains_iff_mem] at h
    exact ⟨Or.inr, fun hg => hg.elim (fun hEq => hEq ▸ h) fun hg => hg⟩
  · simp [or_comm]

theorem nodup_insertNew (h : fs.Nodup) : (insertNew f fs).Nodup := by
  unfold insertNew
  split
  · exact h
  · rename_i hNew
    rw [contains_iff_mem] at hNew
    exact nodup_append.mpr ⟨h, nodup_singleton f, fun g hg f' hf' hEq => by
      rw [mem_singleton.mp hf'] at hEq
      exact hNew (hEq ▸ hg)⟩

/-- Frames keep their number and lose no predicate. -/
def Gains (s t : SearchState) : Prop :=
  t.frames.length = s.frames.length ∧
    ∀ (i : Nat) (frame : List Formula), s.frames[i]? = some frame →
      ∃ more, t.frames[i]? = some more ∧ ∀ f ∈ frame, f ∈ more

theorem Gains.refl (s : SearchState) : Gains s s :=
  ⟨rfl, fun _ frame h => ⟨frame, h, fun _ hf => hf⟩⟩

theorem Gains.trans {u : SearchState} (h : Gains s t) (h' : Gains t u) : Gains s u := by
  refine ⟨h'.1.trans h.1, fun i frame hi => ?_⟩
  obtain ⟨more, hMore, hSubset⟩ := h.2 i frame hi
  obtain ⟨most, hMost, hSubset'⟩ := h'.2 i more hMore
  exact ⟨most, hMost, fun f hf => hSubset' f (hSubset f hf)⟩

theorem getElem?_learn (s : SearchState) (f : Formula) (index i : Nat) :
    (s.learn f index).frames[i]? =
      s.frames[i]?.map fun frame => if i ≤ index then insertNew f frame else frame :=
  getElem?_mapIdx

theorem getElem?_addToFrame (s : SearchState) (f : Formula) (index i : Nat) :
    (s.addToFrame f index).frames[i]? =
      s.frames[i]?.map fun frame => if index = i then insertNew f frame else frame := by
  rw [SearchState.addToFrame, getElem?_modify]
  rfl

theorem gains_learn (s : SearchState) (f : Formula) (index : Nat) : Gains s (s.learn f index) := by
  refine ⟨length_mapIdx, fun i frame hi => ⟨_, by rw [getElem?_learn, hi]; rfl, ?_⟩⟩
  intro g hg
  split
  · exact mem_insertNew.mpr (Or.inr hg)
  · exact hg

theorem gains_addToFrame (s : SearchState) (f : Formula) (index : Nat) :
    Gains s (s.addToFrame f index) := by
  refine ⟨length_modify _ _ _, fun i frame hi =>
    ⟨_, by rw [getElem?_addToFrame, hi]; rfl, ?_⟩⟩
  intro g hg
  split
  · exact mem_insertNew.mpr (Or.inr hg)
  · exact hg

theorem Gains.ne_nil (h : Gains s t) (hSome : s.frames ≠ []) : t.frames ≠ [] := by
  rw [← length_pos_iff] at hSome ⊢
  rw [h.1]
  exact hSome

theorem Gains.frameHas (h : Gains s t) {i : Nat} (hf : s.frameHas i f = true) :
    t.frameHas i f = true := by
  unfold SearchState.frameHas at hf ⊢
  cases hi : s.frames[i]? with
  | none => simp [hi] at hf
  | some frame =>
    obtain ⟨more, hMore, hSubset⟩ := h.2 i frame hi
    rw [hi, Option.getD_some, contains_iff_mem] at hf
    rw [hMore, Option.getD_some, contains_iff_mem]
    exact hSubset f hf

theorem length_siftFrames (frames : List (List Formula)) :
    (siftFrames frames).length = frames.length := by
  induction frames with
  | nil => rfl
  | cons frame frames ih => simp [siftFrames, ih]

theorem getElem?_siftFrames (frames : List (List Formula)) (i : Nat) :
    (siftFrames frames)[i]? =
      frames[i]?.map (siftFrame (((siftFrames frames)[i + 1]?).getD []) []) := by
  induction frames generalizing i with
  | nil => rfl
  | cons frame frames ih =>
    cases i with
    | zero => simp [siftFrames, head?_eq_getElem?]
    | succ i => simpa [siftFrames] using ih i

end Frames

end InvariantSearch
