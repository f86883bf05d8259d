import InvariantSearch.Proofs.Checkpoint.RoundTrip
import InvariantSearch.Proofs.Program.RoundTrip
import InvariantSearch.Proofs.Search.Unwinding

/-!
# Names of steps

A step is known by the name of its transition, and two words stand among the names: one for
stuttering, and in checkpoints one for no transition. Nothing keeps a program from declaring a
transition that is called like one of them.

* `Session.AsksRun.exists_step` — how a query for a run constrains a step.
* `Checkpoint.Savable` — a state that is read back from its checkpoint, up to the names of steps.
* `Obligation.reread` — what becomes of the name of a step in a checkpoint.

Main result: `Search.uses_of_transition` says what the name of a declared transition stands for
in a query for a run, in the chain of a counterexample and in a checkpoint. It is the transition
in all of them, unless it is one of the two words.
-/

namespace InvariantSearch

/-! ## Queries for a run -/

namespace Session

/-- A step that is called like a declared transition is constrained by it, unless the name is the
word for stuttering. -/
theorem AsksRun.exists_step {p : Program} (hDeclared : p.Declared) {r : Transition}
    (hr : r ∈ p.transitions) {label : String} {keys : List String}
    {constraints : List (Option Formula)} {names : List String} {run : RunTerms}
    (h : AsksRun ⟨p, label, keys⟩ constraints names run) {i : Nat}
    (hi : names[i]? = some r.name) :
    ∃ t n n', t ∈ run.all ∧
      (if r.name = stutterName then Encoding.frameCondition ⟨p, label, keys⟩ .empty i
        else Encoding.transition ⟨p, label, keys⟩ r i) n = .ok t n' := by
  have hAt : (r.name, i) ∈ names.zipIdx := List.mem_zipIdx_iff_getElem?.mpr hi
  obtain ⟨step, hIn, hStep⟩ := exists_right_of_forall₂ h.steps hAt
  have hNone := hDeclared.nodup_transitions.2 r hr
  have hFound := hDeclared.transition?_eq_some hr
  have hAll : ∀ t ∈ step.terms, t ∈ run.all := fun t ht =>
    List.mem_cons_of_mem _ (List.mem_append_right _ (List.mem_flatMap.mpr ⟨step, hIn, ht⟩))
  generalize r.name = name at hStep hNone hFound ⊢
  cases hStep with
  | free => exact absurd rfl hNone
  | fixed hWay hTerm =>
    obtain ⟨n, n', hTerm⟩ := hTerm
    refine ⟨_, n, n', hAll _ List.mem_cons_self, ?_⟩
    -- the way is the one that the name stands for
    by_cases hStutter : name = stutterName
    · rw [Program.way?, if_pos hStutter] at hWay
      obtain rfl := Option.some.inj hWay
      rw [if_pos hStutter]
      exact hTerm
    · rw [Program.way?, if_neg hStutter, if_neg hNone, hFound] at hWay
      obtain rfl := Option.some.inj hWay
      rw [if_neg hStutter]
      exact hTerm

end Session

/-! ## Chains -/

namespace Search

/-- An obligation of a chain adds a step of its transition's name, unless that is the word for
stuttering or the chain ends. -/
theorem transitions_chainSteps_append (safety : Formula) (pending : List Formula)
    (before : List Obligation) (o : Obligation) {after : List Obligation} (hAfter : after ≠ []) :
    (chainSteps safety pending (before ++ o :: after)).2 =
      (before.map Obligation.transition).filter (fun name => name ≠ stutterName) ++
        ((if o.transition = stutterName then [] else [o.transition]) ++
          (chainSteps safety [] after).2) := by
  rw [transitions_chainSteps, transitions_chainSteps, List.dropLast_append_of_ne_nil (by simp),
    List.dropLast_cons_of_ne_nil hAfter, List.map_append, List.filter_append, List.map_cons,
    List.filter_cons]
  by_cases hStutter : o.transition = stutterName
  · simp [hStutter]
  · simp [hStutter]

end Search

/-! ## Checkpoints -/

/-- An obligation as it is read back: the word for no transition is no name. -/
def Obligation.reread (o : Obligation) : Obligation :=
  { o with transition := if o.transition = Checkpoint.noTransition then "" else o.transition }

/-- A state as it is read back. -/
def SearchState.reread (s : SearchState) : SearchState :=
  { s with obligations := s.obligations.map Obligation.reread }

namespace Checkpoint

/-- A state that is consistent, and whose formulas and numbers survive being written. Nothing is
said of the names of its steps. -/
structure Savable (p : Program) (s : SearchState) : Prop where
  consistent : Consistent p s
  log : ∀ f ∈ s.log, StorablePredicate p f
  frames : ∀ frame ∈ s.frames, ∀ f ∈ frame, StorablePredicate p f
  obligations : ∀ o ∈ s.obligations, StorableObligation p { o with transition := "" }

theorem renderObligation_reread (o : Obligation) :
    renderObligation o.reread = renderObligation o := by
  have hWord : (if (if o.transition = noTransition then "" else o.transition) = "" then noTransition
      else if o.transition = noTransition then "" else o.transition) =
        if o.transition = "" then noTransition else o.transition := by
    by_cases hNone : o.transition = noTransition
    · simp [hNone]
    · rw [if_neg hNone]
  unfold renderObligation Obligation.reread
  dsimp only
  rw [hWord]

theorem render_reread (p : Program) (s : SearchState) : render p s.reread = render p s := by
  have hMap : s.reread.obligations.map renderObligation = s.obligations.map renderObligation := by
    simp only [SearchState.reread, List.map_map, Function.comp_def, renderObligation_reread]
  unfold render
  rw [hMap]
  rfl

variable {p : Program} {s : SearchState}

theorem consistent_reread (h : Consistent p s) : Consistent p s.reread where
  frames := h.frames
  shrinks := h.shrinks
  frame _ ho := by
    obtain ⟨o, hIn, rfl⟩ := List.mem_map.mp ho
    exact h.frame o hIn
  parent i _ ho := by
    rw [SearchState.reread, List.getElem?_map, Option.map_eq_some_iff] at ho
    obtain ⟨o, ho, rfl⟩ := ho
    refine (h.parent i o ho).imp id ?_
    rintro ⟨j, above, hParent, hLt, hAbove, hRest⟩
    refine ⟨j, above.reread, hParent, hLt, ?_, hRest⟩
    rw [SearchState.reread, List.getElem?_map, hAbove]
    rfl
  transition _ ho := by
    obtain ⟨o, hIn, rfl⟩ := List.mem_map.mp ho
    rw [Obligation.reread]
    dsimp only
    split
    · exact Or.inl rfl
    · exact h.transition o hIn

theorem Consistent.isAtom_transition {text : String} (hRead : Program.read text = .ok p)
    (h : Consistent p s) {o : Obligation} (ho : o ∈ s.obligations) :
    o.transition = "" ∨ Sexpr.IsAtom o.transition := by
  rcases h.transition o ho with hEmpty | hStutter | hSome
  · exact Or.inl hEmpty
  · exact Or.inr (hStutter ▸ by decide)
  · obtain ⟨r, hr⟩ := Option.isSome_iff_exists.mp hSome
    have hMem : Program.Declaration.ofTransition r ∈ p.declared := by
      simp [Program.declared, List.mem_of_find?_eq_some hr]
    have hName : r.name = o.transition := by simpa using List.find?_some hr
    exact Or.inr (hName ▸ (Program.formed_of_read hRead _ hMem).spelt.1)

theorem Savable.storable_reread {text : String} (hRead : Program.read text = .ok p)
    (h : Savable p s) : Storable p s.reread where
  consistent := consistent_reread h.consistent
  log := h.log
  frames := h.frames
  obligations _ ho := by
    obtain ⟨o, hIn, rfl⟩ := List.mem_map.mp ho
    have hStorable := h.obligations o hIn
    refine { hStorable with transition := ?_, named := ?_ }
    · rw [Obligation.reread]
      dsimp only
      split
      · exact Or.inl rfl
      · exact h.consistent.isAtom_transition hRead hIn
    · rw [Obligation.reread]
      dsimp only
      split
      · decide
      · assumption

/-- **A state that is saved comes back**, but for steps that are called like no step. -/
theorem Savable.read_render {text : String} (hRead : Program.read text = .ok p) (h : Savable p s)
    (source : String) : read p source (render p s) = .ok s.reread := by
  rw [← render_reread]
  exact read_of_storable (h.storable_reread hRead) source

end Checkpoint

/-! ## Transitions and their names -/

namespace Search

/-- **What the name of a transition stands for.** For every transition of a program that was read,
a step of its name is constrained by the transition in each query for a run, an obligation that
it leads from adds a step of its name to the chain of a counterexample, and its name is read back
from checkpoints. There are two exceptions. A step that is called like stuttering is constrained
to stutter, and adds nothing to a chain. A step that is called like no transition has no name
when it is read back. -/
theorem uses_of_transition {text : String} {p : Program} (hRead : Program.read text = .ok p)
    {r : Transition} (hr : r ∈ p.transitions) :
    (∀ (s t : Session) (constraints : List (Option Formula)) (names : List String)
      (description : String) (found : Option Trace) (i : Nat), s.program = p →
      Session.findTrace constraints names description s = .ok found t → names[i]? = some r.name →
      ∃ query answer term n n', t.prover.Recorded query answer ∧
        query.question = .run description (Session.counted constraints) names ∧
        Prover.Settles found.isSome answer.verdict ∧ term ∈ query.assertions.flatten ∧
        (if r.name = stutterName then
          Encoding.frameCondition ⟨p, s.label, stepKeys (names.length + 1)⟩ .empty i
        else Encoding.transition ⟨p, s.label, stepKeys (names.length + 1)⟩ r i) n = .ok term n') ∧
    (∀ (safety : Formula) (before after : List Obligation) (o : Obligation),
      o.transition = r.name → after ≠ [] →
      (chainSteps safety [] (before ++ o :: after)).2 =
        (before.map Obligation.transition).filter (fun name => name ≠ stutterName) ++
          ((if r.name = stutterName then [] else [r.name]) ++ (chainSteps safety [] after).2)) ∧
    ∀ (s : SearchState) (source : String), Checkpoint.Savable p s →
      ∃ s', Checkpoint.read p source (Checkpoint.render p s) = .ok s' ∧
        ∀ (i : Nat) (o : Obligation), s.obligations[i]? = some o → o.transition = r.name →
          ∃ o', s'.obligations[i]? = some o' ∧
            o'.transition = if r.name = Checkpoint.noTransition then "" else r.name := by
  have hDeclared := Program.Declared.of_read hRead
  refine ⟨?_, ?_, ?_⟩
  · intro s t constraints names description found i hProgram hRun hName
    have hEnsures : ((Trust.recording [] False 0).onSession true).Ensures
        (Session.findTrace constraints names description) s _ :=
      Trust.ensures_recording fun final => Session.findTrace_ensures
        (Trust.sound_recording final False 0 s.prover) False.elim False.elim False.elim
        description False.elim
    obtain ⟨sighted, ⟨hFits, -, ts, terms, -, hAsks, hSighted⟩, hFound⟩ := (hEnsures.ok hRun).2
    rw [hProgram, ← hFits] at hAsks
    obtain ⟨term, n, n', hIn, hTerm⟩ := hAsks.exists_step hDeclared hr hName
    obtain ⟨answer, hRecorded, hSettles⟩ := hSighted.recorded
    have hSome : found.isSome = sighted.isSome := by
      cases sighted <;> cases found <;> simp_all
    exact ⟨_, answer, term, n, n', hRecorded, rfl, hSome ▸ hSettles, by simp [hIn], hTerm⟩
  · intro safety before after o hName hAfter
    rw [transitions_chainSteps_append safety [] before o hAfter, hName]
  · intro s source hSavable
    refine ⟨s.reread, hSavable.read_render hRead source, fun i o ho hName => ⟨o.reread, ?_, ?_⟩⟩
    · rw [SearchState.reread, List.getElem?_map, ho]
      rfl
    · rw [Obligation.reread, hName]

/-- The name of the only transition of the lamp room, in a chain and in a checkpoint. -/
theorem uses_of_transition_drop :
    let text := "(sort lamp) (relation broken (lamp) mutable) (transition drop () (mods broken) true)"
    let o : Obligation := ⟨0, ⟨[], []⟩, "drop", 0, true⟩
    Program.read text = .ok Checkpoint.lampRoom ∧
      (chainSteps (.bool true) [] [o, o]).2 = ["drop"] ∧
      ∃ s', Checkpoint.read Checkpoint.lampRoom "room"
          (Checkpoint.render Checkpoint.lampRoom Checkpoint.roomState) = .ok s' ∧
        ∃ o', s'.obligations[1]? = some o' ∧ o'.transition = "drop" := by
  intro text o
  have hRead : Program.read text = .ok Checkpoint.lampRoom := by decide +kernel
  have hStorable := Checkpoint.storable_roomState
  obtain ⟨-, hChain, hSaved⟩ :=
    uses_of_transition hRead (r := ⟨"drop", [], ⟨["broken"]⟩, .bool true⟩) List.mem_cons_self
  obtain ⟨s', hLoaded, hNamed⟩ := hSaved Checkpoint.roomState "room"
    ⟨hStorable.consistent, hStorable.log, hStorable.frames, fun o ho =>
      { hStorable.obligations o ho with
        transition := Or.inl rfl
        named := (by decide : "" ≠ Checkpoint.noTransition) }⟩
  exact ⟨hRead, hChain (.bool true) [] [o] o rfl (by simp), s', hLoaded, hNamed 1 _ rfl rfl⟩

/-- A light that is switched on by steps of two names, which are the words for stuttering and for
no transition. -/
def misnamedLight : Program :=
  { Program.empty with
    symbols := [⟨"on", .relation [] none, true⟩]
    transitions := [stutterName, Checkpoint.noTransition].map fun name =>
      ⟨name, [], ⟨["on"]⟩, .new (.id "on")⟩
    validated := true }

/-- **Two names of transitions are misread.** A step that switches the light on and is called like
stuttering is asserted to change nothing, and is left out of a chain. One that is called like no
transition has no name when its obligation is read back. -/
theorem reserved_names_misread :
    let text := "(relation on () mutable) (transition <stutter> () (mods on) (new on))
      (transition - () (mods on) (new on))"
    let switch : Transition := ⟨stutterName, [], ⟨["on"]⟩, .new (.id "on")⟩
    let session := Discipline.left (Session.findTrace [none, some (.id "on")] [switch.name] ""
      (sessionOf misnamedLight [.unsat none]))
    let root : Obligation := ⟨1, ⟨[], []⟩, "", Obligation.root, true⟩
    let before (name : String) : Obligation := ⟨0, ⟨[], []⟩, name, 0, true⟩
    let s (name : String) : SearchState := ⟨[[], []], [], 0, 0, 0, [root, before name]⟩
    Program.read text = .ok misnamedLight ∧ switch ∈ misnamedLight.transitions ∧
      (∃ term n, Encoding.transition ⟨misnamedLight, "", stepKeys 2⟩ switch 0 0 = .ok term n ∧
        term.render = "(and s1_on true)") ∧
      (session.prover.events.map Event.render).take 6 = ["pop 1", "check -> unsat",
        "assert (= s0_on s1_on)", "assert s1_on", "assert true", "push"] ∧
      (chainSteps (.bool true) [] [before switch.name, root]).2 = [] ∧
      Checkpoint.read misnamedLight ""
        (Checkpoint.render misnamedLight (s Checkpoint.noTransition)) = .ok (s ""):= by
  intro text switch session root before s
  refine ⟨by decide +kernel, by decide +kernel, ⟨_, _, rfl, ?_⟩, ?_, by decide +kernel, ?_⟩
  · decide +kernel
  · decide +kernel
  · decide +kernel

end Search

end InvariantSearch
