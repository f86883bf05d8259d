import InvariantSearch.Proofs.Search.Predecessors
import InvariantSearch.Proofs.Search.Resumption
import InvariantSearch.Proofs.Session.Truth

/-!
# What a query about predecessors asks

The terms that are asserted for a question about predecessors can be satisfied exactly
when there is one: variables of the diagram are fresh constants, and each of its literals
is asserted under an indicator.

Main results: `Asks.truthful` — a verdict that is right about the terms is right about the
states of the program. `predecessor_answers`.
-/

namespace InvariantSearch

open Discipline Encoding Search SolverStructure Session Program

open List hiding drop

variable {g : (Conjunct × Nat) × Guard} {core : Option (List Nat)} {definitions : List Term}
  {M : SolverStructure} {D : Domain}

/-! ## Bindings -/

namespace SolverStructure

variable {M : SolverStructure}

theorem ExistsOf.binding {cs : List SolverConst} {P : M.Binding → Prop} {b : M.Binding}
    (h : M.ExistsOf cs P b) : ∃ b', P b' ∧ ∀ entry ∈ b', entry ∈ b ∨
      ∃ c ∈ cs, entry.1 = c.symbol ∧ M.Member c.sort entry.2 := by
  induction cs generalizing b with
  | nil => exact ⟨b, h, fun _ hEntry => .inl hEntry⟩
  | cons c cs ih =>
    obtain ⟨x, hx, h⟩ := h
    obtain ⟨b', hP, hb'⟩ := ih h
    refine ⟨b', hP, fun entry hEntry => ?_⟩
    rcases hb' entry hEntry with hIn | ⟨c', hc', hRest⟩
    · rcases mem_cons.mp hIn with rfl | hIn
      · exact .inr ⟨c, mem_cons_self, rfl, hx⟩
      · exact .inl hIn
    · exact .inr ⟨c', mem_cons_of_mem _ hc', hRest⟩

end SolverStructure

theorem Encoding.bindVars_sorts {e : Encoding} {terms inner : Scope} {vars : List Var}
    {consts : List SolverConst} {n n' : Nat}
    (h : e.bindVars terms vars n = .ok (consts, inner) n') :
    List.Forall₂ (fun x c => e.sort x.sort = .ok c.sort) vars consts := by
  induction vars generalizing terms consts n with
  | nil =>
    cases h
    exact .nil
  | cons x vars ih =>
    obtain ⟨c, cs, rfl, hSort, -, hRest⟩ := bindVars_cons_eq_ok h
    exact .cons hSort (ih hRest)

/-- A literal that can be checked when closed over variables is a formula where they are in
scope. -/
theorem Program.sortOf_of_check_thereIs {p : Program} {vars : List Var} {f : Formula}
    (h : p.check (Formula.thereIs vars f) .singleState = .ok ()) :
    ∃ scope : Scope, p.sortOf .singleState scope false f = .ok boolSort ∧
      ∀ x, scope.sort? x = Scope.sort? (vars.reverse ++ []) x := by
  have hSorted := check_eq_ok h
  unfold Formula.thereIs at hSorted
  split at hSorted
  · rename_i hEmpty
    rw [isEmpty_iff.mp hEmpty]
    exact ⟨[], hSorted, fun _ => rfl⟩
  · simp only [Sorted, sortOf, guard_eq_ok, bind_eq_ok, pure_eq_ok, not_not]
      at hSorted
    obtain ⟨_, hBinder, sort, hSort, rfl, -⟩ := hSorted
    exact ⟨_, hSort, fun x =>
      (sort?_reverse_append (checkBinder_eq_ok hBinder) [] x).symm⟩

namespace Generalizer

variable {frame : Formula} {d : Diagram} {context label : String} {way : Option Transition}
  {query : Query} {inForce : List (List Term)} {p : Program} {terms : StepTerms}
  {name : D.Element → M.Value} {t : State D} {m : SolverModel}

/-! ## What is asserted -/

/-- A question about predecessors can be asked: the frame and the diagram are of the program, and
nothing is in force but its base. -/
structure Sensible (p : Program) (label : String) (inForce : List (List Term)) (frame : Formula)
    (d : Diagram) : Prop where
  proper : Proper p
  frame : p.check frame .singleState = .ok ()
  base : IsBase p label inForce.flatten
  vars : ∀ x ∈ d.vars, p.hasSort x.sort = true
  conjuncts : ∀ c ∈ d.conjuncts,
    p.check (Formula.thereIs d.vars c.formula) .singleState = .ok ()

theorem Sensible.sort_ne_bool (h : Sensible p label inForce frame d) :
    ∀ x ∈ d.vars, x.sort ≠ boolSort := fun x hx =>
  h.proper.declared.sort_ne_bool _ (contains_iff_mem.mp (h.vars x hx))

/-- A query asserts a step into a diagram, the definitions of derived relations, and what is in
force. -/
theorem Asks.asserted
    (h : Asks ⟨p, label, stepKeys 2⟩ inForce frame d context way query terms definitions) (v : Term) :
    v ∈ query.assertions.flatten ↔ v ∈ terms.asserted ∨ v ∈ definitions ∨ v ∈ inForce.flatten := by
  rw [h.query_eq, flatten_cons, mem_append, mem_reverse, mem_append,
    or_comm (a := v ∈ definitions), or_assoc]

theorem Asks.assumptions
    (h : Asks ⟨p, label, stepKeys 2⟩ inForce frame d context way query terms definitions) :
    query.assumptions = terms.guards.map fun g => g.2.indicator.term := by
  rw [h.query_eq]
  exact map_map

/-! ## Literals -/

section Literals

variable (hSense : Sensible p label inForce frame d)
  (hStep : IsStep ⟨p, label, stepKeys 2⟩ frame d way terms)

include hSense hStep

theorem literal_wellMade (hg : g ∈ terms.guards) :
    ∃ (within : Program.Scope) (k k' : Nat), terms.second ≤ k ∧
      p.sortOf .singleState within false g.1.1.formula = .ok boolSort ∧
      (∀ x, within.sort? x = Program.Scope.sort? (d.vars.reverse ++ []) x) ∧
      lower ⟨p, label, stepKeys 2⟩ 1 terms.scope g.1.1.formula k = .ok g.2.literal k' ∧
      g.2.literal.sort? = some .bool := by
  obtain ⟨k, k', hk, hEncode⟩ := hStep.guards.literals g hg
  obtain ⟨_, -, hLower⟩ := sure_bind_eq_ok.mp hEncode
  have hPlace : g.1 ∈ placed d := hStep.places ▸ mem_map_of_mem hg
  obtain ⟨within, hSort, hWithin⟩ := sortOf_of_check_thereIs
    (hSense.conjuncts _ (mem_conjuncts_of_placed hPlace))
  obtain ⟨bound, _, hBind', hCovers⟩ :=
    bindVars_total hSense.vars (covers_nil (e := ⟨p, label, stepKeys 2⟩)) terms.first
  obtain rfl : bound = (terms.consts, terms.scope) := by
    have hEq := hBind'.symm.trans hStep.binds
    injection hEq
  have hRange : InRange ⟨p, label, stepKeys 2⟩ .singleState false 1 :=
    ⟨by show 1 < (stepKeys 2).length; decide, fun h => by cases h⟩
  obtain ⟨t, _, hLower', hMade⟩ := (lower_total hSense.proper.checked.symbols
    (types_of_sortOf _ hSort) hRange (hCovers.congr hWithin)).gives sort_bool k
  obtain rfl : t = g.2.literal := by
    have hEq := hLower'.symm.trans hLower
    injection hEq
  exact ⟨within, _, k', hk, hSort, hWithin, hLower, hMade.sort_eq⟩

/-- **A literal says of the constants what it says of the variables**, where constants are bound
to the values that they have. -/
theorem literal_holds_iff (hLists : Lists p M name)
    (hPresents : Presents ⟨p, label, stepKeys 2⟩ M name .singleState 1 t) {w : Valuation D}
    {b : M.Binding} (hScoped : Scoped name (d.vars.reverse ++ []) terms.scope w b terms.second)
    (hOwn : M.Own b fun f => ∃ g ∈ terms.guards, f ∈ g.2.literal.symbols) (hg : g ∈ terms.guards) :
    M.Satisfies g.2.literal ↔ g.1.1.formula.Holds (fun _ => t) 0 w := by
  obtain ⟨within, k, k', hk, hSort, hWithin, hLower, hLiteral⟩ :=
    literal_wellMade hSense hStep hg
  have hSees : Sees ⟨p, label, stepKeys 2⟩ M name .singleState false 1 (fun _ => t) 0 :=
    ⟨hPresents, fun hTwo => by cases hTwo⟩
  have hValue : M.value b g.2.literal = M.value [] g.2.literal :=
    value_append_own g.2.literal [] (by rw [hLiteral]; rfl) (hOwn.mono fun f hf => ⟨g, hg, hf⟩)
  rw [Satisfies, ← hValue]
  exact (value_lower hLists (types_of_sortOf _ hSort) hLower hSees
    ((hScoped.congr hWithin).mono hk)).holds_iff

end Literals

/-! ## From models to states -/

section Asks

variable {definitions : List Term} (hSense : Sensible p label inForce frame d)
  (hWay : way ∈ ways p)
  (h : Asks ⟨p, label, stepKeys 2⟩ inForce frame d context way query terms definitions)

include hSense hWay h

theorem Asks.step_of_displays {trace : Trace}
    (hDisplays : Displays ⟨p, label, stepKeys 2⟩ m (· ∈ query.assertions.flatten) trace) :
    trace.domain.Inhabits p ∧ IsState p (trace.meaning p 0) ∧ IsState p (trace.meaning p 1) ∧
      frame.HoldsIn (trace.meaning p 0) ∧ Goes p way (trace.meaning p 0) (trace.meaning p 1) := by
  have hKeys : 1 < (stepKeys 2).length := by decide
  have hWord : (stepKeys 2).length ≤ UInt32.size := by decide
  have hState : ∀ index < 2, IsState p (trace.meaning p index) := fun index hIndex =>
    hDisplays.isState hSense.proper hSense.base.all (fun u hu => (h.asserted u).mpr (.inr (.inr hu)))
      (fun i hi f hf => by
        obtain ⟨t, ht, hEncodes⟩ := h.defined.all (mem_range.mpr hi) hf
        exact ⟨t, (h.asserted t).mpr (.inr (.inl ht)), hEncodes⟩) hIndex
  have hTrue : ∀ t ∈ terms.asserted, m.Satisfies t := fun t ht =>
    hDisplays.satisfied t ((h.asserted t).mpr (.inl ht))
  exact ⟨hDisplays.reads.inhabits hDisplays.complete hSense.proper.declared.sort_ne_bool,
    hState 0 (by decide), hState 1 (by decide), hDisplays.holdsIn hSense.proper
      (check_eq_ok hSense.frame) ⟨_, hTrue _ mem_cons_self, h.step.before⟩,
    hDisplays.goes hSense.proper hKeys hWord hWay
      (hTrue _ (mem_cons_of_mem _ mem_cons_self)) h.step.step⟩

/-- **A model of a query shows a step from the frame into the diagram.** -/
theorem Asks.hasModel_of_truthful (hm : query.Truthful ⟨p, label, stepKeys 2⟩ (.sat m)) :
    (Question.predecessor context frame d way).HasModel p none := by
  obtain ⟨hInterprets, hSatisfies⟩ := hm
  have hKeys : 0 < (stepKeys 2).length := by decide
  have hSymbols := hSense.proper.checked.symbols
  -- the model is read, and what it shows is as asserted
  obtain ⟨trace, hRead⟩ := readModel_total hInterprets hKeys hSymbols
  have hComplete := complete_of_interprets hInterprets
  have hReads := reads_readModel hComplete hKeys hSymbols hRead
  obtain ⟨hInhabits, hState, hState', hHolds, hGoes⟩ := h.step_of_displays hSense hWay
    ⟨hReads, hComplete, fun t ht => hSatisfies t (mem_append_left _ ht)⟩
  refine ⟨trace.domain, hInhabits, _, _, hState, hState', hHolds, hGoes, ?_⟩
  have hGuard : ∀ g ∈ terms.guards, g.2.term ∈ query.assertions.flatten := fun g hg =>
    (h.asserted _).mpr
      (.inl (mem_cons_of_mem _ (mem_cons_of_mem _ (mem_map_of_mem hg))))
  -- constants that are mentioned have values of their sorts, to which they can be bound
  have hSorts : ∀ c ∈ terms.consts, ∃ sort ∈ p.sorts, c.sort = .named (beforeNul sort) := by
    intro c hc
    obtain ⟨x, hx, hSort⟩ := exists_left_of_forall₂ (bindVars_sorts h.step.binds) hc
    exact ⟨x.sort, contains_iff_mem.mp (hSense.vars x hx),
      (sort_eq_ok hSort (hSense.sort_ne_bool x hx)).2⟩
  have hOwn : m.toStructure.ExistsOf terms.consts (fun b => m.toStructure.Own b fun f =>
      ∃ t ∈ terms.guards.map fun g => g.2.literal, f ∈ t.symbols) [] := by
    refine existsOf_own (fun f x hx => by cases hx) (fun c hc hIn => ?_)
      fun c hc => ?_
    · obtain ⟨t, ht, hSymbol⟩ := hIn
      obtain ⟨g, hg, rfl⟩ := mem_map.mp ht
      refine hInterprets.constants c (hSorts c hc)
        ⟨g.2.term, mem_append_left _ (hGuard g hg), ?_⟩
      rw [Guard.term, Term.symbols]
      exact mem_append_right _ hSymbol
    · obtain ⟨sort, hSort, hEq⟩ := hSorts c hc
      rw [hEq]
      exact hInterprets.inhabited sort hSort
  refine (existsOf_of_binds hReads.lists hSense.sort_ne_bool h.step.binds (scoped_nil _ _)).1
    (fun w b hScoped hb f hf => ?_) hOwn
  rw [Diagram.coreLiterals, ← map_fst_placed, ← h.step.places, map_map, map_map] at hf
  obtain ⟨g, hg, rfl⟩ := mem_map.mp hf
  have hIndicator : m.Satisfies g.2.indicator.term := by
    refine hSatisfies _ (mem_append_right _ ?_)
    rw [h.assumptions]
    exact mem_map_of_mem hg
  have hMentions : ∀ f, (∃ g ∈ terms.guards, f ∈ g.2.literal.symbols) →
      ∃ t ∈ terms.guards.map fun g => g.2.literal, f ∈ t.symbols := by
    rintro f ⟨g, hg, hf⟩
    exact ⟨_, mem_map_of_mem hg, hf⟩
  refine (literal_holds_iff hSense h.step hReads.lists
    (hReads.presents hSense.proper.declared.nodup_names hSymbols 1) hScoped (hb.mono hMentions)
    hg).mp ?_
  exact g.2.satisfies_term.mp
    (m.toStructure_satisfies.mpr (hSatisfies _ (mem_append_left _ (hGuard g hg))))
    (m.toStructure_satisfies.mpr hIndicator)

/-! ## From states to structures -/

omit hSense hWay h in
theorem isSequence_of_goes {s : State D} (hs : IsState p s) (ht : IsState p t)
    (hGoes : Goes p way s t) : IsSequence p 2 (twoStates s t) := by
  have hShares := hGoes.shares
  refine ⟨fun i _ x hx => ?_, fun i _ j _ x hx hImmutable => ?_⟩
  · cases i with
    | zero => exact hs.fits x hx
    | succ i => exact ht.fits x hx
  · cases i <;> cases j
    · rfl
    · exact hShares x hx hImmutable
    · exact (hShares x hx hImmutable).symm
    · rfl

theorem Asks.satisfies_of_step {s : State D} (hLists : Lists p M name)
    (hPresents : ∀ index < (stepKeys 2).length, Presents ⟨p, label, stepKeys 2⟩ M name .singleState
      index (twoStates s t index)) (hs : IsState p s) (ht : IsState p t) (hHolds : frame.HoldsIn s)
    (hGoes : Goes p way s t) (hGuard : ∀ g ∈ terms.guards, M.Satisfies g.2.term) :
    ∀ v ∈ query.assertions.flatten, M.Satisfies v := by
  have hChecked := hSense.proper.checked
  have hBetween : Between ⟨p, label, stepKeys 2⟩ M name 0 s t :=
    ⟨hLists, fun x hx hIn => ((hChecked.symbols x hx).args boolSort hIn).1 rfl,
      hPresents 0 (by decide), hPresents 1 (by decide), fun x hx => ⟨hs.fits x hx, ht.fits x hx⟩⟩
  intro v hv
  rcases (h.asserted v).mp hv with hv | hv | hv
  · rcases mem_cons.mp hv with rfl | hv
    · obtain ⟨_, _, hEncodes⟩ := h.step.before
      exact (satisfies_iff_holdsIn hLists (hPresents 0 (by decide)) (by decide)
        (check_eq_ok hSense.frame) hEncodes).mpr hHolds
    rcases mem_cons.mp hv with rfl | hv
    · exact (hBetween.satisfies_iff_goes hChecked.transitions hWay hGoes.shares h.step.step).mpr
        hGoes
    · obtain ⟨g, hg, rfl⟩ := mem_map.mp hv
      exact hGuard g hg
  · obtain ⟨index, hIndex, f, hf, hEncodes⟩ := h.defined.only hv
    have hState : IsState p (twoStates s t index) := by
      cases index with
      | zero => exact hs
      | succ index => exact ht
    exact satisfies_of_definition hChecked hLists (hPresents index (mem_range.mp hIndex))
      hState hf hEncodes
  · exact hSense.base.satisfies hChecked hLists (hPresents 0 (by decide)) hs v hv

omit hSense hWay in
theorem Asks.exists_of_mem_coreTerms {t : Term} (ht : t ∈ Prover.coreTerms query.assumptions core) :
    ∃ g ∈ terms.guards, t = g.2.indicator.term ∧ g.1.1.formula ∈ d.coreLiterals core := by
  have hFormulas : d.enabled.map Conjunct.formula = terms.guards.map fun g => g.1.1.formula := by
    rw [← map_fst_placed, ← h.step.places, map_map, map_map]
    rfl
  rw [h.assumptions] at ht
  cases core with
  | none =>
    obtain ⟨g, hg, rfl⟩ := mem_map.mp ht
    refine ⟨g, hg, rfl, ?_⟩
    rw [Diagram.coreLiterals, hFormulas]
    exact mem_map_of_mem hg
  | some positions =>
    obtain ⟨k, hk, hTerm⟩ := mem_filterMap.mp ht
    rw [getElem?_map, Option.map_eq_some_iff] at hTerm
    obtain ⟨g, hg, rfl⟩ := hTerm
    refine ⟨g, mem_of_getElem? hg, rfl, ?_⟩
    rw [Diagram.coreLiterals, hFormulas]
    exact mem_filterMap.mpr ⟨k, hk, by rw [getElem?_map, hg]; rfl⟩

/-- **A step from the frame into the diagram gives a structure that satisfies the query**, with
the assumptions of a core. -/
theorem Asks.isSatisfiable_of_hasModel (hSeparates : Separates ⟨p, label, stepKeys 2⟩)
    (hModel : (Question.predecessor context frame d way).HasModel p core) :
    query.IsSatisfiable ⟨p, label, stepKeys 2⟩ core := by
  obtain ⟨D, hD, s, t, hs, ht, hHolds, hGoes, hLiterals⟩ := hModel
  have hσ : IsSequence p (stepKeys 2).length (twoStates s t) := isSequence_of_goes hs ht hGoes
  -- the variables stand for elements, to which the constants are bound
  obtain ⟨b, ⟨w, hScoped, hw⟩, hb⟩ := ((existsOf_of_binds (P := fun b => ∃ w,
    Scoped (inducedName ⟨p, label, stepKeys 2⟩ (twoStates s t))
      (d.vars.reverse ++ []) terms.scope w b terms.second ∧
        ∀ f ∈ d.coreLiterals core, f.Holds (fun _ => t) 0 w)
    hSeparates.lists hSense.sort_ne_bool h.step.binds (scoped_nil _ _)).2
    (fun w b hScoped hw => ⟨w, hScoped, hw⟩) hLiterals).binding
  -- and each indicator to whether its literal holds of them
  let sign : (Conjunct × Nat) × Guard → SolverConst × Prop := fun g =>
    (g.2.indicator, g.1.1.formula.Holds (fun _ => t) 0 w)
  generalize hFresh : b ++ signed (induced ⟨p, label, stepKeys 2⟩ (twoStates s t))
    (terms.guards.map sign) = fresh
  have hLists := hSeparates.lists.bindFresh fresh
  have hPresents : ∀ index (hIndex : index < (stepKeys 2).length), Presents
      ⟨p, label, stepKeys 2⟩ _ _ .singleState index (twoStates s t index) :=
    fun index hIndex => (hSeparates.presents hσ hIndex).bindFresh fresh
  have hLiteral : ∀ g ∈ terms.guards, ((bindFresh _ fresh).Satisfies g.2.literal ↔
      g.1.1.formula.Holds (fun _ => t) 0 w) := fun g hg =>
    literal_holds_iff hSense h.step hLists (hPresents 1 (by decide)) (hScoped.bindFresh fresh)
      (hFresh ▸ own_bindFresh (fun entry hEntry => by
        obtain ⟨c, -, hSymbol, -⟩ := (hb entry hEntry).resolve_left (by simp)
        exact ⟨c, hSymbol⟩) _) hg
  have hIndicator : ∀ g ∈ terms.guards, ((bindFresh _ fresh).Satisfies g.2.indicator.term ↔
      g.1.1.formula.Holds (fun _ => t) 0 w) := by
    intro g hg
    subst hFresh
    have hSign : sign g ∈ terms.guards.map sign := mem_map_of_mem hg
    refine satisfies_signed ?_ hScoped.numbered (fun sign hSign => ?_) hSign
    · rw [map_map]
      exact h.step.guards.nodup
    · obtain ⟨g, hg, rfl⟩ := mem_map.mp hSign
      exact (h.step.guards.indicators g hg).2.1
  refine ⟨_, hSeparates.interprets hσ hD hSense.proper.checked.symbols (b := fresh) ?_ _,
    fun v hv => ?_⟩
  · intro entry hEntry
    rw [← hFresh] at hEntry
    rcases mem_append.mp hEntry with hEntry | hEntry
    · obtain ⟨c, -, hSymbol, hMember⟩ := (hb entry hEntry).resolve_left (by simp)
      rw [hSymbol]
      exact hMember
    · obtain ⟨_, hSign, rfl⟩ := mem_map.mp hEntry
      obtain ⟨g, hg, rfl⟩ := mem_map.mp hSign
      show Member _ g.2.indicator.sort _
      rw [(h.step.guards.indicators g hg).1]
      exact rfl
  rcases mem_append.mp hv with hv | hv
  · refine h.satisfies_of_step hSense hWay hLists hPresents hs ht hHolds hGoes (fun g hg => ?_) v hv
    exact g.2.satisfies_term.mpr fun hTrue => (hLiteral g hg).mpr ((hIndicator g hg).mp hTrue)
  · obtain ⟨g, hg, rfl, hIn⟩ := h.exists_of_mem_coreTerms hv
    exact (hIndicator g hg).mpr (hw _ hIn)

/-! ## Answers -/

/-- **A verdict that is right about the terms of a query is right about predecessors.** -/
theorem Asks.truthful (hSeparates : Separates ⟨p, label, stepKeys 2⟩) {v : Verdict}
    (hTrue : query.Truthful ⟨p, label, stepKeys 2⟩ v) : query.question.Truthful p v := by
  have hQuestion : query.question = .predecessor context frame d way := by rw [h.query_eq]
  rw [hQuestion]
  cases v with
  | sat m => exact h.hasModel_of_truthful hSense hWay hTrue
  | unsat core =>
    exact fun hModel => hTrue (h.isSatisfiable_of_hasModel hSense hWay hSeparates hModel)
  | unknown reason => trivial

end Asks

theorem Replies.holdsIn_trace {record : List (Query × Option Answer)} {wanted : Wanted}
    {found : Predecessor} {core : List Nat} {t : Session}
    (h : Replies (.since record (TrueVerdict p label) TrueVerdict.decisive)
      ⟨p, label, stepKeys 2⟩ inForce frame d context wanted way ⟨some found, core⟩ t)
    (hSense : Sensible p label inForce frame d) (hWay : way ∈ ways p)
    (hKept : (Trust.since record (TrueVerdict p label) TrueVerdict.decisive).Kept t.prover.asks)
    (hWanted : wanted.trace = true) :
    ∃ trace, found.trace = some trace ∧ frame.HoldsIn (trace.meaning p 0) := by
  obtain ⟨query, terms, definitions, hAsks, -, hSome, -, hTrace⟩ := h
  obtain ⟨trace, hFound⟩ := Option.ne_none_iff_exists'.mp (hSome hWanted)
  obtain ⟨m, read, hRead, rfl, query', hStates, -, hNeeded, hTells⟩ := hTrace trace hFound
  have hKeys : 0 < (stepKeys 2).length := by decide
  have hTrue := truthful_of_tells (hTells hKept)
  rw [hStates] at hTrue
  have hComplete := complete_of_interprets hTrue.1
  have hReads := reads_readModel hComplete hKeys hSense.proper.checked.symbols hRead
  -- the step has got a name, and the states are the same
  have hNamed : Reads ⟨p, label, stepKeys 2⟩ m (read.setTransition 0 (wayName way)) :=
    ⟨hReads.universes, hReads.immutable, hReads.states⟩
  exact ⟨_, hFound, (hAsks.step_of_displays hSense hWay
    ⟨hNamed, hComplete, fun u hu => hTrue.2 u (mem_append_left _ (hNeeded u hu))⟩).2.2.2.1⟩

/-- **Questions about predecessors ask the right thing.** In a session with nothing in force but
its base, where symbols have names of their own and the solver decides every query and is right,
a predecessor is found exactly if there is one. The way is the first by which there is one, and the
trace starts in a state of the frame. Otherwise the core has literals that are on, and there is no
predecessor of what it leaves. -/
theorem predecessor_answers {p : Program} {label : String} {options : ProverOptions}
    {script : Script} {heedsInterrupts : Bool} {log : Log} {begun : Session}
    (hDeclared : p.Declared)
    (hStart : start p label (.start options script heedsInterrupts log) = .ok () begun)
    (hSeparates : Separates ⟨p, label, stepKeys 2⟩)
    (hFrame : p.check frame .singleState = .ok ())
    (hVars : ∀ x ∈ d.vars, p.hasSort x.sort = true)
    (hConjuncts : ∀ c ∈ d.conjuncts,
      p.check (Formula.thereIs d.vars c.formula) .singleState = .ok ())
    {s : Session × Generalizer} {wanted : Wanted} (hProgram : s.1.program = p)
    (hLabel : s.1.label = label) (hForce : s.1.prover.inForce = begun.prover.inForce)
    (hReady : s.1.prover.interrupted = false ∧ s.1.prover.canceled = false)
    (hTrue : ∀ ask ∈ s.1.prover.asksSince (left (predecessor frame d context wanted s)).1.prover,
      TrueVerdict p label ask) :
    ∃ answer t, predecessor frame d context wanted s = .ok answer t ∧
      (answer.predecessor.isSome = true ↔ d.HasPredecessor p frame) ∧
      (∀ found, answer.predecessor = some found →
        (∃ before way after, ways p = before ++ way :: after ∧ found.transition = wayName way ∧
          d.HasPredecessorBy p frame way ∧ ∀ other ∈ before, ¬ d.HasPredecessorBy p frame other) ∧
        (wanted.trace = true → ∃ trace, found.trace = some trace ∧
          frame.HoldsIn (trace.meaning p 0))) ∧
      (answer.predecessor = none → wanted.core = true →
        (∀ i ∈ answer.core, d.isEnabled i = true) ∧
          ¬ (d.restrictTo answer.core).HasPredecessor p frame) := by
  subst hLabel
  obtain ⟨-, -, hValidated, -⟩ := assumes_of_start rfl hStart
  have hProper := proper_of_validated hDeclared hValidated
  have hSense : Sensible p s.1.label s.1.prover.inForce frame d :=
    ⟨hProper, hFrame, hForce ▸ isBase_of_start rfl hStart, hVars, hConjuncts⟩
  obtain ⟨answer, t, hRun, ⟨⟨core, hSurveys, hCore⟩, -⟩, hKept⟩ := WorkM.exists_of_kept
    (T := .since s.1.prover.asks (TrueVerdict p s.1.label) TrueVerdict.decisive) trivial
    (fun _ h => h) (predecessor_ensures hProgram
      ⟨fun _ => hProper.checked, fun _ => (check_eq_ok hFrame).resolves (by simp),
        fun _ => Diagram.resolves_of_check hVars hConjuncts⟩
      (fun _ _ => reads_of_trueVerdict hProper s.1.prover.asks (by decide))
      (Trust.sound_since rfl hReady)) (Trust.kept_since rfl hTrue)
  -- what is judged is this diagram, with this in force
  have hJudges : Judges (.since s.1.prover.asks (TrueVerdict p s.1.label) TrueVerdict.decisive)
      ⟨p, s.1.label, stepKeys 2⟩ frame (fun inForce d' => inForce = s.1.prover.inForce ∧ d' = d)
      fun way d => ¬ d.HasPredecessorBy p frame way := by
    refine judges_of_truthful (fun hFit => hFit.2 ▸ hVars) fun hFit hWay hAsks hVerdict => ?_
    rw [hFit.1, hFit.2] at hAsks
    have hTruthful := truthful_of_tells hVerdict
    have hStates := congrArg (fun query : Query => query.question.states) hAsks.query_eq
    dsimp only at hStates
    rw [hStates] at hTruthful
    exact hAsks.truthful hSense hWay hSeparates hTruthful
  refine ⟨answer, t, hRun, ?_⟩
  cases hAnswer : answer.predecessor with
  | some found =>
    rw [hAnswer] at hSurveys
    obtain ⟨before, way, after, hWays, hName, hLeads, hNot⟩ :=
      hSurveys.firstWay hJudges ⟨rfl, rfl⟩ trivial hKept
    have hIn : way ∈ ways p := hWays ▸ List.mem_append_right _ List.mem_cons_self
    refine ⟨⟨fun _ => ⟨way, hIn, not_not.mp hLeads⟩, fun _ => rfl⟩, fun found' hFound => ?_,
      fun hNone => (by cases hNone)⟩
    cases hFound
    refine ⟨⟨before, way, after, hWays, hName, not_not.mp hLeads, hNot⟩, fun hWanted => ?_⟩
    obtain ⟨before, found, after, hFoundWays, -, _, hReplies⟩ := hSurveys
    exact hReplies.holdsIn_trace hSense (hFoundWays ▸ List.mem_append_right _ List.mem_cons_self)
      hKept hWanted
  | none =>
    rw [hAnswer] at hSurveys
    obtain ⟨hFree, hCores⟩ := hSurveys.free hJudges ⟨rfl, rfl⟩ hKept
    refine ⟨⟨fun hSome => (by cases hSome), fun hd => absurd hd (not_hasPredecessor_iff.mpr hFree)⟩,
      fun _ hFound => (by cases hFound), fun _ hWanted => ?_⟩
    obtain ⟨hEnabled, hKeep⟩ := hCores hWanted
    have hMem : ∀ i, i ∈ answer.core ↔ i < d.conjuncts.length ∧ i ∈ core := by
      intro i
      simp [hCore, List.mem_filter]
    refine ⟨fun i hi => hEnabled i ((hMem i).mp hi).2,
      not_hasPredecessor_iff.mpr (hKeep _ fun i hi => ?_)⟩
    refine List.contains_iff_mem.mpr ((hMem i).mpr ⟨?_, hi⟩)
    by_contra hLength
    have hOn := hEnabled i hi
    rw [Diagram.isEnabled, List.getElem?_eq_none (Nat.le_of_not_lt hLength)] at hOn
    cases hOn

/-- A model in which a lamp is dropped and breaks, with the indicator of that. -/
def dropped : SolverModel :=
  ⟨[], [("s0_broken", ⟨[([], .bool false)], none⟩), ("s1_broken", ⟨[([], .bool true)], none⟩),
    ("conj0!1", ⟨[([], .bool true)], none⟩)]⟩

/-- What is asked about a lamp that breaks by itself. -/
def breaksByItself : Query :=
  let before : Term := .app ⟨"s0_broken", [], .bool, none⟩ []
  let after : Term := .app ⟨"s1_broken", [], .bool, none⟩ []
  let indicator : Term := .app ⟨"conj0!0", [], .bool, some 0⟩ []
  ⟨.predecessor "a lamp" (.not (.id "broken")) brokenDiagram none,
    [[.imp indicator after, .eq before after, .not before], []], [indicator]⟩

/-- What is asked about a lamp that breaks when it is dropped. -/
def breaksByDrop : Query :=
  let before : Term := .app ⟨"s0_broken", [], .bool, none⟩ []
  let after : Term := .app ⟨"s1_broken", [], .bool, none⟩ []
  let indicator : Term := .app ⟨"conj0!1", [], .bool, some 1⟩ []
  ⟨.predecessor "a lamp" (.not (.id "broken")) brokenDiagram (some drop),
    [[.imp indicator after, .and [after, .bool true], .not before], []], [indicator]⟩

theorem truthful_breaksByItself :
    breaksByItself.Truthful ⟨fragile, "", stepKeys 2⟩ (.unsat (some [0])) := by
  rintro ⟨M, -, hM⟩
  simp [breaksByItself, Prover.coreTerms, Satisfies, value] at hM
  obtain ⟨hImplies, hEq, hBefore, hIndicator⟩ := hM
  exact hBefore (hEq.trans (hImplies hIndicator))

theorem truthful_breaksByDrop :
    breaksByDrop.Truthful ⟨fragile, "", stepKeys 2⟩ (.sat dropped) := by
  have hSymbol : ∀ index < 2, ∃ name, symbol ⟨fragile, "", stepKeys 2⟩
      ⟨"broken", .relation [] none, true⟩ index = .ok ⟨name, [], .bool, none⟩ ∧
        dropped.apply ⟨name, [], .bool, none⟩ [] ∈ dropped.members .bool := by
    intro index hIndex
    match index with
    | 0 => exact ⟨"s0_broken", by decide +kernel, by decide +kernel⟩
    | 1 => exact ⟨"s1_broken", by decide +kernel, by decide +kernel⟩
  refine ⟨⟨fun x => ?_, fun _ hSort => (by cases hSort), fun x hx index hIndex f hf args hArgs => ?_,
    fun _ ⟨_, hSort, _⟩ => (by cases hSort)⟩, by decide +kernel⟩
  · simp [SolverModel.members, IsTruth, Bool.exists_bool]
  · obtain rfl := mem_singleton.mp hx
    obtain ⟨name, hName, hMember⟩ := hSymbol index hIndex
    obtain rfl := Except.ok.inj (hName.symm.trans hf)
    obtain rfl := forall₂_nil_right_iff.mp hArgs
    exact hMember

/-- A lamp breaks when it is dropped, and not by itself. -/
theorem predecessor_answers_fragile :
    let s := (fragileSession [⟨.unsat (some [0]), false⟩, ⟨.sat dropped, false⟩],
      Generalizer.new true)
    ∃ answer t found trace,
      predecessor (.not (.id "broken")) brokenDiagram "a lamp" ⟨true, true⟩ s =
        .ok answer t ∧
      answer.predecessor = some found ∧ found.transition = "drop" ∧ found.trace = some trace ∧
      brokenDiagram.HasPredecessorBy fragile (.not (.id "broken"))
        (some drop) ∧
      ¬ brokenDiagram.HasPredecessorBy fragile (.not (.id "broken")) none ∧
      (Formula.not (.id "broken")).HoldsIn (trace.meaning fragile 0) := by
  intro s
  have hAsks : s.1.prover.asksSince (left (predecessor (.not (.id "broken")) brokenDiagram
      "a lamp" ⟨true, true⟩ s)).1.prover =
      [(breaksByDrop, some ⟨.sat dropped, false⟩),
        (breaksByItself, some ⟨.unsat (some [0]), false⟩)] := by
    decide +kernel
  have hTrue : ∀ ask ∈ s.1.prover.asksSince (left (predecessor (.not (.id "broken"))
      brokenDiagram "a lamp" ⟨true, true⟩ s)).1.prover, TrueVerdict fragile "" ask := by
    rw [hAsks]
    exact List.forall_mem_cons.mpr ⟨⟨_, rfl, by decide, truthful_breaksByDrop⟩,
      List.forall_mem_singleton.mpr ⟨_, rfl, by decide, truthful_breaksByItself⟩⟩
  have hSeparates : Separates ⟨fragile, "", stepKeys 2⟩ := by
    have hNames : ∀ i ∈ List.range 2, ∀ j ∈ List.range 2,
        (symbolName ⟨fragile, "", stepKeys 2⟩ ⟨"broken", .relation [] none, true⟩
          i).map beforeNul = (symbolName ⟨fragile, "", stepKeys 2⟩
            ⟨"broken", .relation [] none, true⟩ j).map beforeNul → i = j := by decide +kernel
    refine ⟨fun x hx y hy i hi j hj hEq => ?_, fun _ hSort => (by cases hSort)⟩
    obtain rfl := List.mem_singleton.mp hx
    obtain rfl := List.mem_singleton.mp hy
    exact ⟨rfl, fun _ => hNames i (List.mem_range.mpr hi) j (List.mem_range.mpr hj) hEq⟩
  have hFrame : fragile.check (.not (.id "broken")) .singleState = .ok () := by
    decide +kernel
  obtain ⟨answer, t, hRun, -, hFound, -⟩ := predecessor_answers (d := brokenDiagram)
    fragile_declared (start_fragile _) hSeparates hFrame (fun _ hx => (by cases hx))
    (by decide +kernel) rfl rfl rfl ⟨rfl, rfl⟩ hTrue
  obtain ⟨answer', t', hRun', hDrop⟩ : ∃ answer t,
      predecessor (.not (.id "broken")) brokenDiagram "a lamp" ⟨true, true⟩ s = .ok answer t ∧
        answer.predecessor.map Predecessor.transition = some "drop" := by decide +kernel
  obtain ⟨rfl, rfl⟩ := EStateM.Result.ok.inj (hRun.symm.trans hRun')
  obtain ⟨found, hAnswer, hName⟩ := Option.map_eq_some_iff.mp hDrop
  obtain ⟨⟨before, way, after, hWays, hWayName, hLeads, hNot⟩, hTrace⟩ := hFound found hAnswer
  obtain ⟨trace, hFoundTrace, hHolds⟩ := hTrace rfl
  -- stuttering has another name, so it was tried before
  have hWays : [none, some drop] = before ++ way :: after := hWays
  obtain ⟨rfl, rfl⟩ : way = some drop ∧ before = [none] := by
    cases before with
    | nil =>
      obtain ⟨rfl, -⟩ := List.cons.inj hWays
      exact absurd (hName.symm.trans hWayName) (by decide)
    | cons first before =>
      obtain ⟨rfl, hRest⟩ := List.cons.inj hWays
      cases before with
      | nil => exact ⟨(List.cons.inj hRest).1.symm, rfl⟩
      | cons second before => simp at hRest
  exact ⟨answer, t, found, trace, hRun, hAnswer, hName, hFoundTrace, hLeads,
    hNot none List.mem_cons_self, hHolds⟩

/-- **A variable of a sort that is not declared cannot be bound.** Where a diagram has one and no
literals, it holds in every state, but no question about its predecessors is asked. -/
theorem predecessor_fails_on_unknown_sort :
    let d : Diagram := ⟨[⟨"X", "ghost"⟩], []⟩
    let s := (sessionOf lamp [.sat .empty], Generalizer.new true)
    lamp.checkAll = .ok () ∧ (∀ c ∈ d.conjuncts,
      lamp.check (Formula.thereIs d.vars c.formula) .singleState = .ok ()) ∧
    d.HasPredecessor lamp (.bool true) ∧
    ∃ t, predecessor (.bool true) d "a ghost" ⟨true, true⟩ s =
      .error (.encoding (.unknownSort "ghost")) t ∧ s.1.prover.asksSince t.1.prover = [] := by
  intro d s
  refine ⟨by decide +kernel, fun c hc => (by cases hc), ?_, by decide +kernel⟩
  have hTrue : d.toFormula = .bool true := by decide +kernel
  refine ⟨none, List.mem_cons_self, noElements, inhabits_noElements,
    lampState _ false, lampState _ false, isState_lampState _ _,
    isState_lampState _ _, Formula.holds_bool.mpr rfl, .refl _ _, ?_⟩
  rw [hTrue]
  exact Formula.holds_bool.mpr rfl

end Generalizer

end InvariantSearch
