import InvariantSearch.Proofs.Encoding.Renumbering
import InvariantSearch.Session.Bounded

/-!
# Answers up to the numbering of fresh constants

A solver that is asked the same twice, with fresh constants numbered differently, may
give the same answer twice: a model that says the same of all declared symbols, and of
a fresh constant what the other model says of the one that it is paired with.

* `Program.Calls` — what the declared symbols of a program are called in the states of
  runs.
* `SolverModel.Alike`, `Verdict.Alike`, `Script.Alike` — the same answers, for paired
  numbers.

Main results: `readModel_alike` — models that are alike show the same trace.
`nameSteps_alike` — they name its steps alike.
-/

namespace InvariantSearch

/-! ## Results that depend on the same values -/

section Congruence

variable {ε α β : Type}

theorem foldlM_congr {f g : β → α → Except ε β} {as : List α}
    (h : ∀ a ∈ as, ∀ b, f b a = g b a) (b : β) : as.foldlM f b = as.foldlM g b := by
  induction as generalizing b with
  | nil => rfl
  | cons a as ih =>
    have hRest : as.foldlM f = as.foldlM g :=
      funext fun b => ih (fun a' ha' => h a' (List.mem_cons_of_mem a ha')) b
    rw [List.foldlM_cons, List.foldlM_cons, h a List.mem_cons_self b, hRest]

theorem mapM_congr {f g : α → Except ε β} {as : List α} (h : ∀ a ∈ as, f a = g a) :
    as.mapM f = as.mapM g := by
  induction as with
  | nil => rfl
  | cons a as ih =>
    rw [List.mapM_cons, List.mapM_cons, h a List.mem_cons_self,
      ih fun a' ha' => h a' (List.mem_cons_of_mem a ha')]

end Congruence

/-! ## Models -/

/-- A declared symbol of a program is called so in some state of a run. -/
def Program.Calls (p : Program) (label name : String) : Prop :=
  ∃ count, ∃ x ∈ p.symbols, ∃ index f,
    Encoding.symbol ⟨p, label, stepKeys count⟩ x index = .ok f ∧ f.name = name

/-- Two models list the same universes, have as many entries in their tables, and say the same
under all names of some kind, and of fresh constants that are paired. -/
structure SolverModel.Alike (R : Nat → Nat → Prop) (declared : String → Prop)
    (m m' : SolverModel) : Prop where
  universes : m'.universes = m.universes
  entries : (m'.tables.flatMap fun table => table.2.entries).length =
    (m.tables.flatMap fun table => table.2.entries).length
  declared : ∀ name, declared name → m'.tables.lookup name = m.tables.lookup name
  fresh : ∀ base k k', R k k' →
    m'.tables.lookup (freshName base k') = m.tables.lookup (freshName base k)

theorem SolverModel.alike_self (declared : String → Prop) (m : SolverModel) :
    m.Alike Eq declared m :=
  ⟨rfl, rfl, fun _ _ => rfl, fun _ _ _ h => by rw [h]⟩

/-- What two models do not answer is alike. -/
inductive ModelFault.Alike (R : Nat → Nat → Prop) : ModelFault → ModelFault → Prop
  | noValue {t t' : Term} (h : Term.Alike R t t') : Alike R (.noValue t) (.noValue t')
  | notBool {t t' u u' : Term} (h : Term.Alike R t t') (hu : Term.Alike R u u') :
      Alike R (.notBool t u) (.notBool t' u')

section Models

variable {R : Nat → Nat → Prop} {declared : String → Prop} {m m' : SolverModel}

theorem SolverModel.Alike.evaluate_eq (h : m.Alike R declared m') {f : SolverSymbol}
    (hf : declared f.name) (args : List Term) : m'.evaluate f args = m.evaluate f args := by
  rw [SolverModel.evaluate, SolverModel.evaluate, h.declared f.name hf]

theorem SolverModel.Alike.evaluate_const (h : m.Alike R declared m') {c c' : SolverConst}
    (hc : c.Matches R c') :
    Agree (Term.Alike R) (ModelFault.Alike R) (m.evaluate c.symbol [])
      (m'.evaluate c'.symbol []) := by
  obtain ⟨base, hName, hName'⟩ := hc.name
  have hLookup : m'.tables.lookup c'.symbol.name = m.tables.lookup c.symbol.name := by
    show m'.tables.lookup c'.name = m.tables.lookup c.name
    rw [hName, hName', h.fresh base _ _ hc.number]
  rw [SolverModel.evaluate, SolverModel.evaluate, hLookup,
    show c'.symbol.range = c.symbol.range from hc.sort]
  -- by what the tables hold
  cases ((m.tables.lookup c.symbol.name).bind fun table => SolverModel.tableValue? table []).getD
      (SolverModel.completion c.symbol.range) with
  | bool value => exact .bool value
  | element index => exact .element _ index
  | unevaluated => exact hc.term
  | failing => exact .noValue hc.term

theorem SolverModel.Alike.evaluateBool_const (h : m.Alike R declared m') {c c' : SolverConst}
    (hc : c.Matches R c') :
    Agree Eq (ModelFault.Alike R) (m.evaluateBool c.symbol []) (m'.evaluateBool c'.symbol []) := by
  have hValue := h.evaluate_const hc
  rw [SolverModel.evaluateBool, SolverModel.evaluateBool]
  cases hEval : m.evaluate c.symbol [] with
  | error fault =>
    cases hEval' : m'.evaluate c'.symbol [] with
    | error fault' =>
      rw [hEval, hEval'] at hValue
      exact hValue
    | ok t' =>
      rw [hEval, hEval'] at hValue
      exact hValue.elim
  | ok t =>
    cases hEval' : m'.evaluate c'.symbol [] with
    | error fault' =>
      rw [hEval, hEval'] at hValue
      exact hValue.elim
    | ok t' =>
      rw [hEval, hEval'] at hValue
      have hTerm : Term.Alike R t t' := hValue
      cases hTerm with
      | bool value => exact rfl
      | _ => exact .notBool hc.term ‹_›

/-! ## Traces -/

section Reading

variable {e : Encoding}

/-- Two models agree on the symbols that an encoding speaks of. -/
def Encoding.SameValues (e : Encoding) (m m' : SolverModel) : Prop :=
  ∀ x ∈ e.program.symbols, ∀ index f, e.symbol x index = .ok f →
    ∀ args, m'.evaluate f args = m.evaluate f args

namespace Encoding

theorem SameValues.addValues_eq (h : e.SameValues m m') {x : Symbol} (hx : x ∈ e.program.symbols)
    (u : Universes) (index : Nat) : e.addValues m' x u index = e.addValues m x u index := by
  unfold addValues
  cases hf : e.symbol x index with
  | error fault => rfl
  | ok f =>
    have hNew : newValues m' f = newValues m f := by
      funext known args
      simp only [newValues, h x hx index f hf]
    show ((newValues m' f (u.of x.result) (tuples (x.args.map u.of))).mapError ReadbackFault.model
      >>= fun found => pure (u.add x.result found)) = _
    rw [hNew]
    rfl

theorem SameValues.closeOnce_eq (h : e.SameValues m m') (u : Universes) :
    e.closeOnce m' u = e.closeOnce m u := by
  refine foldlM_congr (fun x hx u => ?_) u
  exact foldlM_congr (fun index _ u => h.addValues_eq (List.mem_filter.mp hx).1 u index) u

theorem SameValues.closeWithin_eq (h : e.SameValues m m') (rounds : Nat) (u : Universes) :
    e.closeWithin m' rounds u = e.closeWithin m rounds u := by
  induction rounds generalizing u with
  | zero => rfl
  | succ rounds ih => simp only [closeWithin, h.closeOnce_eq, ih]

theorem SameValues.readSymbol_eq (h : e.SameValues m m') {x : Symbol} (hx : x ∈ e.program.symbols)
    (u : Universes) (index : Nat) : e.readSymbol m' u x index = e.readSymbol m u x index := by
  unfold readSymbol
  cases hf : e.symbol x index with
  | error fault => rfl
  | ok f =>
    have hRead : readValue m' u x f = readValue m u x f := by
      funext args
      simp only [readValue, SolverModel.evaluateBool, h x hx index f hf]
    show ((tuples (x.args.map (namedElements u))).mapM (fun args => do
      let value ← readValue m' u x f (args.map Prod.fst)
      return (args.map Prod.snd, value)) >>= fun entries =>
        pure (Interpretation.mk x.name x.kind entries)) = _
    rw [hRead]
    rfl

/-- **Models that are alike show the same trace.** -/
theorem readModel_alike {label : String} {count : Nat} {p : Program}
    (h : m.Alike R (p.Calls label) m') :
    readModel ⟨p, label, stepKeys count⟩ m' = readModel ⟨p, label, stepKeys count⟩ m := by
  have hValues : SameValues ⟨p, label, stepKeys count⟩ m m' := fun x hx index f hf =>
    h.evaluate_eq ⟨count, x, hx, index, f, hf, rfl⟩
  have hListed : listedUniverses ⟨p, label, stepKeys count⟩ m' =
      listedUniverses ⟨p, label, stepKeys count⟩ m := by
    simp only [listedUniverses, SolverModel.elements, h.universes]
  have hClosed : closedUniverses ⟨p, label, stepKeys count⟩ m' =
      closedUniverses ⟨p, label, stepKeys count⟩ m := by
    rw [closedUniverses, closedUniverses, hValues.closeWithin_eq, hListed, closingRounds,
      closingRounds, h.entries]
  have hImmutable : ∀ u, (p.symbols.filter fun x => !x.isMutable).mapM
        (fun x => readSymbol ⟨p, label, stepKeys count⟩ m' u x 0) =
      (p.symbols.filter fun x => !x.isMutable).mapM
        (fun x => readSymbol ⟨p, label, stepKeys count⟩ m u x 0) :=
    fun u => mapM_congr fun x hx => hValues.readSymbol_eq (List.mem_filter.mp hx).1 u 0
  have hStates : ∀ u index, (p.symbols.filter Symbol.isMutable).mapM
        (fun x => readSymbol ⟨p, label, stepKeys count⟩ m' u x index) =
      (p.symbols.filter Symbol.isMutable).mapM
        (fun x => readSymbol ⟨p, label, stepKeys count⟩ m u x index) :=
    fun u index => mapM_congr fun x hx => hValues.readSymbol_eq (List.mem_filter.mp hx).1 u index
  simp only [readModel, hClosed, hImmutable, hStates]

end Encoding

end Reading

/-! ## Steps -/

namespace Session

/-- Choices have the same names, and indicators that are paired. -/
def ChoiceAlike (R : Nat → Nat → Prop) (c c' : Choice) : Prop :=
  c'.1 = c.1 ∧ Option.Rel (SolverConst.Matches R) c.2 c'.2

theorem taken?_alike (h : m.Alike R declared m') {choices choices' : List Choice}
    (hChoices : List.Forall₂ (ChoiceAlike R) choices choices') :
    Agree Eq (ModelFault.Alike R) (taken? m choices) (taken? m' choices') := by
  induction hChoices with
  | nil => exact rfl
  | @cons c c' choices choices' hc _ ih =>
    obtain ⟨name, indicator⟩ := c
    obtain ⟨name', indicator'⟩ := c'
    obtain ⟨hName, hIndicator⟩ := hc
    dsimp only at hName hIndicator
    subst hName
    cases hIndicator with
    | none => exact rfl
    | @some i i' hi =>
      have hOn := h.evaluateBool_const hi
      rw [taken?, taken?]
      cases hEval : m.evaluateBool i.symbol [] <;> cases hEval' : m'.evaluateBool i'.symbol [] <;>
        rw [hEval, hEval'] at hOn
      · exact hOn
      · exact hOn.elim
      · exact hOn.elim
      · rename_i on on'
        have hSame : on = on' := hOn
        subst hSame
        cases on with
        | true => exact rfl
        | false => exact ih

/-- Names a step of a trace by what a model takes. -/
def nameStep (m : SolverModel) (t : Trace) (step : List Choice × Nat) :
    Except ModelFault Trace := do
  match ← taken? m step.1 with
  | some name => return t.setTransition step.2 name
  | none => return t

theorem nameSteps_eq (m : SolverModel) (choices : List (List Choice)) (t : Trace) :
    nameSteps m choices t = choices.zipIdx.foldlM (nameStep m) t := rfl

/-- **Models that are alike name the steps of a trace alike.** -/
theorem nameSteps_alike (h : m.Alike R declared m') {choices choices' : List (List Choice)}
    (hChoices : List.Forall₂ (List.Forall₂ (ChoiceAlike R)) choices choices') (t : Trace) :
    Agree Eq (ModelFault.Alike R) (nameSteps m choices t) (nameSteps m' choices' t) := by
  rw [nameSteps_eq, nameSteps_eq]
  -- by induction on the steps, from any number on
  suffices hFrom : ∀ k (t : Trace), Agree Eq (ModelFault.Alike R)
      ((choices.zipIdx k).foldlM (nameStep m) t) ((choices'.zipIdx k).foldlM (nameStep m') t) from
    hFrom 0 t
  induction hChoices with
  | nil => exact fun _ _ => rfl
  | @cons step step' choices choices' hStep _ ih =>
    intro k t
    have hTaken := taken?_alike h hStep
    rw [List.zipIdx_cons, List.zipIdx_cons, List.foldlM_cons, List.foldlM_cons, nameStep, nameStep]
    dsimp only
    cases hName : taken? m step <;> cases hName' : taken? m' step' <;>
      rw [hName, hName'] at hTaken
    · exact hTaken
    · exact hTaken.elim
    · exact hTaken.elim
    · rename_i name name'
      have hSame : name = name' := hTaken
      subst hSame
      cases name with
      | none => exact ih (k + 1) t
      | some name => exact ih (k + 1) (t.setTransition k name)

end Session

end Models

/-! ## Scripts -/

/-- Two verdicts are the same up to numbers. -/
inductive Verdict.Alike (R : Nat → Nat → Prop) (declared : String → Prop) :
    Verdict → Verdict → Prop
  | sat {m m' : SolverModel} (h : m.Alike R declared m') : Alike R declared (.sat m) (.sat m')
  | unsat (core : Option (List Nat)) : Alike R declared (.unsat core) (.unsat core)
  | unknown (reason : String) : Alike R declared (.unknown reason) (.unknown reason)

/-- Two answers are the same up to numbers. -/
structure Answer.Alike (R : Nat → Nat → Prop) (declared : String → Prop) (a a' : Answer) :
    Prop where
  verdict : a.verdict.Alike R declared a'.verdict
  interrupts : a'.interrupts = a.interrupts

/-- Two scripts give the same answers up to numbers. -/
structure Script.Alike (R : Nat → Nat → Prop) (declared : String → Prop) (s s' : Script) :
    Prop where
  answers : List.Forall₂ (Answer.Alike R declared) s.answers s'.answers
  after : Option.Rel (Answer.Alike R declared) s.after s'.after

section Scripts

variable {R : Nat → Nat → Prop} {declared : String → Prop}

theorem Verdict.alike_self (declared : String → Prop) : ∀ v : Verdict, v.Alike Eq declared v
  | .sat m => .sat (m.alike_self declared)
  | .unsat core => .unsat core
  | .unknown reason => .unknown reason

theorem Answer.alike_self (declared : String → Prop) (a : Answer) : a.Alike Eq declared a :=
  ⟨a.verdict.alike_self declared, rfl⟩

theorem Script.alike_self (declared : String → Prop) (s : Script) : s.Alike Eq declared s := by
  refine ⟨List.forall₂_same.mpr fun a _ => a.alike_self declared, ?_⟩
  cases s.after with
  | none => exact .none
  | some a => exact .some (a.alike_self declared)

theorem Script.Alike.next {s s' : Script} (h : s.Alike R declared s') :
    (s.next? = none ∧ s'.next? = none) ∨
      ∃ a a' rest rest', s.next? = some (a, rest) ∧ s'.next? = some (a', rest') ∧
        a.Alike R declared a' ∧ rest.Alike R declared rest' := by
  obtain ⟨answers, after⟩ := s
  obtain ⟨answers', after'⟩ := s'
  obtain ⟨hAnswers, hAfter⟩ := h
  dsimp only at hAnswers hAfter
  cases hAnswers with
  | cons ha hRest => exact Or.inr ⟨_, _, _, _, rfl, rfl, ha, hRest, hAfter⟩
  | nil =>
    cases hAfter with
    | none => exact Or.inl ⟨rfl, rfl⟩
    | some ha => exact Or.inr ⟨_, _, _, _, rfl, rfl, ha, .nil, .some ha⟩

end Scripts

end InvariantSearch
