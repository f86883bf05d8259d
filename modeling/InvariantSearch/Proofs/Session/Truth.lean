import InvariantSearch.Proofs.Encoding.Interpretations
import InvariantSearch.Proofs.Session.Models

/-!
# Verdicts that are right

What it is for a verdict to be right about the terms of a query, and what these terms are in a
session that has just started.

* `Query.Truthful` — a verdict on a query agrees with the structures that interpret its
  symbols.
* `Generalizer.TrueVerdict` — an answer settles its query, and is right about its terms.
* `Session.IsBase` — some terms are the axioms of a program and the definitions of its
  immutable derived relations, and nothing else.
* `SolverStructure.signed` — fresh constants are bound to truth values.

Main results: `Session.isBase_of_start`. `IsBase.satisfies` and `satisfies_of_definition` — a
structure that presents a state of a program satisfies its base, and the definitions of its derived
relations.
-/

namespace InvariantSearch

open Discipline Encoding SolverStructure Session Program

variable {p : Program} {label : String} {D : Domain} {M : SolverStructure}
  {name : D.Element → M.Value} {s : State D}

/-! ## True verdicts -/

namespace Query

/-- All that a query mentions. -/
def terms (query : Query) : List Term := query.assertions.flatten ++ query.assumptions

/-- A structure satisfies all that is asserted, and the assumptions that a core names. -/
def IsSatisfiable (e : Encoding) (core : Option (List Nat)) (query : Query) : Prop :=
  ∃ M : SolverStructure, M.Interprets e query.terms ∧
    ∀ t ∈ query.assertions.flatten ++ Prover.coreTerms query.assumptions core, M.Satisfies t

/-- A verdict on a query is right. -/
def Truthful (e : Encoding) (query : Query) : Verdict → Prop
  | .sat m => m.toStructure.Interprets e query.terms ∧ ∀ t ∈ query.terms, m.Satisfies t
  | .unsat core => ¬ query.IsSatisfiable e core
  | .unknown _ => True

end Query

/-- Terms are the axioms of a program and the definitions of its immutable derived relations. -/
structure Session.IsBase (p : Program) (label : String) (base : List Term) : Prop where
  all : Assumes p label base
  only : ∀ t ∈ base, ∃ f ∈ p.axioms.map NamedFormula.formula ++ definitions p false,
    Encodes ⟨p, label, stepKeys 1⟩ f 0 t

/-- **What is in force when a session has started is its base.** -/
theorem Session.isBase_of_start {prover : Prover} {s : Session}
    (hNothing : prover.inForce.flatten = []) (h : start p label prover = .ok () s) :
    IsBase p label s.prover.inForce.flatten := by
  obtain ⟨-, terms, hTerms, hAsserts⟩ := eq_of_start h
  have hEncodes := run_mapM_eq_ok hTerms
  obtain ⟨scope, scopes, hBefore, hAfter⟩ := hAsserts.adds
  have hIff : ∀ v, v ∈ s.prover.inForce.flatten ↔ v ∈ terms := by
    intro v
    have hNone : (scope :: scopes).flatten = [] := hBefore ▸ hNothing
    rw [List.flatten_cons, List.append_eq_nil_iff] at hNone
    rw [hAfter, List.flatten_cons, hNone.1, hNone.2, List.append_nil, List.append_nil,
      List.mem_reverse]
  refine ⟨fun f hf => ?_, fun v hv => exists_left_of_forall₂ hEncodes ((hIff v).mp hv)⟩
  obtain ⟨v, hv, hEncoded⟩ := exists_right_of_forall₂ hEncodes hf
  exact ⟨v, (hIff v).mpr hv, hEncoded⟩

theorem Session.IsBase.satisfies {base : List Term} (h : IsBase p label base) (hChecked : p.Checked)
    (hLists : Lists p M name) {keys : List String}
    (hPresents : Presents ⟨p, label, keys⟩ M name .singleState 0 s) (hs : IsState p s) :
    ∀ t ∈ base, M.Satisfies t := by
  intro t ht
  obtain ⟨f, hf, _, _, hEncodes⟩ := h.only t ht
  have hPresents' : Presents ⟨p, label, stepKeys 1⟩ M name .immutableOnly 0 s := by
    intro x hx hMention g hg
    have hSame := symbol_of_immutable ⟨p, label, keys⟩ ⟨p, label, stepKeys 1⟩ rfl
      (hMention rfl) 0 0
    exact hPresents x hx (fun hContext => by cases hContext) g (hSame.trans hg)
  have hTrue : p.Sorted .immutableOnly f ∧ f.HoldsIn s := by
    rcases List.mem_append.mp hf with hf | hf
    · obtain ⟨axiomatic, hIn, rfl⟩ := List.mem_map.mp hf
      exact ⟨hChecked.axiomatic _ hIn, hs.axiomatic _ hIn⟩
    · obtain ⟨x, hx, hDefinition⟩ := List.mem_filterMap.mp hf
      exact ⟨sorted_of_mem_definitions hChecked hf,
        hs.defined x (List.mem_filter.mp hx).1 f hDefinition⟩
  exact (satisfies_iff_holdsIn hLists hPresents' (by decide) hTrue.1 hEncodes).mpr hTrue.2

/-- In a structure that presents a state of a program, derived relations are what their definitions
say. -/
theorem Session.satisfies_of_definition {e : Encoding} (hChecked : e.program.Checked)
    (hLists : Lists e.program M name) {index : Nat}
    (hPresents : Presents e M name .singleState index s) (hs : IsState e.program s) {f : Formula}
    (hf : f ∈ definitions e.program true) {t : Term} (hEncodes : Encodes e f index t) :
    M.Satisfies t := by
  obtain ⟨x, hx, hDefinition⟩ := List.mem_filterMap.mp hf
  obtain ⟨hx, hMutable⟩ := List.mem_filter.mp hx
  obtain ⟨_, _, hEncodes⟩ := hEncodes
  have hSorted := (hChecked.symbols x hx).definition f hDefinition
  rw [beq_iff_eq.mp hMutable] at hSorted
  exact (satisfies_iff_holdsIn hLists hPresents (by decide) hSorted hEncodes).mpr
    (hs.defined x hx f hDefinition)

/-! ## Indicators -/

namespace SolverStructure

/-- Fresh constants are bound to truth values. -/
noncomputable def signed (M : SolverStructure) (signs : List (SolverConst × Prop)) : M.Binding :=
  signs.map fun sign => (sign.1.symbol, M.truthOf sign.2)

/-- Where fresh constants of different numbers are bound to truth values, they have these. -/
theorem satisfies_signed {signs : List (SolverConst × Prop)}
    (hNodup : (signs.map fun sign => sign.1.number).Nodup) {b : M.Binding} {n : Nat}
    (hb : Numbered b n) (hNumbers : ∀ sign ∈ signs, n ≤ sign.1.number) {sign : SolverConst × Prop}
    (hIn : sign ∈ signs) : (M.bindFresh (b ++ M.signed signs)).Satisfies sign.1.term ↔ sign.2 := by
  have hNone : b.lookup sign.1.symbol = none := by
    refine hb.lookup_eq_none fun k hk hNumber => ?_
    have hLess := hNumbers sign hIn
    have hEq : sign.1.number = k := Option.some.inj hNumber
    omega
  have hSigned : (M.signed signs).lookup sign.1.symbol = some (M.truthOf sign.2) := by
    refine lookup_eq_some_of_forall ⟨_, List.mem_map_of_mem hIn, rfl⟩ fun entry hEntry hEq => ?_
    obtain ⟨other, hOther, rfl⟩ := List.mem_map.mp hEntry
    have hNumber : other.1.number = sign.1.number :=
      Option.some.inj (congrArg SolverSymbol.number hEq)
    rw [List.inj_on_of_nodup_map hNodup hOther hIn hNumber]
  have hApply : (M.bindFresh (b ++ M.signed signs)).value [] sign.1.term = M.truthOf sign.2 :=
    bindFresh_bound (Option.some_ne_none _)
      (by rw [List.lookup_append, hNone, hSigned, Option.none_or]) []
  rw [Satisfies, hApply]
  exact truthOf_eq_true

end SolverStructure

/-! ## Answers -/

namespace Generalizer

variable {p : Program} {label : String} {query : Query}

/-- An answer settles its query, and is right about its terms. -/
def TrueVerdict (p : Program) (label : String) (ask : Query × Option Answer) : Prop :=
  ∃ verdict, ask.2 = some ⟨verdict, false⟩ ∧ verdict.outcome ≠ .unknown ∧
    ask.1.Truthful ⟨p, label, stepKeys ask.1.question.states⟩ verdict

theorem TrueVerdict.decisive {ask : Query × Option Answer}
    (h : TrueVerdict p label ask) : Decisive ask := by
  obtain ⟨verdict, hVerdict, hOutcome, -⟩ := h
  exact ⟨verdict, hVerdict, hOutcome⟩

theorem truthful_of_tells {record : List (Query × Option Answer)} {v : Verdict}
    (h : (Trust.since record (TrueVerdict p label) TrueVerdict.decisive).Tells query v) :
    query.Truthful ⟨p, label, stepKeys query.question.states⟩ v := by
  obtain ⟨_, _, hVerdict, -, hTruthful⟩ := h
  cases hVerdict
  exact hTruthful

theorem reads_of_trueVerdict (hProper : Proper p) (record : List (Query × Option Answer))
    {states : Nat} (hStates : 0 < states) :
    Reads (.since record (TrueVerdict p label) TrueVerdict.decisive)
      ⟨p, label, stepKeys states⟩ := by
  intro query m hTells hCount
  have hKeys : (stepKeys states).length = states := by simp [stepKeys]
  have hTrue := truthful_of_tells hTells
  rw [hCount, hKeys] at hTrue
  exact readModel_total hTrue.1 (hKeys.symm ▸ hStates) hProper.checked.symbols

end Generalizer

end InvariantSearch
