import InvariantSearch.Proofs.Session.Conversations

/-!
# How a session starts

A session starts by asserting the axioms of its program and the definitions of
immutable derived relations, and asks nothing. So what is asserted depends on the
program, the label and the first number only, and two sessions of a program that start
at the same number assert the same terms.

* `Session.Asserts` — a session asserts some terms in its innermost scope, and asks
  nothing.
* `Session.standing` — the formulas that hold in all states.

Main results: `eq_of_start` says what is asserted at the start, and `start_again` that a
session of a program can be started whenever another one could.
-/

namespace InvariantSearch

variable {f : Formula} {n : Nat} {fs : List Formula} {prover : Prover}

namespace Session

variable {terms : List Term} {index : Nat} {term : Term} {e : Encoding} {s t : Session}
  {p : Program} {label : String}

/-- A session goes on without asking, and asserts some more terms in the innermost scope. -/
structure Asserts (s : Session) (terms : List Term) (t : Session) : Prop where
  program : t.program = s.program
  label : t.label = s.label
  idle : s.prover.Idle t.prover
  adds : s.prover.Adds terms t.prover

theorem Asserts.of_eq (hProgram : t.program = s.program) (hLabel : t.label = s.label)
    (hIdle : s.prover.Idle t.prover) (hForce : t.prover.inForce = s.prover.inForce) :
    s.Asserts [] t :=
  ⟨hProgram, hLabel, hIdle, Prover.adds_nil hForce⟩

theorem Asserts.trans {terms' : List Term} {u : Session} (h : s.Asserts terms t)
    (h' : t.Asserts terms' u) : s.Asserts (terms ++ terms') u :=
  ⟨h'.program.trans h.program, h'.label.trans h.label, h.idle.trans h'.idle,
    h.adds.trans h'.adds⟩

theorem Asserts.inForce_base (h : s.Asserts terms t) (hScopes : s.prover.scopes = []) :
    t.prover.inForce = [terms.reverse ++ s.prover.base] := by
  obtain ⟨scope, scopes, hs, ht⟩ := h.adds
  have hBase : s.prover.inForce = [s.prover.base] := by rw [Prover.inForce, hScopes]; rfl
  obtain ⟨rfl, rfl⟩ := List.cons.inj (hs.symm.trans hBase)
  exact ht

theorem logging_eq_ok {f : Log → Log} (hf : Log.Calm f) (h : logging f s = .ok () t) :
    t.prover.fresh = s.prover.fresh ∧ s.Asserts [] t := by
  cases h
  have hSame := Prover.same_logging hf s.prover
  exact ⟨rfl, .of_eq rfl rfl hSame.toIdle hSame.inForce⟩

/-! ## Encoding -/

theorem lowering_eq_ok {act : Fresh Term} {f : Term → Log → Log} (hf : ∀ term, Log.Calm (f term))
    (h : (do
      let term ← encoding act
      logging (f term)
      return term : SessionM Term) s = .ok term t) :
    act s.prover.fresh = .ok term t.prover.fresh ∧ s.Asserts [] t := by
  obtain ⟨a, u, hEncode, hLog⟩ := run_bind_eq_ok.mp h
  unfold encoding at hEncode
  cases hRun : act s.prover.fresh with
  | error fault n =>
    rw [hRun] at hEncode
    cases hEncode
  | ok b n =>
    rw [hRun] at hEncode
    cases hEncode
    obtain ⟨_, v, hWrite, hPure⟩ := run_bind_eq_ok.mp hLog
    obtain ⟨rfl, rfl⟩ := run_pure_eq_ok.mp hPure
    obtain ⟨hFresh, hAsserts⟩ := logging_eq_ok (hf _) hWrite
    have hNumbers : s.Asserts [] { s with prover := { s.prover with fresh := n } } :=
      .of_eq rfl rfl ⟨rfl, rfl, rfl, rfl, rfl, rfl, rfl, rfl, rfl⟩ rfl
    rw [hFresh]
    exact ⟨rfl, hNumbers.trans hAsserts⟩

theorem encode_eq_ok (h : encode e f index s = .ok term t) :
    e.encode f index [] s.prover.fresh = .ok term t.prover.fresh ∧ s.Asserts [] t :=
  lowering_eq_ok (fun _ => Log.calm_framedEntry _ _) h

theorem exists_encode (h : e.encode f index [] s.prover.fresh = .ok term n) :
    ∃ t, encode e f index s = .ok term t ∧ t.prover.fresh = n := by
  have hEncode : encoding (e.encode f index []) s =
      .ok term { s with prover := { s.prover with fresh := n } } := by
    unfold encoding
    rw [h]
  exact ⟨_, run_bind_eq_ok.mpr ⟨_, _, hEncode, rfl⟩, rfl⟩

theorem mapM_encode_eq_ok (h : fs.mapM (fun f => encode e f index) s = .ok terms t) :
    fs.mapM (fun f => e.encode f index []) s.prover.fresh = .ok terms t.prover.fresh ∧
      s.Asserts [] t := by
  induction fs generalizing s terms with
  | nil =>
    cases h
    exact ⟨rfl, .of_eq rfl rfl (.refl _) rfl⟩
  | cons f fs ih =>
    rw [List.mapM_cons] at h ⊢
    obtain ⟨term, u, hFirst, hRest⟩ := run_bind_eq_ok.mp h
    obtain ⟨rest, v, hRest, hPure⟩ := run_bind_eq_ok.mp hRest
    cases hPure
    obtain ⟨hEncode, hu⟩ := encode_eq_ok hFirst
    obtain ⟨hEncodes, hv⟩ := ih hRest
    refine ⟨run_bind_eq_ok.mpr ⟨_, _, hEncode, run_bind_eq_ok.mpr ⟨_, _, hEncodes, rfl⟩⟩, ?_⟩
    exact hu.trans hv

theorem exists_mapM_encode (h : fs.mapM (fun f => e.encode f index []) s.prover.fresh = .ok terms n) :
    ∃ t, fs.mapM (fun f => encode e f index) s = .ok terms t := by
  induction fs generalizing s terms with
  | nil =>
    cases h
    exact ⟨s, rfl⟩
  | cons f fs ih =>
    rw [List.mapM_cons] at h ⊢
    obtain ⟨term, k, hFirst, hRest⟩ := run_bind_eq_ok.mp h
    obtain ⟨rest, l, hRest, hPure⟩ := run_bind_eq_ok.mp hRest
    cases hPure
    obtain ⟨u, hu, rfl⟩ := exists_encode hFirst
    obtain ⟨v, hv⟩ := ih hRest
    exact ⟨v, run_bind_eq_ok.mpr ⟨_, _, hu, run_bind_eq_ok.mpr ⟨_, _, hv, rfl⟩⟩⟩

/-! ## Asserting -/

theorem assert_eq_ok (term : Term) (s : Session) :
    ∃ t, assert term s = .ok () t ∧ t.prover.fresh = s.prover.fresh ∧ s.Asserts [term] t := by
  have hLogged : ∀ f : Log → Log, Log.Calm f → ∃ t, (proving do
      Prover.logging f
      Prover.record (.assert term)
      modify (Prover.assertIn term)) s = .ok () t ∧ t.prover.fresh = s.prover.fresh ∧
        s.Asserts [term] t := by
    intro f hf
    let told : Prover :=
      { s.prover with log := f s.prover.log, events := .assert term :: s.prover.events }
    have hTold : s.prover.Idle told := ⟨rfl, rfl, rfl, rfl, rfl, rfl, rfl, hf _, rfl⟩
    exact ⟨{ s with prover := Prover.assertIn term told }, rfl, Prover.fresh_assertIn term told,
      rfl, rfl, hTold.trans (Prover.idle_assertIn term told),
      (Prover.adds_assertIn term told).after rfl⟩
  exact hLogged _ (Log.calm_framedEntry _ _)

theorem assertAll_eq_ok (terms : List Term) (s : Session) :
    ∃ t, assertAll terms s = .ok () t ∧ t.prover.fresh = s.prover.fresh ∧ s.Asserts terms t := by
  induction terms generalizing s with
  | nil => exact ⟨s, rfl, rfl, .of_eq rfl rfl (.refl _) rfl⟩
  | cons term terms ih =>
    obtain ⟨u, hAssert, hFresh, hu⟩ := assert_eq_ok term s
    obtain ⟨t, hRest, hFresh', ht⟩ := ih u
    exact ⟨t, run_bind_eq_ok.mpr ⟨_, _, hAssert, hRest⟩, hFresh'.trans hFresh, hu.trans ht⟩

theorem asserts_of_assertAll (h : assertAll terms s = .ok () t) :
    t.prover.fresh = s.prover.fresh ∧ s.Asserts terms t := by
  obtain ⟨u, hu, hFresh, hAsserts⟩ := assertAll_eq_ok terms s
  obtain rfl : u = t := by
    have hSame := hu.symm.trans h
    cases hSame
    rfl
  exact ⟨hFresh, hAsserts⟩

/-! ## Starting -/

/-- What holds in all states of a program: its axioms, and the definitions of immutable derived
relations. -/
def standing (p : Program) : List Formula :=
  p.axioms.map NamedFormula.formula ++ definitions p false

/-- **What is asserted when a session starts**: the formulas that hold in all states. -/
theorem eq_of_start (h : start p label prover = .ok () s) :
    p.validated = true ∧ ∃ terms,
      (standing p).mapM (fun f => Encoding.encode ⟨p, label, stepKeys 1⟩ f 0 []) prover.fresh =
        .ok terms s.prover.fresh ∧
      Asserts ⟨p, label, prover, []⟩ terms s := by
  rw [start] at h
  split at h
  · rename_i hValidated
    refine ⟨hValidated, ?_⟩
    obtain ⟨e, t, hKeys, h⟩ := run_bind_eq_ok.mp h
    cases hKeys
    obtain ⟨terms, u, hTerms, hAssert⟩ := run_bind_eq_ok.mp h
    obtain ⟨hEncodes, hu⟩ := mapM_encode_eq_ok hTerms
    obtain ⟨hFresh, hAsserts⟩ := asserts_of_assertAll hAssert
    have hAll := hu.trans hAsserts
    exact ⟨terms, hFresh ▸ hEncodes, hAll.program, hAll.label, hAll.idle, hAll.adds⟩
  · cases h

/-- What a session asserts at its start is alike term by term, if the constants that it makes are
paired with themselves. -/
theorem standing_alike {stop : Nat} {R : Nat → Nat → Prop}
    (h : (standing p).mapM (fun f => Encoding.encode ⟨p, label, stepKeys 1⟩ f 0 []) 0 = .ok terms
      stop) (hR : ∀ k < stop, R k k) : List.Forall₂ (Term.Alike R) terms terms := by
  have hPairs : ∀ k k', Encoding.extend (fun _ _ => False) 0 0 stop k k' → R k k' := by
    rintro k k' (hk | ⟨-, hk, hStep⟩)
    · exact hk.elim
    · obtain rfl : k = k' := by omega
      exact hR k hk
  have hMapM : (Encoding.numbering 0 0).Ensures
      ((standing p).mapM fun f => Encoding.encode ⟨p, label, stepKeys 1⟩ f 0 [])
      ((standing p).mapM fun f => Encoding.encode ⟨p, label, stepKeys 1⟩ f 0 []) 0 0
      (fun ts ts' stop _ =>
        List.Forall₂ (Term.Alike (Encoding.extend (fun _ _ => False) 0 0 stop)) ts ts') :=
    Pairing.ensures_mapM (fun _ _ _ _ _ _ hLe ht => ht.mono (Encoding.extend_mono hLe))
    (List.forall₂_same.mpr fun (f : Formula) (_ : f ∈ standing p) n n' =>
      Encoding.encode_alike (e := ⟨p, label, stepKeys 1⟩) (.nil : Encoding.ScopeAlike _ [] []) f 0)
  have hEnds := hMapM ⟨Nat.le_refl 0, rfl⟩
  rw [h] at hEnds
  exact hEnds.2.2.imp fun _ _ ht => ht.mono hPairs

theorem start_again (h : start p label prover = .ok () s) (prover' : Prover)
    (hFresh : prover'.fresh = prover.fresh) : ∃ s', start p label prover' = .ok () s' := by
  obtain ⟨hValidated, terms, hTerms, -⟩ := eq_of_start h
  rw [start, if_pos hValidated]
  have hKeys : overSteps 1 (⟨p, label, prover', []⟩ : Session) =
      .ok ⟨p, label, stepKeys 1⟩ ⟨p, label, prover', [stepKeys 1]⟩ := rfl
  obtain ⟨t, ht⟩ := exists_mapM_encode (s := ⟨p, label, prover', [stepKeys 1]⟩) (hFresh ▸ hTerms)
  obtain ⟨u, hu, -⟩ := assertAll_eq_ok terms t
  exact ⟨u, run_bind_eq_ok.mpr ⟨_, _, hKeys, run_bind_eq_ok.mpr ⟨_, _, ht, hu⟩⟩⟩

end Session

end InvariantSearch
