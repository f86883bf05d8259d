import InvariantSearch.Proofs.Meaning.Formula

/-!
# The meaning of substitution

* `Captures` — a formula binds an identifier that is free in what is put in.
* `Valuation.put` — identifiers have the values of the formulas that are put for them.

Main result: `substitution_lemma` says that a formula with others put in has the value that the
formula has where the identifiers have the values of the others, and that nothing but free
identifiers is replaced.
-/

namespace InvariantSearch

open List Formula

/-- The identifiers have the values of what is put for them. -/
noncomputable def Valuation.put {D : Domain} (v : Valuation D) (s : Substitution)
    (σ : Nat → State D) (i : Nat) : Valuation D :=
  fun n => match s.lookup n with
    | some g => some (g.value σ i v)
    | none => v n

namespace Formula

/-- A quantifier binds an identifier that is free in what is put in. -/
def Captures (s : Substitution) (f : Formula) : Prop :=
  ∃ x ∈ f.boundVars, ∃ entry ∈ s, entry.2.Free x.name

/-- What is put in does not depend on the identifiers that are bound, if none is captured. -/
theorem fixed_of_not_captures {D : Domain} {f : Formula} {s : Substitution} (h : ¬ f.Captures s)
    (σ : Nat → State D) : ∀ x ∈ f.boundVars, s.Fixed σ x.name := by
  intro x hx entry hEntry k v a
  refine value_congr _ ⟨fun _ _ _ => rfl, fun n hFree _ l _ => ?_⟩
  have hNe : n ≠ x.name := fun hName => h ⟨x, hx, entry, hEntry, hName ▸ hFree⟩
  rw [substitute_nil, value, value, Valuation.bind_of_ne _ _ hNe]

/-- **The substitution lemma.** A formula without `new`, no quantifier of which binds what is free
in the formulas put in, has with them the value that it has where the identifiers have their
values. Only free identifiers are replaced: what is applied or bound stays, and where nothing is
put for a free identifier, so does the formula. -/
theorem substitution_lemma (f : Formula) (s : Substitution) :
    (f.newDepth = 0 → ¬ f.Captures s → ∀ (D : Domain) (σ : Nat → State D) (i : Nat)
      (v : Valuation D), (f.substitute s).value σ i v = f.value σ i (v.put s σ i)) ∧
    (∀ s' : Substitution, (∀ n, f.Free n → s'.lookup n = s.lookup n) →
      f.substitute s' = f.substitute s) ∧
    ((∀ entry ∈ s, ¬ f.Free entry.1) → f.substitute s = f) := by
  refine ⟨fun hNew hCaptures D σ i v => ?_, fun s' => substitute_congr f, fun h => ?_⟩
  · refine value_substitute f (fixed_of_not_captures hCaptures σ)
      ⟨fun _ _ _ => rfl, fun n _ _ k hk => ?_⟩
    obtain rfl : k = 0 := by omega
    rw [substitute, value, Valuation.put]
    cases s.lookup n with
    | none => rw [Option.getD_none, value]
    | some g => rfl
  · refine (substitute_congr f fun n hn => ?_).trans (substitute_nil f)
    refine lookup_eq_none_iff.mpr fun entry hEntry => ?_
    have hNe : n ≠ entry.1 := fun hName => h entry hEntry (hName ▸ hn)
    exact bne_iff_ne.mpr hNe

theorem substitution_lemma_below_binder :
    let f : Formula := .all [⟨"x", "a"⟩] (.app "r" [.id "x", .id "y"])
    let s : Substitution := [("x", .id "y"), ("r", .id "y"), ("y", .id "z")]
    f.newDepth = 0 ∧ ¬ f.Captures s ∧
    (∀ (D : Domain) (σ : Nat → State D) (v : Valuation D),
      (f.substitute s).value σ 0 v = f.value σ 0 (v.put s σ 0)) ∧
    f.substitute s = .all [⟨"x", "a"⟩] (.app "r" [.id "x", .id "z"]) ∧
    f.substitute [("x", .id "y")] = f := by
  intro f s
  have hNew : f.newDepth = 0 := by decide
  have hCaptures : ¬ f.Captures s := by
    simp [f, s, Captures, boundVars, parts, partsOfAll, bound]
  refine ⟨hNew, hCaptures, fun D σ => (substitution_lemma f s).1 hNew hCaptures D σ 0, rfl,
    (substitution_lemma f _).2.2 fun entry hEntry => ?_⟩
  rw [mem_singleton.mp hEntry, free_iff]
  simp [f, bound]

end Formula

end InvariantSearch
