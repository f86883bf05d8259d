import InvariantSearch.Proofs.Meaning.Names
import InvariantSearch.Search.Subsumption

/-!
# The meaning of clauses

Learned predicates are clauses over the variables of diagrams.

* `Clause.Holds` — one of the disjuncts holds, whatever the values of the
  variables.
* `Clause.Closed` — a clause speaks of its variables and of symbols only, and
  these are different names.
* `Clause.WellNamed` — a clause has variables of diagrams and speaks of plain
  symbols only. The predicates of well-named diagrams are such clauses
  (`Diagram.WellNamed.clause`), and such clauses are closed.

Main results: `holds_of_subsumes` says that a closed clause implies those that
it subsumes, `exists_subsumes_of_mem` that what is sifted out of a frame is
subsumed by what stays, and `holds_of_siftFrame` that the frame means the same.
-/

namespace InvariantSearch

open List Formula Valuation Clause

variable {f : Formula} {i : Nat}

section Binding

variable {D : Domain} {P : Valuation D → Prop}

/-- A valuation has values of the right sorts for some variables. -/
def Valuation.Gives (w : Valuation D) (xs : List Var) : Prop :=
  ∀ x ∈ xs, ∃ a, w x.name = some (.element a) ∧ D.sort a = x.sort

theorem ForAllOf.apply {xs : List Var} {v w : Valuation D} (h : ForAllOf xs P v)
    (hw : w.Gives xs) : P fun n => if n ∈ xs.map Var.name then w n else v n := by
  induction xs generalizing v with
  | nil => exact h
  | cons x xs ih =>
    obtain ⟨a, ha, hSort⟩ := hw x mem_cons_self
    have hP := ih (h a hSort) fun y hy => hw y (mem_cons_of_mem x hy)
    convert hP using 2 with n
    by_cases hn : n ∈ xs.map Var.name
    · simp only [map_cons, mem_cons, hn, or_true, if_true]
    · by_cases hx : n = x.name
      · subst hx
        simp [hn, ha]
      · simp only [map_cons, mem_cons, hx, hn, or_self, if_false,
          bind_of_ne v a hx]

/-- To prove something for all values of some variables, one may take any values of the
right sorts, where equal names have equal sorts. -/
theorem forAllOf_of_gives {xs : List Var} {v : Valuation D}
    (hSorts : ∀ x ∈ xs, ∀ y ∈ xs, x.name = y.name → x.sort = y.sort)
    (h : ∀ w : Valuation D, w.Gives xs → (∀ n, n ∉ xs.map Var.name → w n = v n) → P w) :
    ForAllOf xs P v := by
  induction xs generalizing v with
  | nil => exact h v (by simp [Valuation.Gives]) fun _ _ => rfl
  | cons x xs ih =>
    intro a ha
    refine ih (fun y hy z hz => hSorts y (mem_cons_of_mem x hy) z
      (mem_cons_of_mem x hz)) fun w hw hOut => h w ?_ ?_
    · rintro y hy
      rcases mem_cons.mp hy with rfl | hy
      · by_cases hShadowed : y.name ∈ xs.map Var.name
        · obtain ⟨z, hz, hName⟩ := mem_map.mp hShadowed
          obtain ⟨b, hb, hSort⟩ := hw z hz
          exact ⟨b, hName ▸ hb, hSort.trans
            (hSorts z (mem_cons_of_mem y hz) y mem_cons_self hName)⟩
        · exact ⟨a, (hOut y.name hShadowed).trans (bind_self v y.name a), ha⟩
      · exact hw y hy
    · intro n hn
      rw [map_cons, mem_cons, not_or] at hn
      rw [hOut n hn.2, bind_of_ne v a hn.1]

end Binding

namespace Clause

variable {D : Domain} {p : Program} {σ : Nat → State D}

/-- One of the disjuncts holds at a position of a sequence of states, whatever the values of the
variables. -/
def Holds (c : Clause) (σ : Nat → State D) (i : Nat) : Prop :=
  ForAllOf c.vars (fun v => ∃ f ∈ c.disjuncts, f.Holds σ i v) .empty

theorem holds_disjunctsOf {v : Valuation D} :
    (∃ g ∈ disjunctsOf f, g.Holds σ i v) ↔ f.Holds σ i v := by
  unfold disjunctsOf
  split
  · exact holds_or.symm
  · simp

theorem holds_ofFormula : (ofFormula f).Holds σ i ↔ f.Holds σ i .empty := by
  unfold ofFormula
  split
  · simp only [Holds, holds_disjunctsOf, holds_all]
  · exact holds_disjunctsOf

/-- A clause speaks of its variables and of symbols only. No variable is called like a symbol, and
a name stands for one variable. -/
structure Closed (p : Program) (c : Clause) : Prop where
  sorts : ∀ x ∈ c.vars, ∀ y ∈ c.vars, x.name = y.name → x.sort = y.sort
  unknown : ∀ x ∈ c.vars, p.symbol? x.name = none
  names : ∀ f ∈ c.disjuncts, ∀ n, f.Uses (c.vars.map Var.name) n → ∃ x, p.symbol? n = some x

/-- **A clause implies every clause that it subsumes.** -/
theorem Closed.holds_of_subset {c d : Clause} (hc : c.Closed p) (hd : d.Closed p)
    (hVars : ∀ x ∈ c.vars, x ∈ d.vars) (hDisjuncts : ∀ f ∈ c.disjuncts, f ∈ d.disjuncts)
    (h : c.Holds σ i) : d.Holds σ i := by
  refine forAllOf_of_gives hd.sorts fun w hw hOut => ?_
  -- The values of the second clause's variables are values for the first one's.
  obtain ⟨f, hf, hHolds⟩ := ForAllOf.apply h (w := w) fun x hx => hw x (hVars x hx)
  refine ⟨f, hDisjuncts f hf, (holds_congr_valuation fun n hn => ?_).mp hHolds⟩
  by_cases hIn : n ∈ c.vars.map Var.name
  · rw [if_pos hIn]
  · rw [if_neg hIn]
    -- A name that is no variable of the first clause is a symbol, so the second one does
    -- not bind it either.
    obtain ⟨x, hSymbol⟩ := hc.names f hf n (hn.of_hidden fun h => absurd h hIn)
    refine (hOut n fun hBound => ?_).symm
    obtain ⟨y, hy, rfl⟩ := mem_map.mp hBound
    rw [hd.unknown y hy] at hSymbol
    cases hSymbol

/-- A clause has variables of diagrams, and speaks of them and of plain symbols only. -/
structure WellNamed (p : Program) (c : Clause) : Prop where
  vars : ∀ x ∈ c.vars, IsVariable p x
  names : ∀ f ∈ c.disjuncts, ∀ n, f.Uses (c.vars.map Var.name) n → IsPlain p n

theorem WellNamed.closed {c : Clause} (h : c.WellNamed p) : c.Closed p where
  sorts x hx y hy := (h.vars x hx).sort_eq (h.vars y hy)
  unknown x hx := (h.vars x hx).symbol?_eq_none
  names f hf n hn := by
    obtain ⟨x, hx, -⟩ := h.names f hf n hn
    exact ⟨x, hx⟩

theorem uses_disjunctsOf {hidden : List String} {n : String} :
    (∃ g ∈ disjunctsOf f, g.Uses hidden n) ↔ f.Uses hidden n := by
  unfold disjunctsOf
  split
  · rw [Formula.Uses, usesAny_iff]
  · simp

theorem WellNamed.isPlain_of_uses (h : (ofFormula f).WellNamed p) {n : String} (hn : f.Uses [] n) :
    IsPlain p n := by
  unfold ofFormula at h
  split at h
  · rw [Formula.Uses, append_nil] at hn
    obtain ⟨g, hg, hUse⟩ := uses_disjunctsOf.mpr hn
    exact h.names g hg n hUse
  · obtain ⟨g, hg, hUse⟩ := uses_disjunctsOf.mpr hn
    exact h.names g hg n hUse

end Clause

/-! ## Predicates of diagrams -/

/-- The clause of a disjunction of literals: its disjuncts, or `false` when there are
none. -/
theorem Clause.ofFormula_disj {fs : List Formula} (h : ∀ f ∈ fs, f.IsLiteral) :
    ofFormula (disj fs) = ⟨[], disjunctsOf (disj fs)⟩ ∧
      ∀ g ∈ disjunctsOf (disj fs), g ∈ fs ∨ g = .bool false := by
  match fs with
  | [] => exact ⟨rfl, fun g hg => Or.inr (mem_singleton.mp hg)⟩
  | [f] =>
    rw [disj]
    have hf := h f (mem_singleton.mpr rfl)
    -- A literal is neither quantified nor a disjunction.
    unfold ofFormula disjunctsOf
    cases f <;> first | exact hf.elim | exact ⟨rfl, fun g hg => Or.inl hg⟩
  | f :: f' :: fs => exact ⟨rfl, fun g hg => Or.inl hg⟩

theorem Formula.IsLiteral.complement (h : f.IsLiteral) : f.complement.IsLiteral := by
  match f, h with
  | .id _, _ | .app _ _, _ | .eq _ _, _ | .ne _ _, _ => trivial
  | .not (.id _), _ | .not (.app _ _), _ => trivial

/-- **The predicates of well-named diagrams are well-named clauses.** -/
theorem Diagram.WellNamed.clause {p : Program} {d : Diagram} (h : d.WellNamed p) :
    (ofFormula d.toPredicate).WellNamed p := by
  have hLiterals : ∀ f ∈ d.enabled.map (fun c => c.formula.complement), f.IsLiteral := by
    intro f hf
    obtain ⟨c, hc, rfl⟩ := mem_map.mp hf
    exact (h.literal c (mem_filter.mp hc).1).complement
  obtain ⟨hShape, hDisjuncts⟩ := ofFormula_disj hLiterals
  have hClause : (ofFormula d.toPredicate).vars = d.usedVars ∧
      ∀ g ∈ (ofFormula d.toPredicate).disjuncts,
        g ∈ d.enabled.map (fun c => c.formula.complement) ∨ g = .bool false := by
    rw [toPredicate, forAll]
    split
    · rename_i hEmpty
      rw [hShape]
      exact ⟨(isEmpty_iff.mp hEmpty).symm, hDisjuncts⟩
    · exact ⟨rfl, hDisjuncts⟩
  constructor
  · rw [hClause.1]
    exact fun x hx => h.vars x (mem_usedVars.mp hx).1
  · intro g hg n hn
    rw [hClause.1] at hn
    rcases hClause.2 g hg with hg | rfl
    · obtain ⟨c, hc, rfl⟩ := mem_map.mp hg
      rw [uses_complement] at hn
      refine h.names c (mem_filter.mp hc).1 n (hn.of_hidden fun hBound => ?_)
      -- A variable that the literal mentions is among the used ones.
      obtain ⟨x, hx, rfl⟩ := mem_map.mp hBound
      exact mem_map_of_mem (mem_usedVars.mpr
        ⟨hx, c.formula, mem_map_of_mem hc, hn.of_hidden (by simp)⟩)
    · rw [Formula.Uses] at hn
      exact hn.elim

/-! ## Subsumed predicates -/

section Sifting

variable {D : Domain} {p : Program} {g : Formula} {σ : Nat → State D} {rest : List Formula}

theorem subsumes_iff :
    subsumes f g = true ↔ (∀ x ∈ (ofFormula f).vars, x ∈ (ofFormula g).vars) ∧
      ∀ a ∈ (ofFormula f).disjuncts, a ∈ (ofFormula g).disjuncts := by
  simp [subsumes]

theorem subsumes_refl (f : Formula) : subsumes f f = true :=
  subsumes_iff.mpr ⟨fun _ h => h, fun _ h => h⟩

theorem subsumes_trans {h : Formula} (hfg : subsumes f g = true) (hgh : subsumes g h = true) :
    subsumes f h = true := by
  obtain ⟨hVars, hDisjuncts⟩ := subsumes_iff.mp hfg
  obtain ⟨hVars', hDisjuncts'⟩ := subsumes_iff.mp hgh
  exact subsumes_iff.mpr
    ⟨fun x hx => hVars' x (hVars x hx), fun a ha => hDisjuncts' a (hDisjuncts a ha)⟩

/-- **A predicate implies those that it subsumes.** -/
theorem holds_of_subsumes (hf : (ofFormula f).Closed p) (hg : (ofFormula g).Closed p)
    (hSubsumes : subsumes f g = true) (h : f.Holds σ i .empty) : g.Holds σ i .empty := by
  obtain ⟨hVars, hDisjuncts⟩ := subsumes_iff.mp hSubsumes
  rw [← holds_ofFormula] at h ⊢
  exact hf.holds_of_subset hg hVars hDisjuncts h

theorem siftFrame_sublist (next kept rest : List Formula) :
    (siftFrame next kept rest).Sublist (kept ++ rest) := by
  induction rest generalizing kept with
  | nil => rw [siftFrame, append_nil]
  | cons f rest ih =>
    rw [siftFrame]
    split
    · exact (ih kept).trans (Sublist.append_left (sublist_cons_self f rest) kept)
    · have h := ih (kept ++ [f])
      rwa [append_assoc, singleton_append] at h

theorem mem_siftFrame_of_mem {next kept : List Formula} (h : f ∈ kept ∨ f ∈ rest ∧ f ∈ next) :
    f ∈ siftFrame next kept rest := by
  induction rest generalizing kept with
  | nil =>
    rw [siftFrame]
    exact h.elim (fun h => h) fun h => absurd h.1 not_mem_nil
  | cons g rest ih =>
    rw [siftFrame]
    split
    · rename_i hDrop
      refine ih (h.imp_right fun ⟨hf, hNext⟩ => ⟨?_, hNext⟩)
      -- A predicate of the next frame is not dropped.
      rcases mem_cons.mp hf with rfl | hf
      · simp [hNext] at hDrop
      · exact hf
    · apply ih
      rcases h with h | ⟨hf, hNext⟩
      · exact Or.inl (mem_append_left _ h)
      · rcases mem_cons.mp hf with rfl | hf
        · exact Or.inl (mem_append_right _ (mem_singleton.mpr rfl))
        · exact Or.inr ⟨hf, hNext⟩

/-- **What a frame loses is subsumed by something that it keeps.** -/
theorem exists_subsumes_of_mem (next kept : List Formula) (hf : f ∈ kept ++ rest) :
    ∃ g ∈ siftFrame next kept rest, subsumes g f = true := by
  induction rest generalizing kept f with
  | nil =>
    rw [append_nil] at hf
    rw [siftFrame]
    exact ⟨f, hf, subsumes_refl f⟩
  | cons h rest ih =>
    rw [siftFrame]
    split
    · rename_i hDrop
      by_cases hIn : f ∈ kept ++ rest
      · exact ih kept hIn
      · -- The one that is dropped is subsumed by another, which need not stay itself.
        obtain rfl : f = h := by
          simp only [mem_append, mem_cons] at hf hIn
          tauto
        obtain ⟨g, hg, hSubsumes⟩ := any_eq_true.mp (Bool.and_eq_true_iff.mp hDrop).2
        obtain ⟨g', hg', hSubsumes'⟩ := ih kept hg
        exact ⟨g', hg', subsumes_trans hSubsumes' hSubsumes⟩
    · apply ih
      rwa [append_assoc, singleton_append]

/-- **A frame means the same without its subsumed predicates.** -/
theorem holds_of_siftFrame {next frame : List Formula}
    (hClosed : ∀ f ∈ frame, (ofFormula f).Closed p)
    (h : ∀ f ∈ siftFrame next [] frame, f.Holds σ i .empty) : ∀ f ∈ frame, f.Holds σ i .empty := by
  intro f hf
  obtain ⟨g, hg, hSubsumes⟩ := exists_subsumes_of_mem next [] hf
  have hOld : g ∈ frame := (siftFrame_sublist next [] frame).subset hg
  exact holds_of_subsumes (hClosed g hOld) (hClosed f hf) hSubsumes (h g hg)

end Sifting

end InvariantSearch
