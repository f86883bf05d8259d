import InvariantSearch.Proofs.Search.Moves

/-!
# Names in diagrams

Whatever is made of a diagram can be encoded if the diagram can, and the diagrams of traces
can. Binders are cut down to the variables that are used, and constants are put for
variables, so it takes an argument that no name loses its meaning on the way.

Main results: `Diagram.Resolves.toFormula`, `Diagram.Resolves.toPredicate` and
`Diagram.Depicts.resolves`.
-/

namespace InvariantSearch

open List

variable {fs : List Formula} {vars : List Var} {f : Formula} {s : Substitution} {c : Conjunct}

namespace Formula

variable {p : Program} {names names' : List String}

/-! ## Formulas made of others -/

theorem resolves_conj (h : ∀ f ∈ fs, f.Resolves p names) : (conj fs).Resolves p names := by
  unfold conj
  split
  · exact .bool true
  · exact h _ mem_cons_self
  · exact .and h

theorem resolves_disj (h : ∀ f ∈ fs, f.Resolves p names) : (disj fs).Resolves p names := by
  unfold disj
  split
  · exact .bool false
  · exact h _ mem_cons_self
  · exact .or h

theorem resolves_forAll (hVars : ∀ x ∈ vars, p.hasSort x.sort = true)
    (h : f.Resolves p (vars.map Var.name ++ names)) : (forAll vars f).Resolves p names := by
  cases vars with
  | nil => exact h
  | cons x vars => exact .all hVars h

theorem resolves_thereIs (hVars : ∀ x ∈ vars, p.hasSort x.sort = true)
    (h : f.Resolves p (vars.map Var.name ++ names)) : (thereIs vars f).Resolves p names := by
  cases vars with
  | nil => exact h
  | cons x vars => exact .ex hVars h

theorem resolves_apply {s : Symbol} {args : List Formula} (hs : p.symbol? s.name = some s)
    (hArity : s.arity = args.length) (hArgs : ∀ a ∈ args, a.Resolves p names) :
    (apply s.name args).Resolves p names := by
  cases args with
  | nil => exact .symbol hs
  | cons a args => exact .app hs hArity hArgs

theorem Resolves.complement (h : f.Resolves p names) : f.complement.Resolves p names := by
  unfold Formula.complement
  split
  · cases h with
    | not ha => exact ha
  · cases h with
    | eq ha hb => exact .ne ha hb
  · cases h with
    | ne ha hb => exact .eq ha hb
  · exact .bool _
  · exact .not h

/-! ## Names of the parts -/

/-- What it takes to resolve a formula whose children resolve. -/
def HeadResolves (p : Program) (names : List String) : Formula → Prop
  | .id x => x ∈ names ∨ ∃ y, p.symbol? x = some y
  | .app x args => ∃ y, p.symbol? x = some y ∧ y.arity = args.length
  | .new _ => False
  | f => ∀ x ∈ f.bound, p.hasSort x.sort = true

theorem resolves_iff_children :
    f.Resolves p names ↔ f.HeadResolves p names ∧
      ∀ c ∈ f.children, c.Resolves p (f.bound.map Var.name ++ names) := by
  constructor
  · intro h
    cases h with
    | bound hx => exact ⟨.inl hx, by simp [children]⟩
    | symbol hx => exact ⟨.inr ⟨_, hx⟩, by simp [children]⟩
    | app hx hArity hArgs => exact ⟨⟨_, hx, hArity⟩, hArgs⟩
    | _ => simp_all [HeadResolves, children, bound]
  · rintro ⟨hHead, h⟩
    cases f with
    | bool value => exact .bool value
    | id x => exact hHead.elim .bound fun hSymbol => hSymbol.elim fun _ hx => .symbol hx
    | app x args => exact hHead.elim fun _ hx => .app hx.1 hx.2 h
    | new a => exact hHead.elim
    | not a => exact .not (h a mem_cons_self)
    | and parts => exact .and h
    | or parts => exact .or h
    | imp a b => exact .imp (h a mem_cons_self) (h b (by simp [children]))
    | iff a b => exact .iff (h a mem_cons_self) (h b (by simp [children]))
    | eq a b => exact .eq (h a mem_cons_self) (h b (by simp [children]))
    | ne a b => exact .ne (h a mem_cons_self) (h b (by simp [children]))
    | ite a b c =>
      exact .ite (h a mem_cons_self) (h b (by simp [children])) (h c (by simp [children]))
    | all vars a => exact .all hHead (h a mem_cons_self)
    | ex vars a => exact .ex hHead (h a mem_cons_self)

/-- A formula resolves as well with the names alone that it uses. Binders that are passed hide
some. -/
theorem Resolves.of_uses (h : f.Resolves p names) (hidden : List String)
    (hHidden : ∀ x ∈ hidden, x ∈ names') (hUses : ∀ x ∈ names, f.Uses hidden x → x ∈ names') :
    f.Resolves p names' := by
  induction f using of_children generalizing hidden names names' with
  | step f ih =>
    obtain ⟨hHead, hChildren⟩ := resolves_iff_children.mp h
    refine resolves_iff_children.mpr ⟨?_, fun c hc => ih c hc (hChildren c hc)
      (f.bound.map Var.name ++ hidden) (fun x hx => ?_) fun x hx hUse => ?_⟩
    · cases f with
      | id x =>
        refine hHead.imp_left fun hx => ?_
        by_cases hIn : x ∈ hidden
        · exact hHidden x hIn
        · exact hUses x hx ⟨rfl, hIn⟩
      | _ => exact hHead
    · exact mem_append.mpr ((mem_append.mp hx).imp_right (hHidden x))
    · exact mem_append.mpr ((mem_append.mp hx).imp_right fun hx =>
        hUses x hx (uses_iff_children.mpr (.inr (.inr ⟨c, hc, hUse⟩))))

/-! ## Substitution -/

/-- Names are in scope, or something is put for them that resolves. -/
structure Covers (p : Program) (s : Substitution) (names names' : List String) : Prop where
  entries : ∀ entry ∈ s, entry.2.Resolves p names'
  others : ∀ x ∈ names, x ∈ s.map Prod.fst ∨ x ∈ names'

theorem Covers.under (h : Covers p s names names') (vars : List Var) :
    Covers p (s.under vars) (vars.map Var.name ++ names) (vars.map Var.name ++ names') := by
  refine ⟨fun entry hEntry => ?_, fun x hx => ?_⟩
  · exact (h.entries entry (mem_filter.mp hEntry).1).of_uses [] (fun x hx => (by cases hx))
      fun x hx _ => mem_append_right _ hx
  · by_cases hBound : x ∈ vars.map Var.name
    · exact Or.inr (mem_append_left _ hBound)
    · refine (h.others x ((mem_append.mp hx).resolve_left hBound)).imp (fun hIn => ?_)
        (mem_append_right _)
      obtain ⟨entry, hEntry, rfl⟩ := mem_map.mp hIn
      refine mem_map_of_mem (mem_filter.mpr ⟨hEntry, ?_⟩)
      simpa using hBound

/-- **Substitution leaves no name without a meaning.** -/
theorem Resolves.substitute (h : f.Resolves p names) (hs : Covers p s names names') :
    (f.substitute s).Resolves p names' := by
  induction f using of_children generalizing s names names' with
  | step f ih =>
    obtain ⟨hHead, hChildren⟩ := resolves_iff_children.mp h
    by_cases hId : ∃ x, f = .id x
    · obtain ⟨x, rfl⟩ := hId
      rw [Formula.substitute]
      cases hLookup : s.lookup x with
      | some g => exact hs.entries _ (mem_of_lookup hLookup)
      | none =>
        rcases hHead with hx | ⟨y, hy⟩
        · refine .bound ((hs.others x hx).resolve_left fun hIn => ?_)
          obtain ⟨entry, hEntry, rfl⟩ := mem_map.mp hIn
          simpa using lookup_eq_none_iff.mp hLookup entry hEntry
        · exact .symbol hy
    · obtain ⟨hBound, hSame, -⟩ := (f.substitute_cases s).resolve_left hId
      refine resolves_iff_children.mpr ⟨?_, fun a ha => ?_⟩
      · cases f <;> simp_all [HeadResolves, Formula.substitute, substituteList_eq_map]
      · rw [hSame] at ha
        obtain ⟨c, hc, rfl⟩ := mem_map.mp ha
        rw [hBound]
        exact ih c hc (hChildren c hc) (hs.under _)

end Formula

namespace Diagram

open Formula

variable {p : Program} {d : Diagram}

/-! ## What is made of a diagram -/

theorem Resolves.enabled (h : d.Resolves p) (hc : c ∈ d.enabled) :
    c.formula.Resolves p (d.usedVars.map Var.name ++ []) := by
  refine (h.conjuncts c (mem_filter.mp hc).1).of_uses []
    (fun _ hx => by cases hx) fun x hx hUse => ?_
  obtain ⟨y, hy, rfl⟩ := mem_map.mp hx
  rw [append_nil]
  exact mem_map_of_mem (mem_usedVars.mpr ⟨hy, _, mem_map_of_mem hc, hUse⟩)

theorem Resolves.usedVars (h : d.Resolves p) : ∀ x ∈ d.usedVars, p.hasSort x.sort = true :=
  fun x hx => h.vars x (mem_usedVars.mp hx).1

theorem Resolves.toFormula (h : d.Resolves p) : d.toFormula.Resolves p [] := by
  refine resolves_thereIs h.usedVars (resolves_conj fun f hf => ?_)
  obtain ⟨c, hc, rfl⟩ := mem_map.mp hf
  exact h.enabled hc

theorem Resolves.toPredicate (h : d.Resolves p) : d.toPredicate.Resolves p [] := by
  refine resolves_forAll h.usedVars (resolves_disj fun f hf => ?_)
  obtain ⟨c, hc, rfl⟩ := mem_map.mp hf
  exact (h.enabled hc).complement

/-! ## Diagrams of traces -/

theorem Origin.resolves {t : Trace} {named : List (String × Var)} (h : Origin p t named c) :
    c.formula.Resolves p ((named.map Prod.snd).map Var.name) := by
  have hBound : ∀ {x : Var}, x ∈ named.map Prod.snd →
      (Formula.id x.name).Resolves p ((named.map Prod.snd).map Var.name) :=
    fun hx => .bound (mem_map_of_mem hx)
  cases h with
  | distinct hx hy hc =>
    subst hc
    exact .ne (hBound hx) (hBound hy)
  | @entry i s entry hi hs hName hDerived hEntry hArity hc =>
    have hApplication : ∀ {xs : List Var},
        Forall₂ (fun e x => (e, x) ∈ named) entry.1 xs →
        (apply s.name (xs.map fun x => .id x.name)).Resolves p
          ((named.map Prod.snd).map Var.name) := by
      intro xs hxs
      refine resolves_apply hs ?_ fun a ha => ?_
      · rw [length_map, ← hxs.length_eq, hArity]
        rfl
      · obtain ⟨x, hx, rfl⟩ := mem_map.mp ha
        exact hBound (mem_vars_of_forall₂ hxs x hx)
    cases hc with
    | relation hxs =>
      dsimp only
      split
      · exact hApplication hxs
      · exact .not (hApplication hxs)
    | equation hxs hy =>
      exact .eq (hApplication hxs) (hBound (mem_map_of_mem (f := Prod.snd) hy))

theorem Resolves.simplifyConstants (h : d.Resolves p)
    (hNamed : ∀ entry ∈ d.constantNames, ∃ k, entry.2 = .id k ∧ IsPlain p k) :
    d.simplifyConstants.Resolves p := by
  refine ⟨fun x hx => ?_, fun c hc => ?_⟩
  · rw [vars_simplifyConstants] at hx
    exact h.vars x (mem_filter.mp hx).1
  · obtain ⟨c', hc', rfl⟩ := mem_simplifyConstants hc
    refine (h.conjuncts c' hc').substitute ⟨fun entry hEntry => ?_, fun n hn => ?_⟩
    · obtain ⟨k, hk, s, hs, -⟩ := hNamed entry hEntry
      rw [hk]
      exact .symbol hs
    · obtain ⟨x, hx, rfl⟩ := mem_map.mp hn
      exact (replaced_or_kept hx).imp_right mem_map_of_mem

/-- **The diagrams of traces resolve**, simplified or not. -/
theorem Depicts.resolves (h : d.Depicts p) (hNodup : (p.symbols.map Symbol.name).Nodup) :
    d.Resolves p := by
  obtain ⟨t, index, simplify, hFits, hDiagram⟩ := h
  obtain ⟨named, cs, hNamed, hOrigin, rfl⟩ := ofTrace_eq_ok hFits hNodup hDiagram
  have hResolves : Diagram.Resolves p ⟨named.map Prod.snd, cs⟩ := by
    refine ⟨fun x hx => ?_, fun c hc => (hOrigin c hc).resolves⟩
    obtain ⟨sort, hSort, i, rfl⟩ := isVariable_of_named hFits hNamed x hx
    exact contains_iff_mem.mpr hSort
  cases simplify
  · exact hResolves
  · exact hResolves.simplifyConstants (constantNames_plain fun c hc => (hOrigin c hc).speaks)

end Diagram

end InvariantSearch
