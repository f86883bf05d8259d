import InvariantSearch.Proofs.Encoding.Structures
import InvariantSearch.Proofs.Meaning.Tables

/-!
# Constants in diagrams

A diagram is simplified by putting constants for the variables that they name. It may have been
worked over before: literals switched on or off, and constants put in already.

* `Trace.Sorted` — no element of a trace is listed for two sorts, and constants have values of
  their sorts.
* `Diagram.Reworked` — a diagram that was made of another one in several steps.
* `Diagram.Flat` — what all these diagrams have in common: their literals apply symbols to names,
  and the literals about constants equate them with variables or constants of the same sort.
* `Diagram.IsFlat.holds_substitute` — a literal with names put in says what it says where the old
  names have the values of the new ones.

Main result: `Diagram.simplifyConstants_of_reworked` says what becomes of a diagram that is
simplified once more. Its variables go as they should, but equations between two constants are
not kept: they are taken for equations with variables, and are lost
(`Diagram.equated_constants_forgotten`).
-/

namespace InvariantSearch

open List Formula

variable {f g : Formula} {n : String} {x : Var} {d' : Diagram}

/-- A trace of a program in which no element is listed for two sorts, and the value of a constant
is listed for its sort. -/
structure Trace.Sorted (p : Program) (t : Trace) : Prop where
  fits : t.Fits p
  apart : ∀ u ∈ t.universes, ∀ u' ∈ t.universes, ∀ e ∈ u.2, e ∈ u'.2 → u.1 = u'.1
  constants : ∀ i, (i ∈ t.immutable ∨ ∃ state ∈ t.states, i ∈ state) → ∀ k ∈ p.symbols,
    k.name = i.symbol → k.isRelation = false → k.args = [] → ∀ entry ∈ i.entries,
    ∃ u ∈ t.universes, u.1 = k.result ∧ entry.2 ∈ u.2

namespace Diagram

variable {p : Program}

/-! ## Literals of names -/

/-- A symbol applied to names, the negation of this or its equation with a name, or an
inequation of names. -/
inductive IsFlat (p : Program) : Formula → Prop
  | apply {x : Symbol} (hx : x ∈ p.symbols) (ns : List String) :
    IsFlat p (.apply x.name (ns.map .id))
  | not {x : Symbol} (hx : x ∈ p.symbols) (ns : List String) :
    IsFlat p (.not (.apply x.name (ns.map .id)))
  | eq {x : Symbol} (hx : x ∈ p.symbols) (ns : List String) (n : String) :
    IsFlat p (.eq (.apply x.name (ns.map .id)) (.id n))
  | ne (m n : String) : IsFlat p (.ne (.id m) (.id n))

theorem IsFlat.uses (h : IsFlat p f) {hidden : List String} (hn : f.Uses hidden n) :
    n ∉ hidden ∨ ∃ x ∈ p.symbols, x.name = n := by
  have hId : ∀ {m}, (Formula.id m).Uses hidden n → n ∉ hidden := by
    intro m hm
    rw [Uses] at hm
    exact hm.2
  have hApply : ∀ {x : Symbol} {ns : List String}, x ∈ p.symbols →
      (Formula.apply x.name (ns.map .id)).Uses hidden n →
      n ∉ hidden ∨ ∃ x ∈ p.symbols, x.name = n := by
    intro x ns hx hUse
    rcases uses_apply hUse with rfl | ⟨f, hf, hUse⟩
    · exact Or.inr ⟨x, hx, rfl⟩
    · obtain ⟨m, -, rfl⟩ := mem_map.mp hf
      exact Or.inl (hId hUse)
  cases h with
  | apply hx => exact hApply hx hn
  | not hx =>
    rw [Uses] at hn
    exact hApply hx hn
  | eq hx =>
    rw [Uses] at hn
    exact hn.elim (hApply hx) fun hn => Or.inl (hId hn)
  | ne =>
    rw [Uses] at hn
    exact Or.inl (hn.elim hId hId)

section Substitution

variable {r : Substitution} {f : Formula}

/-- Symbols are put for names. -/
def PutsSymbols (p : Program) (r : Substitution) : Prop :=
  ∀ entry ∈ r, ∃ k ∈ p.symbols, entry.2 = .id k.name

theorem PutsSymbols.substitute_id (hr : PutsSymbols p r) (n : String) :
    ∃ m, (Formula.id n).substitute r = .id m ∧ (m = n ∨ ∃ k ∈ p.symbols, k.name = m) := by
  rw [substitute]
  cases hLookup : r.lookup n with
  | none => exact ⟨n, rfl, Or.inl rfl⟩
  | some g =>
    obtain ⟨k, hk, hg⟩ := hr _ (mem_of_lookup hLookup)
    exact ⟨k.name, hg, Or.inr ⟨k, hk, rfl⟩⟩

theorem PutsSymbols.substitute_apply (hr : PutsSymbols p r) {x : Symbol} (hx : x ∈ p.symbols)
    (ns : List String) : ∃ y ∈ p.symbols, ∃ ms : List String,
      (Formula.apply x.name (ns.map .id)).substitute r = .apply y.name (ms.map .id) := by
  choose name hName hOr using hr.substitute_id
  cases ns with
  | nil =>
    -- a bare symbol may have another one put for it
    rcases hOr x.name with hSame | ⟨k, hk, hNew⟩
    · exact ⟨x, hx, [], (hName x.name).trans (by rw [hSame]; rfl)⟩
    · exact ⟨k, hk, [], (hName x.name).trans (by rw [← hNew]; rfl)⟩
  | cons n ns =>
    refine ⟨x, hx, (n :: ns).map name, ?_⟩
    show Formula.app x.name (substituteList r ((n :: ns).map .id)) = _
    rw [substituteList_eq_map, map_map, map_map]
    simp only [Function.comp_def, hName]
    rfl

theorem IsFlat.substitute (hr : PutsSymbols p r) (h : IsFlat p f) : IsFlat p (f.substitute r) := by
  cases h with
  | apply hx ns =>
    obtain ⟨y, hy, ms, hEq⟩ := hr.substitute_apply hx ns
    exact hEq ▸ .apply hy ms
  | not hx ns =>
    obtain ⟨y, hy, ms, hEq⟩ := hr.substitute_apply hx ns
    rw [Formula.substitute, hEq]
    exact .not hy ms
  | eq hx ns n =>
    obtain ⟨y, hy, ms, hEq⟩ := hr.substitute_apply hx ns
    obtain ⟨m, hm, -⟩ := hr.substitute_id n
    rw [Formula.substitute, hEq, hm]
    exact .eq hy ms m
  | ne m n =>
    obtain ⟨m', hm, -⟩ := hr.substitute_id m
    obtain ⟨n', hn, -⟩ := hr.substitute_id n
    rw [Formula.substitute, hm, hn]
    exact .ne m' n'

/-- **A literal with names put in** holds where the literal holds when the old names have the
values of the new ones. -/
theorem IsFlat.holds_substitute (h : IsFlat p f) {D : Domain} {s : State D} {w w' : Valuation D}
    (hAgree : ∀ n, ((Formula.id n).substitute r).value (fun _ => s) 0 w =
      (Formula.id n).value (fun _ => s) 0 w') :
    (f.substitute r).Holds (fun _ => s) 0 w ↔ f.Holds (fun _ => s) 0 w' := by
  have hApply : ∀ (name : String) (ns : List String),
      ((Formula.apply name (ns.map .id)).substitute r).value (fun _ => s) 0 w =
        (Formula.apply name (ns.map .id)).value (fun _ => s) 0 w' := by
    intro name ns
    cases ns with
    | nil => exact hAgree name
    | cons n ns =>
      show (app name (substituteList r ((n :: ns).map .id))).value (fun _ => s) 0 w =
        (app name ((n :: ns).map .id)).value (fun _ => s) 0 w'
      rw [value, value, values_eq_map, values_eq_map, substituteList_eq_map, map_map, map_map,
        map_map]
      exact congrArg _ (map_congr_left fun m _ => hAgree m)
  cases h with
  | apply hx ns => rw [Holds, Holds, hApply]
  | not hx ns => rw [Formula.substitute, holds_not, holds_not, Holds, Holds, hApply]
  | eq hx ns n => rw [Formula.substitute, Holds, Holds, value, value, hApply, hAgree]
  | ne m n => rw [Formula.substitute, Holds, Holds, value, value, hAgree, hAgree]

end Substitution

/-! ## Diagrams of names -/

/-- A constant of some sort. -/
structure IsConstant (p : Program) (k : Symbol) (sort : String) : Prop where
  declared : k ∈ p.symbols
  function : k.isRelation = false
  args : k.args = []
  result : k.result = sort

/-- A name stands for an element of some sort: it is that of a variable or of a constant. -/
inductive Stands (p : Program) (vars : List Var) (sort n : String) : Prop
  | var {x : Var} (hx : x ∈ vars) (hName : x.name = n) (hSort : x.sort = sort)
  | constant {k : Symbol} (hk : IsConstant p k sort) (hName : k.name = n)

/-- A diagram of names, with variables of some sorts, in which the literals about constants equate
what has the same sort. -/
structure Flat (p : Program) (sorts : List String) (d : Diagram) : Prop where
  vars : ∀ x ∈ d.vars, ∃ sort ∈ sorts, ∃ i, x = variableFor p sort i
  literals : ∀ c ∈ d.conjuncts, IsFlat p c.formula
  constants : ∀ c ∈ d.conjuncts, c.kind = .constant → ∃ k sort n,
    IsConstant p k sort ∧ Stands p d.vars sort n ∧ c.formula = .eq (.id k.name) (.id n)

section Flat

variable {sorts : List String} {d : Diagram} {k : Symbol} {sort n : String}

theorem Flat.name_ne (h : d.Flat p sorts) (hx : x ∈ d.vars) (hk : k ∈ p.symbols) :
    x.name ≠ k.name := by
  obtain ⟨sort, -, i, rfl⟩ := h.vars x hx
  exact variableFor_name_ne sort i hk

theorem Flat.sort_eq (h : d.Flat p sorts) (hx : x ∈ d.vars) {y : Var} (hy : y ∈ d.vars)
    (hName : x.name = y.name) : x.sort = y.sort := by
  obtain ⟨sort, -, i, rfl⟩ := h.vars x hx
  obtain ⟨sort', -, j, rfl⟩ := h.vars y hy
  exact (variableFor_injective hName).1

theorem foldl_of_mem {α β : Type} {P : β → Prop} {f : β → α → β}
    (hKeeps : ∀ b a, P b → P (f b a)) {a : α} (hGets : ∀ b, P (f b a)) {as : List α} (h : a ∈ as)
    (b : β) : P (as.foldl f b) := by
  obtain ⟨before, after, rfl⟩ := append_of_mem h
  rw [foldl_append, foldl_cons]
  exact foldlRecOn after f (hGets _) fun b hb a _ => hKeeps b a hb

theorem lookup_constantNames {c : Conjunct} (hc : c ∈ d.enabled) (hKind : c.kind = .constant)
    (hFormula : c.formula = .eq f g) : (d.constantNames.lookup g.name).isSome = true := by
  have hIn : c ∈ d.enabled.filter fun c => c.kind == .constant :=
    mem_filter.mpr ⟨hc, by simp [hKind]⟩
  rw [constantNames]
  refine foldl_of_mem (P := fun named : Substitution => (named.lookup g.name).isSome = true)
    (fun named c' h => ?_) (fun named => ?_) hIn []
  · -- what was put for a name before stays
    split
    · split
      · exact h
      · rw [lookup_append]
        simp [h]
    · exact h
  · rw [hFormula]
    dsimp only [children]
    split
    · assumption
    · simp [lookup_append]

/-- What is put for a name comes from an equation that is on, between a constant and something
that the name stands for. -/
theorem Flat.of_mem (h : d.Flat p sorts) {entry : String × Formula}
    (hEntry : entry ∈ d.constantNames) : ∃ k sort,
      IsConstant p k sort ∧ Stands p d.vars sort entry.1 ∧ entry.2 = .id k.name ∧
      ∃ c ∈ d.enabled, c.kind = .constant ∧ c.formula = .eq (.id k.name) (.id entry.1) := by
  obtain ⟨c, hc, hKind, target, rest, hChildren, hTarget⟩ := mem_constantNames hEntry
  obtain ⟨k, sort, n, hk, hStands, hFormula⟩ := h.constants c (mem_filter.mp hc).1 hKind
  rw [hFormula] at hChildren
  obtain ⟨hg, hChildren⟩ := cons.inj hChildren
  obtain ⟨rfl, -⟩ := cons.inj hChildren
  obtain rfl : entry.1 = n := hTarget
  exact ⟨k, sort, hk, hStands, hg.symm, c, hc, hKind, hFormula⟩

theorem Flat.lookup (h : d.Flat p sorts) (hLookup : d.constantNames.lookup n = some g) : ∃ k sort,
      IsConstant p k sort ∧ Stands p d.vars sort n ∧ g = .id k.name ∧
      ∃ c ∈ d.enabled, c.kind = .constant ∧ c.formula = .eq (.id k.name) (.id n) :=
  h.of_mem (mem_of_lookup hLookup)

theorem Flat.putsSymbols (h : d.Flat p sorts) : PutsSymbols p d.constantNames := by
  intro entry hEntry
  obtain ⟨k, sort, hk, -, hg, -⟩ := h.of_mem hEntry
  exact ⟨k, hk.declared, hg⟩

theorem Flat.of_formulas (h : d.Flat p sorts) (hVars : d'.vars = d.vars)
    (hConjuncts : ∀ c ∈ d'.conjuncts, ∃ c' ∈ d.conjuncts, c.kind = c'.kind ∧ c.formula = c'.formula) :
    d'.Flat p sorts := by
  refine ⟨hVars ▸ h.vars, fun c hc => ?_, fun c hc hKind => ?_⟩
  · obtain ⟨c', hc', -, hFormula⟩ := hConjuncts c hc
    exact hFormula ▸ h.literals c' hc'
  · obtain ⟨c', hc', hKind', hFormula⟩ := hConjuncts c hc
    rw [hFormula, hVars]
    exact h.constants c' hc' (hKind' ▸ hKind)

variable (hNodup : (p.symbols.map Symbol.name).Nodup)

include hNodup

theorem Flat.stands_sort_eq (h : d.Flat p sorts) {sort' : String} (ha : Stands p d.vars sort n)
    (hb : Stands p d.vars sort' n) : sort = sort' := by
  cases ha with
  | var hx hName hSort =>
    cases hb with
    | var hy hName' hSort' =>
      rw [← hSort, ← hSort', h.sort_eq hx hy (hName.trans hName'.symm)]
    | constant hk hName' => exact absurd (hName.trans hName'.symm) (h.name_ne hx hk.declared)
  | constant hk hName =>
    cases hb with
    | var hx hName' => exact absurd (hName'.trans hName.symm) (h.name_ne hx hk.declared)
    | constant hk' hName' =>
      rw [← hk.result, ← hk'.result, inj_on_of_nodup_map hNodup hk.declared hk'.declared
        (hName.trans hName'.symm)]

theorem Flat.stands_substitute (h : d.Flat p sorts) (hn : Stands p d.vars sort n) :
    ((d.constantNames.lookup n).isSome = true →
      ∃ k, IsConstant p k sort ∧ (Formula.id n).substitute d.constantNames = .id k.name) ∧
    ∃ m, (Formula.id n).substitute d.constantNames = .id m ∧
      Stands p d.simplifyConstants.vars sort m := by
  rw [substitute]
  cases hLookup : d.constantNames.lookup n with
  | none =>
    refine ⟨by simp, n, rfl, ?_⟩
    cases hn with
    | var hx hName hSort =>
      refine .var ?_ hName hSort
      rw [vars_simplifyConstants]
      exact mem_filter.mpr ⟨hx, by rw [hName, hLookup]; rfl⟩
    | constant hk hName => exact .constant hk hName
  | some g =>
    obtain ⟨k, sort', hk, hStands, hg, -⟩ := h.lookup hLookup
    obtain rfl := h.stands_sort_eq hNodup hn hStands
    exact ⟨fun _ => ⟨k, hk, hg⟩, k.name, hg, .constant hk rfl⟩

theorem Flat.constant_substitute (h : d.Flat p sorts) (hk : IsConstant p k sort) :
    ∃ k', IsConstant p k' sort ∧ (Formula.id k.name).substitute d.constantNames = .id k'.name := by
  cases hLookup : d.constantNames.lookup k.name with
  | none => exact ⟨k, hk, by rw [substitute, hLookup]; rfl⟩
  | some g => exact (h.stands_substitute hNodup (.constant hk rfl)).1 (by rw [hLookup]; rfl)

/-- **Diagrams of names stay so** when constants are put in. -/
theorem Flat.simplifyConstants (h : d.Flat p sorts) : d.simplifyConstants.Flat p sorts := by
  refine ⟨fun x hx => ?_, fun c hc => ?_, fun c hc hKind => ?_⟩
  · rw [vars_simplifyConstants] at hx
    exact h.vars x (mem_filter.mp hx).1
  · obtain ⟨c', hc', rfl⟩ := mem_simplifyConstants hc
    exact (h.literals c' hc').substitute h.putsSymbols
  · obtain ⟨c', hc', rfl⟩ := mem_simplifyConstants hc
    obtain ⟨k, sort, n, hk, hn, hFormula⟩ := h.constants c' hc' hKind
    obtain ⟨k', hk', hLeft⟩ := h.constant_substitute hNodup hk
    obtain ⟨m, hm, hStands⟩ := (h.stands_substitute hNodup hn).2
    refine ⟨k', sort, m, hk', hStands, ?_⟩
    dsimp only
    rw [hFormula, substitute, hLeft, hm]

omit hNodup in
/-- A diagram that was made of another one, by switching literals and by putting constants for
variables. -/
inductive Reworked (d : Diagram) : Diagram → Prop
  | refl : Reworked d d
  | switch {d' d'' : Diagram} {index : Nat} {on : Bool} (h : Reworked d d')
      (hSet : d'.setEnabled index on = .ok d'') : Reworked d d''
  | enable {d' : Diagram} (h : Reworked d d') : Reworked d d'.enableAll
  | simplify {d' : Diagram} (h : Reworked d d') : Reworked d d'.simplifyConstants

/-- **What is made of a diagram of names is one.** -/
theorem Flat.reworked (h : d.Flat p sorts) (hd : Reworked d d') : d'.Flat p sorts := by
  induction hd with
  | refl => exact h
  | @switch d' d'' index on _ hSet ih =>
    rw [setEnabled] at hSet
    split at hSet
    · cases hSet
      refine ih.of_formulas rfl fun c hc => ?_
      obtain ⟨i, hi⟩ := getElem?_of_mem hc
      rw [Diagram.switch, getElem?_modify, Option.map_eq_map, Option.map_eq_some_iff] at hi
      obtain ⟨c', hc', rfl⟩ := hi
      refine ⟨c', mem_of_getElem? hc', ?_⟩
      split <;> exact ⟨rfl, rfl⟩
    · cases hSet
  | enable _ ih =>
    refine ih.of_formulas rfl fun c hc => ?_
    obtain ⟨c', hc', rfl⟩ := mem_map.mp hc
    exact ⟨c', hc', rfl, rfl⟩
  | simplify _ ih => exact ih.simplifyConstants hNodup

/-- **The diagrams of traces are diagrams of names.** -/
theorem flat_ofTrace {t : Trace} (hSorted : t.Sorted p) {index : Nat} {simplify : Bool}
    (hd : ofTrace p t index simplify = .ok d) : d.Flat p p.sorts := by
  obtain ⟨named, cs, hNamed, hOrigin, rfl⟩ := ofTrace_eq_ok hSorted.fits hNodup hd
  have hFlat : Flat p p.sorts ⟨named.map Prod.snd, cs⟩ := by
    refine ⟨isVariable_of_named hSorted.fits hNamed, fun c hc => ?_, fun c hc hKind => ?_⟩
    · cases hOrigin c hc with
      | distinct hx hy hc => exact hc ▸ .ne _ _
      | @entry i s entry hi hs hName hDerived hEntry hArity hc =>
        have hsIn := mem_of_find?_eq_some hs
        cases hc with
        | @relation xs hxs =>
          dsimp only
          rw [← Function.comp_def Formula.id, ← map_map]
          split
          · exact .apply hsIn _
          · exact .not hsIn _
        | equation hxs hy =>
          dsimp only
          rw [← Function.comp_def Formula.id, ← map_map]
          exact .eq hsIn _ _
    · cases hOrigin c hc with
      | distinct hx hy hc =>
        subst hc
        cases hKind
      | @entry i s entry hi hs hName hDerived hEntry hArity hc =>
        cases hc with
        | relation => cases hKind
        | @equation xs y kind hxs hy hFunction hConstant =>
          have hArgs := hConstant hKind
          have hsIn := mem_of_find?_eq_some hs
          rw [hArgs, hxs.length_eq, length_nil, length_eq_zero_iff] at hArity
          subst hArity
          -- the value is listed for the constant's sort, and for no other one
          obtain ⟨u, hu, hResult, hIn⟩ :=
            hSorted.constants i hi s hsIn hName hFunction hArgs entry hEntry
          obtain ⟨u', hu', hIn', number, hVar⟩ := hNamed _ hy
          refine ⟨s, s.result, y.name, ⟨hsIn, hFunction, hArgs, rfl⟩,
            .var (mem_map_of_mem (f := Prod.snd) hy) rfl ?_, rfl⟩
          rw [← hResult, hSorted.apart u hu u' hu' _ hIn hIn']
          exact congrArg Var.sort hVar
  cases simplify
  · exact hFlat
  · exact hFlat.simplifyConstants hNodup

end Flat

/-! ## What is said with constants -/

section Meaning

variable {sorts : List String} {d : Diagram} {D : Domain} {s : State D} {w : Valuation D}

/-- A literal equates two constants. -/
def EquatesConstants (p : Program) (c : Conjunct) : Prop :=
  c.kind = .constant ∧ ∃ k ∈ p.symbols, ∃ k' ∈ p.symbols,
    c.formula = .eq (.id k.name) (.id k'.name)

theorem value_id_of_none (hn : w n = none) : (Formula.id n).value (fun _ => s) 0 w = s n [] := by
  rw [value, hn]
  rfl

theorem value_id_of_some {a : Value D.Element} (hn : w n = some a) :
    (Formula.id n).value (fun _ => s) 0 w = a := by
  rw [value, hn]
  rfl

theorem Flat.free (h : d.Flat p sorts) (hFree : ∀ n, (∀ x ∈ d.vars, x.name ≠ n) → w n = none)
    {k : Symbol} (hk : k ∈ p.symbols) : w k.name = none :=
  hFree _ fun _ hx => h.name_ne hx hk

theorem Flat.existsOf_simplified (h : d.Flat p sorts)
    (hBound : ∀ x ∈ d.vars, ∃ a, w x.name = some (.element a) ∧ D.sort a = x.sort)
    (hFree : ∀ n, (∀ x ∈ d.vars, x.name ≠ n) → w n = none) (hw : d.Matches s w) :
    ExistsOf d.simplifyConstants.vars (d.simplifyConstants.Matches s) .empty := by
  -- the names that constants are put for lose their values
  set v : Valuation D := fun n => if (d.constantNames.lookup n).isNone then w n else none with hv
  have hKept : ∀ {n}, d.constantNames.lookup n = none → v n = w n := by
    intro n hn
    simp [hv, hn]
  have hNone : ∀ {n}, w n = none → v n = none := by
    intro n hn
    simp [hv, hn]
  have hAgree : ∀ n, ((Formula.id n).substitute d.constantNames).value (fun _ => s) 0 v =
      (Formula.id n).value (fun _ => s) 0 w := by
    intro n
    rw [substitute]
    cases hLookup : d.constantNames.lookup n with
    | none =>
      show (Formula.id n).value (fun _ => s) 0 v = _
      rw [value, value, hKept hLookup]
    | some g =>
      obtain ⟨k, sort, hk, -, rfl, c, hc, -, hFormula⟩ := h.lookup hLookup
      have hFreeK := h.free hFree hk.declared
      have hEq := hw _ (mem_map_of_mem hc)
      rw [hFormula, Holds, value, Value.holds_truth, value_id_of_none hFreeK] at hEq
      rw [← hEq]
      exact value_id_of_none (hNone hFreeK)
  refine existsOf_of_bound (w := v) (fun x hx => ?_) (fun n hn => ?_) ?_
  · rw [vars_simplifyConstants, mem_filter, Option.isNone_iff_eq_none] at hx
    rw [hKept hx.2]
    exact hBound x hx.1
  · by_cases hVar : ∃ x ∈ d.vars, x.name = n
    · obtain ⟨x, hx, rfl⟩ := hVar
      by_cases hLookup : d.constantNames.lookup x.name = none
      · refine absurd rfl (hn x ?_)
        rw [vars_simplifyConstants]
        exact mem_filter.mpr ⟨hx, by simp [hLookup]⟩
      · exact if_neg (by simpa using hLookup)
    · exact hNone (hFree n fun x hx hName => hVar ⟨x, hx, hName⟩)
  · refine matches_simplifyConstants.mpr fun c hc => ?_
    exact ((h.literals c (mem_filter.mp hc).1).holds_substitute hAgree).mpr
      (hw _ (mem_map_of_mem hc))

variable (hNodup : (p.symbols.map Symbol.name).Nodup) (hFitting : ∀ x ∈ p.symbols, p.Fitting x)
  (h : d.Flat p sorts) (hFits : ∀ c ∈ d.enabled, c.kind = .constant → ∀ k ∈ p.symbols, ∀ n,
    c.formula = .eq (.id k.name) (.id n) → k.Fits s)

include hNodup hFitting h hFits

/-- What matches a diagram with constants put in matches the diagram, if the constants that it
equates are equal. -/
theorem Flat.existsOf_original
    (hBound : ∀ x ∈ d.simplifyConstants.vars, ∃ a, w x.name = some (.element a) ∧
      D.sort a = x.sort)
    (hFree : ∀ n, (∀ x ∈ d.simplifyConstants.vars, x.name ≠ n) → w n = none)
    (hw : d.simplifyConstants.Matches s w)
    (hEqual : ∀ c ∈ d.enabled, EquatesConstants p c → c.formula.HoldsIn s) :
    ExistsOf d.vars (d.Matches s) .empty := by
  classical
  have hFreeSymbol : ∀ {k}, k ∈ p.symbols → w k.name = none := fun hk =>
    (h.simplifyConstants hNodup).free hFree hk
  -- a variable has the value of the constant that was put for it
  set v : Valuation D := fun n => if ∃ x ∈ d.vars, x.name = n then
    some (((Formula.id n).substitute d.constantNames).value (fun _ => s) 0 w) else none with hv
  have hVar : ∀ {n}, (∃ x ∈ d.vars, x.name = n) →
      v n = some (((Formula.id n).substitute d.constantNames).value (fun _ => s) 0 w) :=
    fun hn => if_pos hn
  have hOther : ∀ {n}, (¬ ∃ x ∈ d.vars, x.name = n) → v n = none := fun hn => if_neg hn
  have hAgree : ∀ n, ((Formula.id n).substitute d.constantNames).value (fun _ => s) 0 w =
      (Formula.id n).value (fun _ => s) 0 v := by
    intro n
    by_cases hn : ∃ x ∈ d.vars, x.name = n
    · exact (value_id_of_some (hVar hn)).symm
    rw [value_id_of_none (hOther hn), substitute]
    cases hLookup : d.constantNames.lookup n with
    | none =>
      refine value_id_of_none (hFree n fun x hx hName => hn ⟨x, ?_, hName⟩)
      rw [vars_simplifyConstants] at hx
      exact (mem_filter.mp hx).1
    | some g =>
      obtain ⟨k, sort, hk, hStands, rfl, c, hc, hKind, hFormula⟩ := h.lookup hLookup
      cases hStands with
      | var hx hName => exact absurd ⟨_, hx, hName⟩ hn
      | constant hk' hName =>
        have hEq := hEqual c hc ⟨hKind, k, hk.declared, _, hk'.declared, hName ▸ hFormula⟩
        rw [hFormula, HoldsIn, Holds, value, Value.holds_truth] at hEq
        exact (value_id_of_none (hFreeSymbol hk.declared)).trans hEq
  refine existsOf_of_bound (w := v) (fun x hx => ?_) (fun n hn => ?_) fun f hf => ?_
  · rw [hVar ⟨x, hx, rfl⟩, substitute]
    cases hLookup : d.constantNames.lookup x.name with
    | none =>
      have hIn : x ∈ d.simplifyConstants.vars := by
        rw [vars_simplifyConstants]
        exact mem_filter.mpr ⟨hx, by simp [hLookup]⟩
      obtain ⟨a, ha, hSort⟩ := hBound x hIn
      exact ⟨a, congrArg some (value_id_of_some ha), hSort⟩
    | some g =>
      obtain ⟨k, sort, hk, hStands, rfl, c, hc, hKind, hFormula⟩ := h.lookup hLookup
      obtain rfl := h.stands_sort_eq hNodup hStands (.var hx rfl rfl)
      have hSort := (hFits c hc hKind k hk.declared _ hFormula []).1 (hk.args ▸ .nil)
      show ∃ a, some ((Formula.id k.name).value (fun _ => s) 0 w) = _ ∧ _
      rw [value_id_of_none (hFreeSymbol hk.declared)]
      cases hValue : s k.name [] with
      | truth q =>
        rw [hValue] at hSort
        exact absurd hSort ((hFitting k hk.declared).result hk.function).1
      | element a =>
        rw [hValue] at hSort
        exact ⟨a, rfl, hSort.trans hk.result⟩
  · refine hOther ?_
    rintro ⟨x, hx, hName⟩
    exact hn x hx hName
  · obtain ⟨c, hc, rfl⟩ := mem_map.mp hf
    exact ((h.literals c (mem_filter.mp hc).1).holds_substitute hAgree).mp
      (matches_simplifyConstants.mp hw c hc)

/-- **What a diagram says, and what it says with constants put in**, differ in the equations
between constants only. -/
theorem Flat.holdsIn_simplifyConstants (hSorts : ∀ sort ∈ sorts, ∃ a, D.sort a = sort) :
    d.toFormula.HoldsIn s ↔ d.simplifyConstants.toFormula.HoldsIn s ∧
      ∀ c ∈ d.enabled, EquatesConstants p c → c.formula.HoldsIn s := by
  have hFlat := h.simplifyConstants hNodup
  have hInhabited : ∀ {d' : Diagram}, d'.Flat p sorts → ∀ x ∈ d'.vars, ∃ a, D.sort a = x.sort := by
    intro d' h' x hx
    obtain ⟨sort, hSort, i, rfl⟩ := h'.vars x hx
    exact hSorts sort hSort
  rw [holdsIn_toFormula (hInhabited h), holdsIn_toFormula (hInhabited hFlat)]
  constructor
  · intro hExists
    obtain ⟨w, hBound, hFree, hw⟩ := hExists.exists_bound fun x hx y hy => h.sort_eq hx hy
    refine ⟨h.existsOf_simplified hBound hFree hw, fun c hc hEquates => ?_⟩
    obtain ⟨-, k, hk, k', hk', hFormula⟩ := hEquates
    have hEq := hw _ (mem_map_of_mem hc)
    rw [hFormula, Holds, value, Value.holds_truth, value_id_of_none (h.free hFree hk),
      value_id_of_none (h.free hFree hk')] at hEq
    rw [hFormula, HoldsIn, Holds, value, Value.holds_truth]
    exact hEq
  · rintro ⟨hExists, hEqual⟩
    obtain ⟨w, hBound, hFree, hw⟩ := hExists.exists_bound fun x hx y hy => hFlat.sort_eq hx hy
    exact h.existsOf_original hNodup hFitting hFits hBound hFree hw hEqual

end Meaning

/-! ## Simplifying again -/

section Again

variable {sorts : List String} {d : Diagram} {c : Conjunct}

theorem Flat.not_uses (h : d.Flat p sorts) (hx : x ∈ d.vars) (hGone : x ∉ d.simplifyConstants.vars)
    (hc : c ∈ d.simplifyConstants.conjuncts) : ¬ c.formula.Uses [] x.name := by
  intro hUse
  obtain ⟨c', hc', rfl⟩ := mem_simplifyConstants hc
  have hKey := (replaced_or_kept hx).resolve_right hGone
  rcases uses_substitute hUse with hUse | ⟨entry, hEntry, hUse⟩
  · rcases (h.literals c' hc').uses hUse with hFree | ⟨k, hk, hName⟩
    · exact hFree (mem_append_left _ hKey)
    · exact h.name_ne hx hk hName.symm
  · obtain ⟨k, hk, hEq⟩ := h.putsSymbols entry hEntry
    rw [hEq, Uses] at hUse
    exact h.name_ne hx hk hUse.1.symm

theorem Flat.equatesConstants (hNodup : (p.symbols.map Symbol.name).Nodup) (h : d.Flat p sorts)
    (hc : c ∈ d.simplifyConstants.enabled) (hKind : c.kind = .constant) :
    EquatesConstants p c := by
  obtain ⟨hIn, hOn⟩ := mem_filter.mp hc
  obtain ⟨c', hc', rfl⟩ := mem_simplifyConstants hIn
  obtain ⟨k, sort, n, hk, hn, hFormula⟩ := h.constants c' hc' hKind
  have hSome := lookup_constantNames (mem_filter.mpr ⟨hc', hOn⟩) hKind hFormula
  obtain ⟨k', hk', hLeft⟩ := h.constant_substitute hNodup hk
  obtain ⟨k'', hk'', hRight⟩ := (h.stands_substitute hNodup hn).1 hSome
  refine ⟨hKind, k', hk'.declared, k'', hk''.declared, ?_⟩
  dsimp only
  rw [hFormula, substitute, hLeft, hRight]

/-- **Simplifying leaves a diagram alone** just when no equation about a constant is on. -/
theorem Flat.simplifyConstants_eq_self_iff (h : d.Flat p sorts) :
    d.simplifyConstants = d ↔ ∀ c ∈ d.enabled, c.kind ≠ .constant := by
  constructor
  · intro hSame c hc hKind
    obtain ⟨k, sort, n, -, -, hFormula⟩ := h.constants c (mem_filter.mp hc).1 hKind
    obtain ⟨g, hg⟩ : ∃ g, d.constantNames.lookup n = some g :=
      Option.isSome_iff_exists.mp (lookup_constantNames hc hKind hFormula)
    obtain ⟨k', sort', -, -, rfl, c', hc', -, hFormula'⟩ := h.lookup hg
    -- nothing was dropped, and what was put in changed nothing
    have hKept : ∀ c ∈ d.conjuncts, c.formula.substitute d.constantNames = c.formula ∧
        isTrivial c.formula = false := by
      have hNames : d.constantNames.isEmpty = false := by
        rw [isEmpty_eq_false_iff]
        rintro hNil
        rw [hNil] at hg
        cases hg
      have hList := congrArg conjuncts hSame
      rw [Diagram.simplifyConstants, hNames] at hList
      simp only [Bool.false_eq_true, if_false] at hList
      have hAll := length_filter_eq_length_iff.mp
        ((congrArg length hList).trans (length_map _).symm)
      rw [filter_eq_self.mpr hAll] at hList
      intro c hc
      have hFixed := map_inj_left.mp (hList.trans (map_id _).symm) c hc
      have hFixed : c.formula.substitute d.constantNames = c.formula :=
        congrArg Conjunct.formula hFixed
      refine ⟨hFixed, ?_⟩
      have hOne := hAll _ (mem_map_of_mem hc)
      dsimp only at hOne
      rw [hFixed] at hOne
      simpa using hOne
    have hRight := (hKept c (mem_filter.mp hc).1).1
    rw [hFormula, substitute] at hRight
    have hRight : (Formula.id n).substitute d.constantNames = .id n := (Formula.eq.inj hRight).2
    rw [substitute, hg] at hRight
    have hTrivial := (hKept c' (mem_filter.mp hc').1).2
    rw [hFormula', show Formula.id k'.name = .id n from hRight] at hTrivial
    simp [isTrivial] at hTrivial
  · intro hNone
    have hNames : d.constantNames = [] := by
      rw [constantNames, filter_eq_nil_iff.mpr fun c hc => by simpa using hNone c hc]
      rfl
    rw [Diagram.simplifyConstants, hNames]
    rfl

end Again

/-- **Putting constants for variables once more.** Take the diagram of a state, simplified or not,
switch literals of it on and off and simplify it any number of times. When it is simplified now,
no variable is left that a constant was put for, every equation about a constant that is left and
is on is one between two constants, and the new diagram says the same as the old one but for the
equations between constants that the old one had on: those it need not say. So simplifying twice is
simplifying once just when no equation between constants is left on. -/
theorem simplifyConstants_of_reworked (hDeclared : p.Declared) (hValidated : p.validated = true)
    {t : Trace} (hSorted : t.Sorted p) {index : Nat} {simplify : Bool} {d₀ d : Diagram}
    (hOf : ofTrace p t index simplify = .ok d₀) (hReworked : Reworked d₀ d) :
    (∀ {D : Domain} (s : State D), (∀ sort ∈ p.sorts, ∃ a, D.sort a = sort) →
      (∀ x ∈ p.symbols, x.Fits s) →
      (d.toFormula.HoldsIn s ↔ d.simplifyConstants.toFormula.HoldsIn s ∧
        ∀ c ∈ d.enabled, EquatesConstants p c → c.formula.HoldsIn s)) ∧
    (∀ c ∈ d.simplifyConstants.enabled, c.kind = .constant → EquatesConstants p c) ∧
    (∀ x ∈ d.vars, x ∉ d.simplifyConstants.vars →
      ∀ c ∈ d.simplifyConstants.conjuncts, ¬ c.formula.Uses [] x.name) ∧
    (d.simplifyConstants.simplifyConstants = d.simplifyConstants ↔
      ∀ c ∈ d.simplifyConstants.enabled, c.kind ≠ .constant) := by
  have hNodup := hDeclared.nodup_names
  have hFitting := (Program.checked_of_checkAll (hDeclared.checkAll_eq_ok hValidated)).symbols
  have hFlat := (flat_ofTrace hNodup hSorted hOf).reworked hNodup hReworked
  refine ⟨?_, ?_, ?_, ?_⟩
  · intro D s hSorts hFits
    exact hFlat.holdsIn_simplifyConstants hNodup hFitting (fun _ _ _ k hk _ _ => hFits k hk) hSorts
  · intro c hc hKind
    exact hFlat.equatesConstants hNodup hc hKind
  · intro x hx hGone c hc
    exact hFlat.not_uses hx hGone hc
  · exact (hFlat.simplifyConstants hNodup).simplifyConstants_eq_self_iff

/-! ## Samples -/

/-- Nodes, and two names for some. -/
def aliases : Program :=
  { Program.empty with
    sorts := ["node"]
    symbols := [⟨"c", .constant "node", false⟩, ⟨"d", .constant "node", false⟩]
    validated := true }

theorem aliases_declared : aliases.Declared := by
  have hSort := @Program.Declared.sort _ _ "node" .empty rfl
  have hFirst := hSort.symbol (s := ⟨"c", .constant "node", false⟩) rfl
  have hSecond := hFirst.symbol (s := ⟨"d", .constant "node", false⟩) rfl
  exact hSecond.validate rfl

/-- One node, with both names. -/
def oneNode : Trace :=
  ⟨[("node", ["a"])], [⟨"c", .constant, [([], "a")]⟩, ⟨"d", .constant, [([], "a")]⟩], [[]], []⟩

theorem sorted_oneNode : oneNode.Sorted aliases := by
  have hNode : ∀ k ∈ aliases.symbols, k.result = "node" := by decide
  have hValue : ∀ i ∈ oneNode.immutable, ∀ entry ∈ i.entries, entry.2 = "a" := by decide
  have hFits : ∀ i ∈ oneNode.immutable, ∃ s ∈ aliases.symbols, s.name = i.symbol ∧
      ∀ entry ∈ i.entries, entry.1.length = s.args.length := by decide
  have hStates : ∀ state ∈ oneNode.states, state = [] := by decide
  refine ⟨⟨by decide, hFits, fun state hState i hi => ?_⟩, by decide, ?_⟩
  · rw [hStates state hState] at hi
    cases hi
  rintro i (hi | ⟨state, hState, hi⟩)
  · intro k hk _ _ _ entry hEntry
    exact ⟨("node", ["a"]), mem_singleton.mpr rfl, (hNode k hk).symm,
      mem_singleton.mpr (hValue i hi entry hEntry)⟩
  · rw [hStates state hState] at hi
    cases hi

/-- The diagram of the node: its names are equated with its variable. -/
def oneNodeDiagram : Diagram :=
  ⟨[⟨"V_node_0", "node"⟩], [⟨.constant, true, .eq (.id "c") (.id "V_node_0")⟩,
    ⟨.constant, true, .eq (.id "d") (.id "V_node_0")⟩]⟩

/-- Its first name is put for the variable, and what is left says that the other is a name of the
same node. A second time, that is not kept. -/
theorem simplifyConstants_of_reworked_oneNode :
    oneNode.Sorted aliases ∧ ofTrace aliases oneNode 0 false = .ok oneNodeDiagram ∧
      Reworked oneNodeDiagram oneNodeDiagram.enableAll ∧
      (∀ {D : Domain} (s : State D), (∀ sort ∈ aliases.sorts, ∃ a, D.sort a = sort) →
        (∀ x ∈ aliases.symbols, x.Fits s) →
        (oneNodeDiagram.enableAll.toFormula.HoldsIn s ↔ (eq (.id "d") (.id "c")).HoldsIn s)) ∧
      oneNodeDiagram.enableAll.simplifyConstants.simplifyConstants ≠
        oneNodeDiagram.enableAll.simplifyConstants := by
  have hOf : ofTrace aliases oneNode 0 false = .ok oneNodeDiagram := by rfl
  have hReworked : Reworked oneNodeDiagram oneNodeDiagram.enableAll := .enable .refl
  obtain ⟨hMeaning, -, -, hAgain⟩ :=
    simplifyConstants_of_reworked aliases_declared rfl sorted_oneNode hOf hReworked
  refine ⟨sorted_oneNode, hOf, hReworked, fun s hSorts hFits => ?_, fun hSame => ?_⟩
  · refine (hMeaning s hSorts hFits).trans (and_iff_left fun c hc hEquates => ?_)
    -- its constants are equated with its variable only
    have hRight : ∀ c ∈ oneNodeDiagram.conjuncts, ∀ k ∈ aliases.symbols,
        c.formula.children.getLast? ≠ some (.id k.name) := by decide
    obtain ⟨-, k, -, k', hk', hFormula⟩ := hEquates
    exact absurd (by rw [hFormula]; rfl) (hRight c (mem_filter.mp hc).1 k' hk')
  · exact hAgain.mp hSame ⟨.constant, true, .eq (.id "d") (.id "c")⟩ (by decide) rfl

/-- The first node has one of the names, and the second the other. -/
def apart : State Encoding.twoNodes
  | name, [] => .element (decide (name = "d"))
  | _, _ :: _ => .truth False

/-- **Names of one node are forgotten.** Simplifying the simplified diagram drops the equation
that is left of it, and then it holds where the two names are those of different nodes. -/
theorem equated_constants_forgotten :
    aliases.Declared ∧ oneNode.Sorted aliases ∧ ∃ d, ofTrace aliases oneNode 0 true = .ok d ∧
      d.toFormula = .eq (.id "d") (.id "c") ∧ d.simplifyConstants.toFormula = .bool true ∧
      (∀ x ∈ aliases.symbols, x.Fits apart) ∧ ¬ d.toFormula.HoldsIn apart ∧
      d.simplifyConstants.toFormula.HoldsIn apart := by
  have hFits : ∀ x ∈ aliases.symbols, x.Fits apart := by
    have hConstant : ∀ x ∈ aliases.symbols, x.args = [] ∧ x.result = "node" := by decide
    intro x hx args
    rw [(hConstant x hx).1, (hConstant x hx).2, forall₂_nil_right_iff]
    cases args with
    | nil => exact ⟨fun _ => rfl, fun hNe => absurd rfl hNe⟩
    | cons => exact ⟨fun hEq => (by cases hEq), fun _ => rfl⟩
  have hFormula : ∃ d, ofTrace aliases oneNode 0 true = .ok d ∧
      d.toFormula = .eq (.id "d") (.id "c") ∧ d.simplifyConstants.toFormula = .bool true :=
    ⟨_, rfl, by rfl, by rfl⟩
  obtain ⟨d, hOf, hBefore, hAfter⟩ := hFormula
  refine ⟨aliases_declared, sorted_oneNode, d, hOf, hBefore, hAfter, hFits, ?_, ?_⟩
  · rw [hBefore, HoldsIn, Holds, value, Value.holds_truth]
    exact fun hEq => Bool.noConfusion (Value.element.inj hEq)
  · rw [hAfter]
    exact holds_bool.mpr rfl

end Diagram

end InvariantSearch
