import InvariantSearch.Proofs.Computation.Basic
import InvariantSearch.Proofs.Encoding.Tuples
import InvariantSearch.Proofs.Meaning.Diagram
import Mathlib.Data.List.Nodup
import Mathlib.Tactic.Set

/-!
# Names in diagrams

A diagram has a variable for each element, named so that it hides no symbol.

* `IsVariable` — the variables that diagrams have. Their names are no symbols,
  and a name tells the sort (`IsVariable.sort_eq`).
* `IsPlain` — the symbols that diagrams speak of: all but derived relations.
* `Diagram.WellNamed` — a diagram is made of such variables and symbols only.

Main results: `Diagram.wellNamed_ofTrace` says that the diagrams of traces are
well named, and `Diagram.WellNamed.uses_toPredicate` that their predicates are
closed and leave derived relations alone.
-/

namespace InvariantSearch

open List Formula

variable {i : Interpretation} {e : Encoding} {m : SolverModel} {s : Symbol} {index : Nat}
  {f : Formula} {hidden elements : List String} {n name : String} {args : List Formula}
  {p : Program} {d : Diagram} {x : Var} {simplify : Bool} {xs : List Var}

/-! ## Names that a formula uses -/

namespace Formula

theorem uses_complement : f.complement.Uses hidden n ↔ f.Uses hidden n := by
  cases f <;> simp [complement, Uses]

theorem uses_apply (h : (apply name args).Uses hidden n) :
    n = name ∨ ∃ f ∈ args, f.Uses hidden n := by
  cases args with
  | nil =>
    rw [apply, Uses] at h
    exact Or.inl h.1.symm
  | cons a args =>
    rw [apply, Uses, usesAny_iff] at h
    · exact h.imp_left Eq.symm
    · simp

/-- What a formula uses after a substitution: what it used and was not put for, and what
the formulas put in use. -/
theorem uses_substitute {s : Substitution} (h : (f.substitute s).Uses hidden n) :
    f.Uses (s.map Prod.fst ++ hidden) n ∨ ∃ entry ∈ s, entry.2.Uses hidden n := by
  simp only [uses_iff, mem_append, not_or] at h ⊢
  rcases h with h | ⟨h, hHidden⟩
  · rcases mem_heads_substitute f h with h | ⟨entry, hEntry, h⟩
    · exact .inl (.inl h)
    · exact .inr ⟨entry, hEntry, .inl h⟩
  · rcases free_substitute f h with ⟨h, hOut⟩ | ⟨entry, hEntry, h⟩
    · exact .inl (.inr ⟨h, hOut, hHidden⟩)
    · exact .inr ⟨entry, hEntry, .inr ⟨h, hHidden⟩⟩

end Formula

/-! ## Variables for elements -/

theorem toString_injective {i j : Nat} (h : toString i = toString j) : i = j := by
  have hDigits := congrArg (fun text : String => Nat.ofDigitChars 10 text.toList 0) h
  simpa [Nat.toString_eq_ofList_toDigits] using hDigits

/-- What stands before the first `c` and after it. -/
theorem append_cons_inj {α : Type} {c : α} {xs ys as bs : List α} (hx : c ∉ xs) (hy : c ∉ ys)
    (h : xs ++ c :: as = ys ++ c :: bs) : xs = ys ∧ as = bs := by
  induction xs generalizing ys with
  | nil =>
    cases ys with
    | nil => exact ⟨rfl, (cons.inj h).2⟩
    | cons y ys => exact absurd ((cons.inj h).1 ▸ mem_cons_self) hy
  | cons x xs ih =>
    cases ys with
    | nil => exact absurd ((cons.inj h).1 ▸ mem_cons_self) hx
    | cons y ys =>
      obtain ⟨rfl, hTail⟩ := cons.inj h
      have hSame := ih (not_mem_of_not_mem_cons hx) (not_mem_of_not_mem_cons hy) hTail
      exact ⟨congrArg _ hSame.1, hSame.2⟩

namespace Diagram

/-- A name with underscores after it. -/
def underscored (name : String) (k : Nat) : String := name ++ String.ofList (replicate k '_')

theorem underscored_zero (name : String) : underscored name 0 = name := String.append_empty

theorem underscored_succ (name : String) (k : Nat) :
    underscored name (k + 1) = underscored (name ++ "_") k := by
  refine String.toList_inj.mp ?_
  simp [underscored, replicate_succ]

/-- A name that is still free is found: each taken name that is passed over is shorter
than all that are tried after it. -/
theorem freeName_search_not_mem {taken : List String} {tries : Nat}
    (h : (taken.filter fun n => name.length ≤ n.length).length ≤ tries) :
    freeName.search taken tries name ∉ taken := by
  induction tries generalizing name with
  | zero =>
    intro hIn
    rw [freeName.search] at hIn
    rw [Nat.le_zero, length_eq_zero_iff, filter_eq_nil_iff] at h
    exact h name hIn (by simp)
  | succ tries ih =>
    rw [freeName.search]
    split
    · rename_i hIn
      rw [contains_iff_mem] at hIn
      apply ih
      have hLonger : (name ++ "_").length = name.length + 1 := String.length_append name "_"
      have hFewer : (taken.filter fun n => (name ++ "_").length ≤ n.length) =
          (taken.filter fun n => name.length ≤ n.length).filter
            fun n => (name ++ "_").length ≤ n.length := by
        rw [filter_filter]
        refine filter_congr fun n _ => ?_
        rw [hLonger, ← Bool.decide_and, decide_eq_decide]
        omega
      have hLess := (length_filter_lt_length_iff_exists
        (l := taken.filter fun n => name.length ≤ n.length)
        (p := fun n : String => decide ((name ++ "_").length ≤ n.length))).mpr
        ⟨name, mem_filter.mpr ⟨hIn, decide_eq_true (Nat.le_refl _)⟩, by simp [hLonger]⟩
      rw [hFewer]
      omega
    · rename_i hIn
      simpa using hIn

theorem freeName_not_mem (taken : List String) (name : String) : freeName taken name ∉ taken :=
  freeName_search_not_mem (length_filter_le _ _)

theorem freeName_search_eq (taken : List String) (tries : Nat) (name : String) :
    ∃ k, freeName.search taken tries name = underscored name k ∧
      ∀ l < k, underscored name l ∈ taken := by
  induction tries generalizing name with
  | zero => exact ⟨0, (underscored_zero name).symm, fun l hl => absurd hl l.not_lt_zero⟩
  | succ tries ih =>
    rw [freeName.search]
    split
    · rename_i hIn
      obtain ⟨k, hk, hTaken⟩ := ih (name ++ "_")
      refine ⟨k + 1, hk.trans (underscored_succ name k).symm, fun l hl => ?_⟩
      cases l with
      | zero => simpa [underscored_zero] using hIn
      | succ l =>
        rw [underscored_succ]
        exact hTaken l (Nat.lt_of_succ_lt_succ hl)
    · exact ⟨0, (underscored_zero name).symm, fun l hl => absurd hl l.not_lt_zero⟩

theorem underscore_not_mem_toString (i : Nat) : '_' ∉ (toString i).toList := by
  rw [Nat.toString_eq_ofList_toDigits, String.toList_ofList]
  exact fun h => absurd (Nat.isDigit_of_mem_toDigits (by decide) (by decide) h) (by decide)

/-- The last number of a name and what stands before it can be read off from the end: first go
the underscores after the number. -/
theorem dropWhile_numbered (a : List Char) (i k : Nat) :
    (a ++ '_' :: ((toString i).toList ++ replicate k '_')).reverse.dropWhile (· == '_') =
      (toString i).toList.reverse ++ '_' :: a.reverse := by
  obtain ⟨c, cs, hReverse⟩ : ∃ c cs, (toString i).toList.reverse = c :: cs := by
    apply exists_cons_of_ne_nil
    rw [Nat.toString_eq_ofList_toDigits, String.toList_ofList, ne_eq, reverse_eq_nil_iff]
    exact Nat.toDigits_ne_nil
  have hHead : (c == '_') = false := by
    rw [beq_eq_false_iff_ne]
    rintro rfl
    exact underscore_not_mem_toString i (mem_reverse.mp (hReverse ▸ mem_cons_self))
  rw [reverse_append, reverse_cons, reverse_append, append_assoc, append_assoc,
    reverse_replicate, dropWhile_append_of_pos fun c hc => by simp [eq_of_mem_replicate hc],
    hReverse, cons_append, dropWhile_cons_of_neg (by simp [hHead])]
  simp

/-- **Different elements have different variables.** -/
theorem variableFor_injective {sort sort' : String} {i j : Nat}
    (h : (variableFor p sort i).name = (variableFor p sort' j).name) : sort = sort' ∧ i = j := by
  have hName : ∀ (sort : String) (i : Nat), ∃ k, (variableFor p sort i).name.toList =
      'V' :: '_' :: sort.toList ++ '_' :: ((toString i).toList ++ replicate k '_') := by
    intro sort i
    obtain ⟨k, hk, -⟩ := freeName_search_eq (p.symbols.map Symbol.name ++ p.sorts)
      (p.symbols.map Symbol.name ++ p.sorts).length ("V_" ++ sort ++ "_" ++ toString i)
    refine ⟨k, (congrArg String.toList hk).trans ?_⟩
    simp only [underscored, String.toList_append, append_assoc, String.toList_ofList]
    rfl
  obtain ⟨k, hk⟩ := hName sort i
  obtain ⟨l, hl⟩ := hName sort' j
  have hEnds := dropWhile_numbered ('V' :: '_' :: sort.toList) i k
  rw [← hk, h, hl, dropWhile_numbered] at hEnds
  obtain ⟨hNumber, hSort⟩ := append_cons_inj
    (fun hIn => underscore_not_mem_toString j (mem_reverse.mp hIn))
    (fun hIn => underscore_not_mem_toString i (mem_reverse.mp hIn)) hEnds
  have hSort := reverse_injective hSort
  simp only [cons.injEq, true_and] at hSort
  exact ⟨(String.toList_inj.mp hSort).symm,
    toString_injective (String.toList_inj.mp (reverse_injective hNumber)).symm⟩

theorem variableFor_name_ne (sort : String) (i : Nat) (hs : s ∈ p.symbols) :
    (variableFor p sort i).name ≠ s.name := by
  have hFree := freeName_not_mem (p.symbols.map Symbol.name ++ p.sorts)
    ("V_" ++ sort ++ "_" ++ toString i)
  rw [mem_append, not_or] at hFree
  exact fun hName => hFree.1 (mem_map.mpr ⟨s, hs, hName.symm⟩)

/-- The names to try for an element. -/
def candidate (sort : String) (i k : Nat) : String :=
  underscored ("V_" ++ sort ++ "_" ++ toString i) k

/-- **The variables for elements are fresh and distinct.** Each element gets the first
candidate that is no symbol and no sort, and no two elements get the same name. -/
theorem variables_fresh_and_distinct (p : Program) {universes : List (String × List String)}
    (h : (universes.map Prod.fst).Nodup) :
    (∀ (sort : String) (elements : List String) (i : Nat),
      (variablesFor p sort elements)[i]? = elements[i]?.map (·, variableFor p sort i)) ∧
    (∀ (sort : String) (i : Nat), ∃ k,
      (variableFor p sort i).name = candidate sort i k ∧
      (∀ s ∈ p.symbols, (variableFor p sort i).name ≠ s.name) ∧
      (variableFor p sort i).name ∉ p.sorts ∧
      ∀ l < k, (∃ s ∈ p.symbols, s.name = candidate sort i l) ∨ candidate sort i l ∈ p.sorts) ∧
    ((universes.flatMap fun u => variablesFor p u.1 u.2).map fun entry => entry.2.name).Nodup := by
  refine ⟨fun sort elements i => getElem?_mapIdx, fun sort i => ?_, ?_⟩
  · obtain ⟨k, hk, hTaken⟩ := freeName_search_eq (p.symbols.map Symbol.name ++ p.sorts)
      (p.symbols.map Symbol.name ++ p.sorts).length ("V_" ++ sort ++ "_" ++ toString i)
    refine ⟨k, hk, fun s => variableFor_name_ne sort i,
      fun hIn => freeName_not_mem _ _ (mem_append_right _ hIn), fun l hl => ?_⟩
    simpa [candidate] using hTaken l hl
  · rw [map_flatMap, nodup_flatMap]
    constructor
    · intro u _
      -- the variables of one universe differ in their numbers
      rw [Nodup, pairwise_iff_getElem]
      intro i j hi hj hLess hName
      simp only [variablesFor, getElem_map, getElem_mapIdx] at hName
      exact hLess.ne (variableFor_injective hName).2
    · -- and those of different ones in their sorts
      refine (pairwise_map.mp h).imp fun {u v} hNe n hn hn' => hNe ?_
      simp only [variablesFor, mem_map, mem_mapIdx] at hn hn'
      obtain ⟨_, ⟨i, _, rfl⟩, rfl⟩ := hn
      obtain ⟨_, ⟨j, _, rfl⟩, hName⟩ := hn'
      exact (variableFor_injective hName).1.symm

theorem variables_fresh_and_distinct_prefixed :
    ["a", "a_0"].Nodup ∧
    (([("a", ["x", "y"]), ("a_0", ["z"])].flatMap fun u =>
      variablesFor { Program.empty with sorts := ["a", "a_0", "V_a_0"] } u.1 u.2).map fun entry =>
        entry.2.name).Nodup ∧
    (variableFor { Program.empty with sorts := ["a", "a_0", "V_a_0"] } "a" 0).name = "V_a_0_" :=
  ⟨by decide, (variables_fresh_and_distinct _ (by decide)).2.2, by cbv⟩

end Diagram

/-- The variables that diagrams have: one for each number of an element of a sort. -/
def IsVariable (p : Program) (x : Var) : Prop :=
  ∃ sort ∈ p.sorts, ∃ i, x = Diagram.variableFor p sort i

namespace IsVariable

variable {p : Program} {x y : Var}

theorem name_ne (h : IsVariable p x) (hs : s ∈ p.symbols) : x.name ≠ s.name := by
  obtain ⟨sort, -, i, rfl⟩ := h
  exact Diagram.variableFor_name_ne sort i hs

theorem symbol?_eq_none (h : IsVariable p x) : p.symbol? x.name = none :=
  find?_eq_none.mpr fun _ hs => by simpa using (h.name_ne hs).symm

/-- **The name of a variable tells its sort.** -/
theorem sort_eq (hx : IsVariable p x) (hy : IsVariable p y) (h : x.name = y.name) :
    x.sort = y.sort := by
  obtain ⟨sort, -, i, rfl⟩ := hx
  obtain ⟨sort', -, j, rfl⟩ := hy
  exact (Diagram.variableFor_injective h).1

end IsVariable

/-! ## Well-named diagrams -/

/-- A name is a symbol that diagrams speak of: any but a derived relation. -/
def IsPlain (p : Program) (n : String) : Prop :=
  ∃ s, p.symbol? n = some s ∧ s.isDerived = false

/-- Applications, equations, and their negations. -/
def Formula.IsLiteral : Formula → Prop
  | .id _ | .app _ _ | .eq _ _ | .ne _ _ => True
  | .not (.id _) | .not (.app _ _) => True
  | _ => False

namespace Diagram

/-- A literal speaks of some variables and plain symbols only. One about a constant equates
it with a variable. -/
structure Speaks (p : Program) (vars : List Var) (c : Conjunct) : Prop where
  names : ∀ n, c.formula.Uses (vars.map Var.name) n → IsPlain p n
  literal : c.formula.IsLiteral
  constant : c.kind = .constant → ∃ k x, c.formula = .eq (.id k) (.id x) ∧ IsPlain p k

/-- A diagram is made of variables for elements, and of literals over them and over plain
symbols. -/
structure WellNamed (p : Program) (d : Diagram) : Prop where
  vars : ∀ x ∈ d.vars, IsVariable p x
  names : ∀ c ∈ d.conjuncts, ∀ n, c.formula.Uses (d.vars.map Var.name) n → IsPlain p n
  literal : ∀ c ∈ d.conjuncts, c.formula.IsLiteral

variable {p : Program}

theorem WellNamed.of_thins {small : Diagram} (hd : d.WellNamed p) (h : small.Thins d) :
    small.WellNamed p := by
  refine ⟨h.vars ▸ hd.vars, fun c hc n hn => ?_, fun c hc => ?_⟩
  · obtain ⟨c', hc', hEq⟩ := h.formula_mem hc
    exact hd.names c' hc' n (hEq ▸ h.vars ▸ hn)
  · obtain ⟨c', hc', hEq⟩ := h.formula_mem hc
    exact hEq ▸ hd.literal c' hc'

/-! ### Constants put for variables -/

theorem constantNames_plain (h : ∀ c ∈ d.conjuncts, Speaks p d.vars c) :
    ∀ entry ∈ d.constantNames, ∃ k, entry.2 = .id k ∧ IsPlain p k := by
  intro entry hEntry
  obtain ⟨c, hc, hKind, target, rest, hChildren, -⟩ := mem_constantNames hEntry
  obtain ⟨k, x, hFormula, hPlain⟩ := (h c (mem_filter.mp hc).1).constant hKind
  rw [hFormula] at hChildren
  exact ⟨k, (cons.inj hChildren).1.symm, hPlain⟩

theorem isLiteral_substitute {s : Formula.Substitution} (hf : f.IsLiteral)
    (hs : ∀ entry ∈ s, ∃ k, entry.2 = .id k) : (f.substitute s).IsLiteral := by
  have hId : ∀ n, ∃ k, (Formula.id n).substitute s = .id k := by
    intro n
    rw [substitute]
    cases hLookup : s.lookup n with
    | none => exact ⟨n, rfl⟩
    | some g => exact hs _ (mem_of_lookup hLookup)
  fun_cases Formula.IsLiteral f with
  | case1 n =>
    obtain ⟨k, hk⟩ := hId n
    rw [hk]
    trivial
  | case5 n =>
    obtain ⟨k, hk⟩ := hId n
    rw [substitute, hk]
    trivial
  | case7 => simp_all [Formula.IsLiteral]
  | case2 | case3 | case4 | case6 => simp only [substitute, Formula.IsLiteral]

theorem replaced_or_kept (hx : x ∈ d.vars) :
    x.name ∈ d.constantNames.map Prod.fst ∨ x ∈ d.simplifyConstants.vars := by
  rw [vars_simplifyConstants]
  cases hLookup : d.constantNames.lookup x.name with
  | none => exact Or.inr (mem_filter.mpr ⟨hx, by simp [hLookup]⟩)
  | some g => exact Or.inl (mem_map_of_mem (f := Prod.fst) (mem_of_lookup hLookup))

theorem wellNamed_simplifyConstants (hVars : ∀ x ∈ d.vars, IsVariable p x)
    (h : ∀ c ∈ d.conjuncts, Speaks p d.vars c) : d.simplifyConstants.WellNamed p := by
  have hNamed := constantNames_plain h
  refine ⟨fun x hx => ?_, fun c hc n hn => ?_, fun c hc => ?_⟩
  · rw [vars_simplifyConstants] at hx
    exact hVars x (mem_filter.mp hx).1
  · obtain ⟨c', hc', rfl⟩ := mem_simplifyConstants hc
    rcases uses_substitute hn with hUse | ⟨entry, hEntry, hUse⟩
    · refine (h c' hc').names n (hUse.of_hidden fun hIn => ?_)
      obtain ⟨x, hx, rfl⟩ := mem_map.mp hIn
      exact mem_append.mpr ((replaced_or_kept hx).imp_right mem_map_of_mem)
    · obtain ⟨k, hk, hPlain⟩ := hNamed entry hEntry
      rw [hk, Uses] at hUse
      exact hUse.1 ▸ hPlain
  · obtain ⟨c', hc', rfl⟩ := mem_simplifyConstants hc
    exact isLiteral_substitute (h c' hc').literal fun entry hEntry =>
      (hNamed entry hEntry).imp fun _ hk => hk.1

end Diagram

/-! ## Diagrams of traces -/

/-- A meaning that a trace gives belongs to a symbol of the program and has entries for so
many arguments as the symbol takes. -/
def Interpretation.Fits (p : Program) (i : Interpretation) : Prop :=
  ∃ s ∈ p.symbols, s.name = i.symbol ∧ ∀ entry ∈ i.entries, entry.1.length = s.args.length

/-- A trace speaks of sorts and symbols of the program. -/
structure Trace.Fits (p : Program) (t : Trace) : Prop where
  universes : ∀ entry ∈ t.universes, entry.1 ∈ p.sorts
  immutable : ∀ i ∈ t.immutable, i.Fits p
  states : ∀ s ∈ t.states, ∀ i ∈ s, i.Fits p

namespace Diagram

variable {t : Trace} {c : Conjunct} {p : Program} {named : List (String × Var)}

theorem elementVar_eq_ok {element : String} (h : elementVar named element = .ok f) :
    ∃ x, (element, x) ∈ named ∧ f = .id x.name := by
  rw [elementVar] at h
  split at h
  · rename_i x hLookup
    cases h
    exact ⟨x, mem_reverse.mp (mem_of_lookup hLookup), rfl⟩
  · cases h

/-- The literal of an entry: the symbol is applied to the variables of the arguments and, unless
it is a relation, equated with the variable of the value. -/
inductive IsEntry (named : List (String × Var)) (s : Symbol) (entry : List String × String) :
    Conjunct → Prop
  | relation {xs : List Var} (hxs : Forall₂ (fun e x => (e, x) ∈ named) entry.1 xs)
      (hKind : s.isRelation = true) : IsEntry named s entry ⟨.relation, true,
        if entry.2 = "true" then .apply s.name (xs.map fun x => .id x.name)
        else .not (.apply s.name (xs.map fun x => .id x.name))⟩
  | equation {xs : List Var} {y : Var} {kind : ConjunctKind}
      (hxs : Forall₂ (fun e x => (e, x) ∈ named) entry.1 xs) (hy : (entry.2, y) ∈ named)
      (hKind : s.isRelation = false) (hConstant : kind = .constant → s.args = []) :
      IsEntry named s entry ⟨kind, true,
        .eq (.apply s.name (xs.map fun x => .id x.name)) (.id y.name)⟩

theorem mapM_elementVar_eq_ok (h : elements.mapM (elementVar named) = .ok args) :
    ∃ xs, Forall₂ (fun e x => (e, x) ∈ named) elements xs ∧ args = xs.map fun x => .id x.name := by
  have hAll := mapM_eq_ok.mp h
  clear h
  induction hAll with
  | nil => exact ⟨[], .nil, rfl⟩
  | cons hHead _ ih =>
    obtain ⟨x, hx, rfl⟩ := elementVar_eq_ok hHead
    obtain ⟨xs, hxs, rfl⟩ := ih
    exact ⟨x :: xs, .cons hx hxs, rfl⟩

/-- **What the literal of an entry looks like.** -/
theorem literal_eq_ok {entry : List String × String} (h : literal named s entry = .ok c) :
    IsEntry named s entry c := by
  rw [literal, bind_eq_ok] at h
  obtain ⟨args, hArgs, h⟩ := h
  obtain ⟨xs, hxs, rfl⟩ := mapM_elementVar_eq_ok hArgs
  split at h
  · rename_i hKind
    cases h
    exact .relation hxs (by simp [Symbol.isRelation, hKind])
  · rename_i hKind
    obtain ⟨f, hf, h⟩ := bind_eq_ok.mp h
    cases h
    obtain ⟨y, hy, rfl⟩ := elementVar_eq_ok hf
    refine .equation hxs hy (by simp [Symbol.isRelation, hKind]) fun _ => ?_
    cases hSignature : s.signature <;> simp_all [Symbol.kind, Symbol.args]
  · rename_i hKind
    obtain ⟨f, hf, h⟩ := bind_eq_ok.mp h
    cases h
    obtain ⟨y, hy, rfl⟩ := elementVar_eq_ok hf
    exact .equation hxs hy (by simp [Symbol.isRelation, hKind]) (by simp)

/-- Where the literals of a trace's diagram come from: from two variables, or from an entry of a
symbol that is not derived. -/
inductive Origin (p : Program) (t : Trace) (named : List (String × Var)) (c : Conjunct) : Prop
  | distinct {x y : Var} (hx : x ∈ named.map Prod.snd) (hy : y ∈ named.map Prod.snd)
      (hc : c = ⟨.distinct, true, .ne (.id x.name) (.id y.name)⟩)
  | entry {i : Interpretation} {s : Symbol} {entry : List String × String}
      (hi : i ∈ t.immutable ∨ ∃ state ∈ t.states, i ∈ state) (hs : p.symbol? s.name = some s)
      (hName : s.name = i.symbol) (hDerived : s.isDerived = false) (hEntry : entry ∈ i.entries)
      (hArity : entry.1.length = s.args.length) (hc : IsEntry named s entry c)

theorem origin_of_literals (hFits : t.Fits p) (hNodup : (p.symbols.map Symbol.name).Nodup)
    (hi : i ∈ t.immutable ∨ ∃ state ∈ t.states, i ∈ state) {cs : List Conjunct}
    (h : literals p named i = .ok cs) (hc : c ∈ cs) : Origin p t named c := by
  obtain ⟨s', hs', hName, hEntries⟩ : i.Fits p :=
    hi.elim (hFits.immutable i) fun ⟨state, hState, hi⟩ => hFits.states state hState i hi
  rw [literals] at h
  split at h
  · cases h
  · rename_i s hSymbol
    have hs := mem_of_find?_eq_some hSymbol
    have hsName : s.name = i.symbol := by simpa using find?_some hSymbol
    obtain rfl : s = s' := inj_on_of_nodup_map hNodup hs hs' (hsName.trans hName.symm)
    split at h
    · cases h
      cases hc
    · rename_i hDerived
      obtain ⟨entry, hEntry, hLiteral⟩ := mem_of_mapM_eq_ok h hc
      exact .entry hi (hsName ▸ hSymbol) hsName (by simpa using hDerived) hEntry
        (hEntries entry hEntry) (literal_eq_ok hLiteral)

theorem origin_of_distinctness {vars : List Var} (h : ∀ x ∈ vars, x ∈ named.map Prod.snd)
    (hc : c ∈ distinctness vars) : Origin p t named c := by
  induction vars with
  | nil => cases hc
  | cons x vars ih =>
    rw [distinctness, mem_append] at hc
    rcases hc with hc | hc
    · obtain ⟨y, hy, rfl⟩ := mem_map.mp hc
      exact .distinct (h x mem_cons_self) (h y (mem_cons_of_mem x hy)) rfl
    · exact ih (fun y hy => h y (mem_cons_of_mem x hy)) hc

/-- What the diagram of a trace is made of, before constants are put in: variables for elements,
and literals. -/
theorem ofTrace_eq_ok (hFits : t.Fits p) (hNodup : (p.symbols.map Symbol.name).Nodup)
    (h : ofTrace p t index simplify = .ok d) :
    ∃ (named : List (String × Var)) (cs : List Conjunct),
      (∀ entry ∈ named, ∃ u ∈ t.universes, entry.1 ∈ u.2 ∧
        ∃ i, entry.2 = variableFor p u.1 i) ∧
      (∀ c ∈ cs, Origin p t named c) ∧
      d = if simplify then simplifyConstants ⟨named.map Prod.snd, cs⟩
        else ⟨named.map Prod.snd, cs⟩ := by
  simp only [ofTrace, bind_eq_ok, mapError_eq_ok, pure_eq_ok] at h
  obtain ⟨immutable, hImmutable, state, hState, mutables, hMutables, rfl⟩ := h
  have hIn : state ∈ t.states := by
    rw [Trace.state] at hState
    split at hState
    · cases hState
      rename_i hState
      exact mem_of_getElem? hState
    · cases hState
  refine ⟨_, _, fun entry hEntry => ?_, fun c hc => ?_, rfl⟩
  · obtain ⟨vars, hvars, hEntry⟩ := mem_flatten.mp hEntry
    obtain ⟨listed, hListed, rfl⟩ := mem_map.mp hvars
    rw [variablesFor, mem_mapIdx] at hEntry
    obtain ⟨i, hi, rfl⟩ := hEntry
    exact ⟨listed, hListed, getElem_mem hi, i, rfl⟩
  · simp only [mem_append, mem_flatMap, mem_flatten] at hc
    rcases hc with (⟨vars, hvars, hc⟩ | ⟨cs, hcs, hc⟩) | ⟨cs, hcs, hc⟩
    · refine origin_of_distinctness (fun x hx => ?_) hc
      obtain ⟨entry, hEntry, rfl⟩ := mem_map.mp hx
      exact mem_map_of_mem (mem_flatten.mpr ⟨vars, hvars, hEntry⟩)
    · obtain ⟨i, hi, hLiterals⟩ := mem_of_mapM_eq_ok hImmutable hcs
      exact origin_of_literals hFits hNodup (Or.inl hi) hLiterals hc
    · obtain ⟨i, hi, hLiterals⟩ := mem_of_mapM_eq_ok hMutables hcs
      exact origin_of_literals hFits hNodup (Or.inr ⟨state, hIn, hi⟩) hLiterals hc

theorem isVariable_of_named (hFits : t.Fits p)
    (hNamed : ∀ entry ∈ named, ∃ u ∈ t.universes, entry.1 ∈ u.2 ∧
      ∃ i, entry.2 = variableFor p u.1 i) : ∀ x ∈ named.map Prod.snd, IsVariable p x := by
  intro x hx
  obtain ⟨entry, hEntry, rfl⟩ := mem_map.mp hx
  obtain ⟨u, hu, -, i, hi⟩ := hNamed entry hEntry
  exact ⟨u.1, hFits.universes u hu, i, hi⟩

section Uses

variable {vars : List Var} {n : String}

theorem uses_variable (hx : x ∈ vars) : ¬ (Formula.id x.name).Uses (vars.map Var.name) n := by
  intro hn
  rw [Formula.Uses] at hn
  exact hn.2 (hn.1 ▸ mem_map_of_mem hx)

theorem uses_application (hxs : ∀ x ∈ xs, x ∈ vars)
    (hn : (apply name (xs.map fun x => .id x.name)).Uses (vars.map Var.name) n) : n = name := by
  rcases uses_apply hn with hName | ⟨f, hf, hUse⟩
  · exact hName
  · obtain ⟨x, hx, rfl⟩ := mem_map.mp hf
    exact absurd hUse (uses_variable (hxs x hx))

end Uses

theorem mem_vars_of_forall₂ (h : Forall₂ (fun e x => (e, x) ∈ named) elements xs) :
    ∀ x ∈ xs, x ∈ named.map Prod.snd := by
  intro x hx
  obtain ⟨_, -, hIn⟩ := exists_left_of_forall₂ h hx
  exact mem_map_of_mem (f := Prod.snd) hIn

/-- **The literals of a trace's diagram speak of its variables and of plain symbols.** -/
theorem Origin.speaks (h : Origin p t named c) : Speaks p (named.map Prod.snd) c := by
  cases h with
  | distinct hx hy hc =>
    subst hc
    refine ⟨fun n hn => ?_, trivial, by simp⟩
    rw [Uses] at hn
    exact (hn.elim (uses_variable hx) (uses_variable hy)).elim
  | @entry i s entry hi hs hName hDerived hEntry hArity hc =>
    have hPlain : IsPlain p s.name := ⟨s, hs, hDerived⟩
    have hAtom : ∀ args, (apply s.name args).IsLiteral ∧
        (not (apply s.name args)).IsLiteral := by
      intro args
      cases args <;> exact ⟨trivial, trivial⟩
    cases hc with
    | @relation xs hxs hKind =>
      have hUses : ∀ n, (apply s.name (xs.map fun x => .id x.name)).Uses
          ((named.map Prod.snd).map Var.name) n → IsPlain p n := fun n hn =>
        uses_application (mem_vars_of_forall₂ hxs) hn ▸ hPlain
      split
      · exact ⟨hUses, (hAtom _).1, by simp⟩
      · exact ⟨fun n hn => hUses n (by rwa [Uses] at hn), (hAtom _).2, by simp⟩
    | @equation xs y kind hxs hy hKind hConstant =>
      refine ⟨fun n hn => ?_, trivial, fun hIs => ?_⟩
      · rw [Uses] at hn
        rcases hn with hn | hn
        · exact uses_application (mem_vars_of_forall₂ hxs) hn ▸ hPlain
        · exact absurd hn (uses_variable (mem_map_of_mem (f := Prod.snd) hy))
      · -- A constant takes no arguments, so its application is the bare name.
        rw [hConstant hIs, hxs.length_eq, length_nil, length_eq_zero_iff] at hArity
        subst hArity
        exact ⟨s.name, y.name, rfl, hPlain⟩

/-- **The diagrams of traces are well named**, simplified or not. -/
theorem wellNamed_ofTrace (hNodup : (p.symbols.map Symbol.name).Nodup) (hFits : t.Fits p)
    (h : ofTrace p t index simplify = .ok d) : d.WellNamed p := by
  obtain ⟨named, cs, hNamed, hOrigin, rfl⟩ := ofTrace_eq_ok hFits hNodup h
  have hVars := isVariable_of_named hFits hNamed
  have hSpeaks : ∀ c ∈ cs, Speaks p (named.map Prod.snd) c := fun c hc => (hOrigin c hc).speaks
  cases simplify
  · exact ⟨hVars, fun c hc => (hSpeaks c hc).names, fun c hc => (hSpeaks c hc).literal⟩
  · exact wellNamed_simplifyConstants hVars hSpeaks

end Diagram

/-! ## Traces of models -/

theorem Encoding.fits_readSymbol {u : Universes} (hs : s ∈ e.program.symbols)
    (h : e.readSymbol m u s index = .ok i) : i.Fits e.program := by
  simp only [readSymbol, bind_eq_ok, pure_eq_ok] at h
  obtain ⟨symbol, -, entries, hEntries, rfl⟩ := h
  refine ⟨s, hs, rfl, fun entry hEntry => ?_⟩
  obtain ⟨args, hArgs, h⟩ := mem_of_mapM_eq_ok hEntries hEntry
  simp only [bind_eq_ok, pure_eq_ok] at h
  obtain ⟨value, -, rfl⟩ := h
  rw [length_map, (mem_tuples_iff.mp hArgs).length_eq, length_map]

/-- **The trace of a model fits the program.** -/
theorem Encoding.fits_readModel {t : Trace} (h : e.readModel m = .ok t) : t.Fits e.program := by
  simp only [readModel, bind_eq_ok, pure_eq_ok] at h
  obtain ⟨u, -, immutable, hImmutable, states, hStates, rfl⟩ := h
  refine ⟨fun entry hEntry => ?_, fun i hi => ?_, fun state hState i hi => ?_⟩
  · obtain ⟨sort, hSort, rfl⟩ := mem_map.mp hEntry
    exact hSort
  · obtain ⟨s, hs, h⟩ := mem_of_mapM_eq_ok hImmutable hi
    exact fits_readSymbol (mem_filter.mp hs).1 h
  · obtain ⟨index, -, h⟩ := mem_of_mapM_eq_ok hStates hState
    obtain ⟨s, hs, h⟩ := mem_of_mapM_eq_ok h hi
    exact fits_readSymbol (mem_filter.mp hs).1 h

end InvariantSearch
