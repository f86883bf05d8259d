import InvariantSearch.Program.Basic
import InvariantSearch.Proofs.Formula.Parts
import Mathlib.Tactic.Tauto

/-!
# The meaning of formulas

Formulas are read in many-sorted structures.

* `Domain` — the elements, each of one sort.
* `State` — what every symbol means in one state.
* `Formula.value` — the value of a formula or term in a sequence of states, at
  one position of it. `new` moves on to the next position. Every formula has a
  value, also one that no program accepts: what is no truth does not hold.
* `Formula.HoldsIn` — a formula about a single state holds there.

Main results: `holds_conj`, `holds_disj`, `holds_forAll` and `holds_thereIs`
read the formulas that a search builds, `holds_complement` reads the literals
of its predicates, and `value_congr` says that a value depends on the names
that a formula uses and on nothing else.
-/

namespace InvariantSearch

open List Formula

variable {name : String} {hidden : List String} {xs : List Var} {f : Formula}

/-- The elements that formulas speak of, each of one sort. No element has the
sort of truth values. -/
structure Domain where
  Element : Type
  sort : Element → String
  sort_ne_bool : ∀ x, sort x ≠ boolSort

/-- What a formula or term stands for. -/
inductive Value (α : Type) where
  | truth (p : Prop)
  | element (x : α)

/-- A truth holds if it is one; an element does not. -/
def Value.Holds {α : Type} : Value α → Prop
  | .truth p => p
  | .element _ => False

@[simp] theorem Value.holds_truth {α : Type} {p : Prop} : (Value.truth p : Value α).Holds ↔ p :=
  Iff.rfl

/-- The meaning of every symbol in one state. -/
abbrev State (D : Domain) := String → List (Value D.Element) → Value D.Element

/-- The values of the variables in scope. -/
abbrev Valuation (D : Domain) := String → Option (Value D.Element)

namespace Valuation

variable {D : Domain}

/-- The valuation without variables. -/
def empty : Valuation D := fun _ => none

/-- Gives a variable a value. -/
def bind (v : Valuation D) (name : String) (x : D.Element) : Valuation D :=
  fun n => if n = name then some (.element x) else v n

@[simp] theorem bind_self (v : Valuation D) (name : String) (x : D.Element) :
    v.bind name x name = some (.element x) := by
  simp [bind]

theorem bind_of_ne (v : Valuation D) {n : String} (x : D.Element) (h : n ≠ name) :
    v.bind name x n = v n := by
  simp [bind, h]

end Valuation

section Closures

variable {D : Domain} {P : Valuation D → Prop} {v : Valuation D}

/-- A condition holds for all values of some variables. -/
def ForAllOf : List Var → (Valuation D → Prop) → Valuation D → Prop
  | [], P, v => P v
  | x :: xs, P, v => ∀ a : D.Element, D.sort a = x.sort → ForAllOf xs P (v.bind x.name a)

/-- A condition holds for some values of some variables. -/
def ExistsOf : List Var → (Valuation D → Prop) → Valuation D → Prop
  | [], P, v => P v
  | x :: xs, P, v => ∃ a : D.Element, D.sort a = x.sort ∧ ExistsOf xs P (v.bind x.name a)

theorem not_forAllOf_iff : ¬ ForAllOf xs P v ↔ ExistsOf xs (fun w => ¬ P w) v := by
  induction xs generalizing v with
  | nil => exact Iff.rfl
  | cons x xs ih =>
    simp only [ForAllOf, ExistsOf, Classical.not_forall]
    constructor
    · rintro ⟨a, ha, h⟩
      exact ⟨a, ha, ih.mp h⟩
    · rintro ⟨a, ha, h⟩
      exact ⟨a, ha, ih.mpr h⟩

theorem ExistsOf.mono {Q : Valuation D → Prop} (h : ∀ w, P w → Q w) (hP : ExistsOf xs P v) :
    ExistsOf xs Q v := by
  induction xs generalizing v with
  | nil => exact h v hP
  | cons x xs ih =>
    obtain ⟨a, ha, hP⟩ := hP
    exact ⟨a, ha, ih hP⟩

theorem existsOf_congr {Q : Valuation D → Prop} (h : ∀ w, P w ↔ Q w) :
    ExistsOf xs P v ↔ ExistsOf xs Q v :=
  ⟨ExistsOf.mono fun w => (h w).mp, ExistsOf.mono fun w => (h w).mpr⟩

end Closures

namespace Formula

section Values

variable {D : Domain}

open Classical in
mutual

/-- The value of a formula or term at a position of a sequence of states. -/
noncomputable def value (σ : Nat → State D) (i : Nat) (v : Valuation D) :
    Formula → Value D.Element
  | .bool b => .truth (b = true)
  | .id name => (v name).getD (σ i name [])
  | .app name args => σ i name (values σ i v args)
  | .not a => .truth ¬ (value σ i v a).Holds
  | .and parts => .truth (∀ x ∈ values σ i v parts, x.Holds)
  | .or parts => .truth (∃ x ∈ values σ i v parts, x.Holds)
  | .imp a b => .truth ((value σ i v a).Holds → (value σ i v b).Holds)
  | .iff a b => .truth ((value σ i v a).Holds ↔ (value σ i v b).Holds)
  | .eq a b => .truth (value σ i v a = value σ i v b)
  | .ne a b => .truth (value σ i v a ≠ value σ i v b)
  | .ite a b c => if (value σ i v a).Holds then value σ i v b else value σ i v c
  | .all vars a => .truth (ForAllOf vars (fun w => (value σ i w a).Holds) v)
  | .ex vars a => .truth (ExistsOf vars (fun w => (value σ i w a).Holds) v)
  | .new a => value σ (i + 1) v a

/-- The values of several formulas, in order. -/
noncomputable def values (σ : Nat → State D) (i : Nat) (v : Valuation D) :
    List Formula → List (Value D.Element)
  | [] => []
  | f :: fs => value σ i v f :: values σ i v fs

end

/-- A formula holds at a position of a sequence of states. -/
def Holds (σ : Nat → State D) (i : Nat) (v : Valuation D) (f : Formula) : Prop :=
  (f.value σ i v).Holds

/-- A formula about a single state holds in it. -/
def HoldsIn (s : State D) (f : Formula) : Prop := f.Holds (fun _ => s) 0 .empty

theorem values_eq_map (σ : Nat → State D) (i : Nat) (v : Valuation D) (fs : List Formula) :
    values σ i v fs = fs.map (value σ i v) := by
  induction fs with
  | nil => rfl
  | cons f fs ih => rw [values, ih, map_cons]

end Values

/-! ## Connectives -/

section Connectives

variable {D : Domain} {σ : Nat → State D} {i : Nat} {v : Valuation D} {f : Formula}
  {fs : List Formula} {vars : List Var}

attribute [local simp] value

@[simp] theorem holds_bool {b : Bool} : (bool b).Holds σ i v ↔ b = true := by
  simp [Holds]

@[simp] theorem holds_not : (not f).Holds σ i v ↔ ¬ f.Holds σ i v := by
  simp [Holds]

@[simp] theorem holds_and : (and fs).Holds σ i v ↔ ∀ f ∈ fs, f.Holds σ i v := by
  simp [Holds, values_eq_map]

@[simp] theorem holds_or : (or fs).Holds σ i v ↔ ∃ f ∈ fs, f.Holds σ i v := by
  simp [Holds, values_eq_map]

@[simp] theorem holds_all :
    (all vars f).Holds σ i v ↔ ForAllOf vars (fun w => f.Holds σ i w) v := by
  simp [Holds]

@[simp] theorem holds_ex :
    (ex vars f).Holds σ i v ↔ ExistsOf vars (fun w => f.Holds σ i w) v := by
  simp [Holds]

@[simp] theorem holds_conj : (conj fs).Holds σ i v ↔ ∀ f ∈ fs, f.Holds σ i v := by
  match fs with
  | [] => simp [conj, top]
  | [f] => simp [conj]
  | f :: g :: fs => simp [conj]

@[simp] theorem holds_disj : (disj fs).Holds σ i v ↔ ∃ f ∈ fs, f.Holds σ i v := by
  match fs with
  | [] => simp [disj]
  | [f] => simp [disj]
  | f :: g :: fs => simp [disj]

@[simp] theorem holds_forAll :
    (forAll vars f).Holds σ i v ↔ ForAllOf vars (fun w => f.Holds σ i w) v := by
  cases vars <;> simp [forAll, ForAllOf]

@[simp] theorem holds_thereIs :
    (thereIs vars f).Holds σ i v ↔ ExistsOf vars (fun w => f.Holds σ i w) v := by
  cases vars <;> simp [thereIs, ExistsOf]

/-- **The complement of a literal is its negation**, whatever the literal. -/
@[simp] theorem holds_complement : f.complement.Holds σ i v ↔ ¬ f.Holds σ i v := by
  cases f <;> simp [complement, Holds]

end Connectives

/-! ## Names -/

mutual

/-- A formula uses a name below some bound names: it applies the name, or has it
as an identifier that is not bound. -/
def Uses (hidden : List String) (name : String) : Formula → Prop
  | .bool _ => False
  | .id n => n = name ∧ name ∉ hidden
  | .app n args => n = name ∨ UsesAny hidden name args
  | .not a | .new a => Uses hidden name a
  | .and parts | .or parts => UsesAny hidden name parts
  | .imp a b | .iff a b | .eq a b | .ne a b => Uses hidden name a ∨ Uses hidden name b
  | .ite a b c => Uses hidden name a ∨ Uses hidden name b ∨ Uses hidden name c
  | .all vars a | .ex vars a => Uses (vars.map Var.name ++ hidden) name a

/-- One of several formulas uses a name. -/
def UsesAny (hidden : List String) (name : String) : List Formula → Prop
  | [] => False
  | f :: fs => Uses hidden name f ∨ UsesAny hidden name fs

end

theorem usesAny_iff {fs : List Formula} :
    UsesAny hidden name fs ↔ ∃ f ∈ fs, f.Uses hidden name := by
  induction fs with
  | nil => simp [UsesAny]
  | cons f fs ih => simp [UsesAny, ih]

theorem uses_iff_children :
    f.Uses hidden name ↔ f = .id name ∧ name ∉ hidden ∨ (∃ args, f = .app name args) ∨
      ∃ c ∈ f.children, c.Uses (f.bound.map Var.name ++ hidden) name := by
  cases f <;> simp [Uses, usesAny_iff, children, bound]

theorem uses_iff (f : Formula) :
    f.Uses hidden name ↔ name ∈ f.heads ∨ f.Free name ∧ name ∉ hidden := by
  induction f using of_children generalizing hidden with
  | step f ih =>
    have hChildren : (∃ c ∈ f.children, c.Uses (f.bound.map Var.name ++ hidden) name) ↔
        (∃ c ∈ f.children, name ∈ c.heads) ∨
          (name ∉ f.bound.map Var.name ∧ ∃ c ∈ f.children, c.Free name) ∧ name ∉ hidden := by
      rw [exists_congr fun c => and_congr_right fun hc => ih c hc]
      simp only [mem_append, not_or]
      grind
    rw [uses_iff_children, hChildren, mem_heads_iff, free_iff]
    grind

theorem Uses.of_hidden {hidden' : List String} (hName : name ∈ hidden' → name ∈ hidden)
    (h : f.Uses hidden name) : f.Uses hidden' name := by
  rw [uses_iff] at h ⊢
  exact h.imp_right fun h => ⟨h.1, mt hName h.2⟩

end Formula

namespace NameSet

theorem mem_insertSorted {n : String} {names : List String} :
    n ∈ insertSorted name names ↔ n = name ∨ n ∈ names := by
  induction names with
  | nil => simp [insertSorted]
  | cons first rest ih =>
    rw [insertSorted]
    split
    · exact mem_cons
    · split
      · rename_i h
        subst h
        simp
      · simp only [mem_cons, ih]
        tauto

@[simp] theorem mem_insert {name n : String} {s : NameSet} :
    n ∈ (s.insert name).toList ↔ n = name ∨ n ∈ s.toList := mem_insertSorted

end NameSet

namespace Formula

mutual

/-- **The collected names are the used ones**, with those collected before. -/
theorem mem_collectNames : ∀ {f : Formula} {hidden : List String}
    {names : NameSet},
    name ∈ (f.collectNames hidden names).toList ↔ name ∈ names.toList ∨ f.Uses hidden name
  | .bool _, _, _ => by simp [collectNames, Uses]
  | .id n, hidden, names => by
    rw [collectNames, Uses]
    split
    · rename_i h
      rw [contains_iff_mem] at h
      constructor
      · exact Or.inl
      · rintro (hIn | ⟨rfl, hNot⟩)
        · exact hIn
        · exact absurd h hNot
    · rename_i h
      rw [contains_iff_mem] at h
      rw [NameSet.mem_insert]
      constructor
      · rintro (rfl | hIn)
        · exact Or.inr ⟨rfl, h⟩
        · exact Or.inl hIn
      · rintro (hIn | ⟨rfl, -⟩)
        · exact Or.inr hIn
        · exact Or.inl rfl
  | .app n args, _, _ => by
    rw [collectNames, Uses, mem_collectNamesList, NameSet.mem_insert]
    tauto
  | .not a, _, _ | .new a, _, _ => by rw [collectNames, Uses, mem_collectNames]
  | .and parts, _, _ | .or parts, _, _ => by rw [collectNames, Uses, mem_collectNamesList]
  | .imp a b, _, _ | .iff a b, _, _ | .eq a b, _, _ | .ne a b, _, _ => by
    rw [collectNames, Uses, mem_collectNames, mem_collectNames, or_assoc]
  | .ite a b c, _, _ => by
    rw [collectNames, Uses, mem_collectNames, mem_collectNames, mem_collectNames, or_assoc,
      or_assoc]
  | .all vars a, _, _ | .ex vars a, _, _ => by rw [collectNames, Uses, mem_collectNames]

theorem mem_collectNamesList : ∀ {fs : List Formula} {hidden : List String}
    {names : NameSet},
    name ∈ (collectNamesList hidden names fs).toList ↔
      name ∈ names.toList ∨ UsesAny hidden name fs
  | [], _, _ => by simp [collectNamesList, UsesAny]
  | f :: fs, _, _ => by
    rw [collectNamesList, UsesAny, mem_collectNamesList, mem_collectNames, or_assoc]

end

/-! ## What a value depends on -/

section Dependence

variable {D : Domain} {v w : Valuation D} {i : Nat}

/-- Conditions that agree on related valuations agree when variables are quantified, if giving
both valuations one more value brings them closer to being related. -/
theorem closures_congr {R : List Var → Valuation D → Valuation D → Prop} {P Q : Valuation D → Prop}
    (hBind : ∀ {x xs v w} a, R (x :: xs) v w → R xs (v.bind x.name a) (w.bind x.name a))
    (hPQ : ∀ {v w}, R [] v w → (P v ↔ Q w)) {v w : Valuation D} (h : R xs v w) :
    (ForAllOf xs P v ↔ ForAllOf xs Q w) ∧ (ExistsOf xs P v ↔ ExistsOf xs Q w) := by
  induction xs generalizing v w with
  | nil => exact ⟨hPQ h, hPQ h⟩
  | cons x xs ih =>
    exact ⟨forall_congr' fun a => imp_congr_right fun _ => (ih (hBind a h)).1,
      exists_congr fun a => and_congr_right fun _ => (ih (hBind a h)).2⟩

/-- Two readings agree: of a formula with others put in, and of the formula itself. Its symbols
have the same meaning, and its free identifiers the same values, but some may differ yet. -/
structure Agree (f : Formula) (s : Substitution) (σ τ : Nat → State D) (i j : Nat)
    (except : List String) (v w : Valuation D) : Prop where
  heads : ∀ n ∈ f.heads, ∀ k, σ (i + k) n = τ (j + k) n
  values : ∀ n, f.Free n → n ∉ except → ∀ k ≤ f.newDepth,
    ((id n).substitute s).value σ (i + k) v = (id n).value τ (j + k) w

/-- What is put in does not depend on a name. -/
def Substitution.Fixed (s : Substitution) (σ : Nat → State D) (name : String) : Prop :=
  ∀ entry ∈ s, ∀ k v a, entry.2.value σ k (v.bind name a) = entry.2.value σ k v

variable {f : Formula} {s : Substitution} {σ τ : Nat → State D} {j : Nat}

theorem Agree.bind {except : List String} (h : f.Agree s σ τ i j (name :: except) v w)
    (hFixed : s.Fixed σ name) (hName : s.lookup name = none) (a : D.Element) :
    f.Agree s σ τ i j except (v.bind name a) (w.bind name a) := by
  refine ⟨h.heads, fun n hFree hn k hk => ?_⟩
  by_cases hEq : n = name
  · rw [hEq, substitute, hName, Option.getD_none, value, value, Valuation.bind_self,
      Valuation.bind_self]
    rfl
  · have hSame : ((id n).substitute s).value σ (i + k) (v.bind name a) =
        ((id n).substitute s).value σ (i + k) v := by
      rw [substitute]
      cases hLookup : s.lookup n with
      | none => rw [Option.getD_none, value, value, Valuation.bind_of_ne _ _ hEq]
      | some g => exact hFixed _ (mem_of_lookup hLookup) _ v a
    rw [hSame, h.values n hFree (fun hIn => (mem_cons.mp hIn).elim hEq hn) k hk, value, value,
      Valuation.bind_of_ne _ _ hEq]

/-- What agrees on a formula agrees on its parts, below what it binds. -/
theorem Agree.child {c : Formula} (h : f.Agree s σ τ i j [] v w) (hc : c ∈ f.children) :
    c.Agree (s.under f.bound) σ τ i j (f.bound.map Var.name) v w := by
  refine ⟨fun n hn => h.heads n (mem_heads_iff.mpr (.inr ⟨c, hc, hn⟩)), fun n hFree hn k hk => ?_⟩
  rw [substitute, lookup_under, if_neg hn]
  exact h.values n (.child hc hn hFree) not_mem_nil k
    (Nat.le_trans hk (newDepth_le_of_mem_children hc))

theorem Agree.next {a : Formula} (h : (new a).Agree s σ τ i j [] v w) :
    a.Agree s σ τ (i + 1) (j + 1) [] v w := by
  have hc : a ∈ (new a).children := mem_singleton_self a
  constructor
  · intro n hn k
    have := h.heads n (mem_heads_iff.mpr (.inr ⟨a, hc, hn⟩)) (1 + k)
    rwa [← Nat.add_assoc, ← Nat.add_assoc] at this
  · intro n hFree hn k hk
    have := h.values n (.child hc not_mem_nil hFree) hn (1 + k) (by rw [newDepth]; omega)
    rwa [← Nat.add_assoc, ← Nat.add_assoc] at this

/-- **The value of a formula with others put in**: that of the formula itself in a reading that
agrees on its names, if what is put in does not depend on what the formula binds. -/
theorem value_substitute (f : Formula) {s : Substitution} {σ τ : Nat → State D} {i j : Nat}
    {v w : Valuation D} (hFixed : ∀ x ∈ f.boundVars, s.Fixed σ x.name)
    (h : f.Agree s σ τ i j [] v w) : (f.substitute s).value σ i v = f.value τ j w := by
  induction f using of_children generalizing s i j v w with
  | step f ih =>
    have hUnder : ∀ x ∈ f.boundVars, (s.under f.bound).Fixed σ x.name :=
      fun x hx entry hEntry => hFixed x hx entry (mem_filter.mp hEntry).1
    have hInner : ∀ c ∈ f.children, ∀ x ∈ c.boundVars, x ∈ f.boundVars := by
      intro c hc x hx
      obtain ⟨g, hg, hx⟩ := mem_boundVars.mp hx
      exact mem_boundVars.mpr ⟨g, mem_parts_of_mem_children hc hg, hx⟩
    have hChild : f.bound = [] → ∀ c ∈ f.children,
        (c.substitute s).value σ i v = c.value τ j w := by
      intro hBound c hc
      have hAgree := h.child hc
      rw [hBound, under_nil] at hAgree
      exact ih c hc (fun x hx => hFixed x (hInner c hc x hx)) hAgree
    -- the variables of a quantifier get their values one after the other
    have hClosures := fun (c : Formula) (hc : c ∈ f.children) =>
      closures_congr (P := fun v => ((c.substitute (s.under f.bound)).value σ i v).Holds)
        (Q := fun w => (c.value τ j w).Holds) (R := fun xs v w => (∀ x ∈ xs, x ∈ f.bound) ∧
          c.Agree (s.under f.bound) σ τ i j (xs.map Var.name) v w)
        (fun a h => by
          obtain ⟨hx, hxs⟩ := forall_mem_cons.mp h.1
          refine ⟨hxs, h.2.bind (hUnder _ (mem_boundVars.mpr ⟨f, mem_parts_self f, hx⟩)) ?_ a⟩
          rw [lookup_under, if_pos (mem_map_of_mem hx)])
        (fun h => by rw [ih c hc (fun x hx => hUnder x (hInner c hc x hx)) h.2])
        ⟨fun x hx => hx, h.child hc⟩
    cases f with
    | bool _ => rw [substitute, value, value]
    | id n => exact h.values n .id not_mem_nil 0 (Nat.zero_le _)
    | app n args =>
      have hHead : σ i n = τ j n := h.heads n (mem_heads_iff.mpr (.inl ⟨args, rfl⟩)) 0
      rw [substitute, value, value, hHead, substituteList_eq_map, values_eq_map, values_eq_map,
        map_map]
      exact congrArg _ (map_congr_left (hChild rfl))
    | and fs | or fs =>
      have hParts : (fs.map (substitute s)).map (value σ i v) = fs.map (value τ j w) := by
        rw [map_map]
        exact map_congr_left (hChild rfl)
      rw [substitute, value, value, substituteList_eq_map, values_eq_map, values_eq_map, hParts]
    | ite a b c =>
      rw [substitute, value, value, hChild rfl a (by simp [children]),
        hChild rfl b (by simp [children]), hChild rfl c (by simp [children])]
    | all vars a =>
      rw [substitute, value, value]
      exact congrArg _ (propext (hClosures a (mem_singleton_self a)).1)
    | ex vars a =>
      rw [substitute, value, value]
      exact congrArg _ (propext (hClosures a (mem_singleton_self a)).2)
    | new a =>
      rw [substitute, value, value]
      exact ih a (mem_singleton_self a)
        (fun x hx => hFixed x (hInner a (mem_singleton_self a) x hx)) h.next
    | _ => simp_all [substitute, value, children, bound]

/-- **A value depends on the used names only**: on the values of the identifiers that
are free, and on the meaning of the symbols. -/
theorem value_congr (f : Formula) (h : f.Agree [] σ τ i j [] v w) :
    f.value σ i v = f.value τ j w := by
  have hValue := value_substitute f (fun x _ entry hEntry => by cases hEntry) h
  rwa [substitute_nil] at hValue

theorem agree_of_uses (hv : ∀ n, f.Uses [] n → v n = w n)
    (hσ : ∀ n, f.Uses [] n → ∀ k, σ (i + k) n = τ (j + k) n) : f.Agree [] σ τ i j [] v w := by
  refine ⟨fun n hn => hσ n ((uses_iff f).mpr (.inl hn)), fun n hFree hn k _ => ?_⟩
  have hUse := (uses_iff f).mpr (.inr ⟨hFree, hn⟩)
  rw [substitute_nil, value, value, hv n hUse, hσ n hUse k]

theorem holds_congr_valuation {σ : Nat → State D} (h : ∀ n, f.Uses [] n → v n = w n) :
    f.Holds σ i v ↔ f.Holds σ i w := by
  rw [Holds, Holds, value_congr f (agree_of_uses h fun _ _ _ => rfl)]

theorem holdsIn_congr_state {s t : State D} (h : ∀ n, f.Uses [] n → s n = t n) :
    f.HoldsIn s ↔ f.HoldsIn t := by
  rw [HoldsIn, HoldsIn, Holds, Holds, value_congr f (agree_of_uses (fun _ _ => rfl)
    (τ := fun _ => t) (j := 0) fun n hn _ => h n hn)]

end Dependence

end Formula

end InvariantSearch
