import InvariantSearch.Formula.Operations
import Mathlib.Data.List.Basic

/-!
# Parts of formulas

What holds of a formula node by node is shown one level at a time, with `mem_parts` and
`of_children`.

* `parts` — a formula and the formulas inside it.
* `Free` — an identifier stands somewhere in a formula and is not bound there.

Main results: `substitute_congr` says that a substitution depends on what it puts for free
identifiers, and `free_substitute` which identifiers are free after it.
-/

namespace InvariantSearch

open List

variable {c : Formula} {P : Formula → Prop}

theorem mem_of_lookup {α β : Type} [BEq α] [LawfulBEq α] {l : List (α × β)} {a : α} {b : β}
    (h : l.lookup a = some b) : (a, b) ∈ l := by
  obtain ⟨before, after, rfl, -⟩ := lookup_eq_some_iff.mp h
  simp

namespace Formula

variable {f : Formula} {name : String} {g : Formula}

/-! ## Parts -/

mutual

/-- A formula and all formulas inside it. -/
def parts : Formula → List Formula
  | .bool value => [.bool value]
  | .id name => [.id name]
  | .app name args => .app name args :: partsOfAll args
  | .not a => .not a :: parts a
  | .and fs => .and fs :: partsOfAll fs
  | .or fs => .or fs :: partsOfAll fs
  | .imp a b => .imp a b :: (parts a ++ parts b)
  | .iff a b => .iff a b :: (parts a ++ parts b)
  | .eq a b => .eq a b :: (parts a ++ parts b)
  | .ne a b => .ne a b :: (parts a ++ parts b)
  | .ite a b c => .ite a b c :: (parts a ++ parts b ++ parts c)
  | .all vars a => .all vars a :: parts a
  | .ex vars a => .ex vars a :: parts a
  | .new a => .new a :: parts a

/-- The formulas of a list and all formulas inside them. -/
def partsOfAll : List Formula → List Formula
  | [] => []
  | f :: fs => parts f ++ partsOfAll fs

end

theorem mem_partsOfAll {fs : List Formula} : g ∈ partsOfAll fs ↔ ∃ f ∈ fs, g ∈ f.parts := by
  induction fs with
  | nil => simp [partsOfAll]
  | cons f fs ih => simp [partsOfAll, ih]

theorem mem_parts : g ∈ f.parts ↔ g = f ∨ ∃ c ∈ f.children, g ∈ c.parts := by
  cases f <;> simp [parts, children, mem_partsOfAll]

theorem mem_parts_self (f : Formula) : f ∈ f.parts := mem_parts.mpr (.inl rfl)

theorem mem_parts_of_mem_children (hc : c ∈ f.children) (hg : g ∈ c.parts) :
    g ∈ f.parts := mem_parts.mpr (.inr ⟨c, hc, hg⟩)

theorem forall_mem_parts : (∀ g ∈ f.parts, P g) ↔ P f ∧ ∀ c ∈ f.children, ∀ g ∈ c.parts, P g := by
  constructor
  · intro h
    exact ⟨h f (mem_parts_self f), fun c hc g hg => h g (mem_parts_of_mem_children hc hg)⟩
  · rintro ⟨hSelf, hChildren⟩ g hg
    rcases mem_parts.mp hg with rfl | ⟨c, hc, hg⟩
    · exact hSelf
    · exact hChildren c hc g hg

theorem sizeOf_lt_of_mem_children (h : c ∈ f.children) : sizeOf c < sizeOf f := by
  cases f with
  | bool _ | id _ => cases h
  | app name args =>
    have := sizeOf_lt_of_mem (show c ∈ args from h)
    rw [app.sizeOf_spec]
    omega
  | and fs | or fs =>
    have := sizeOf_lt_of_mem (show c ∈ fs from h)
    simp only [and.sizeOf_spec, or.sizeOf_spec]
    omega
  | not a | new a =>
    obtain rfl := mem_singleton.mp h
    simp
  | all vars a | ex vars a =>
    obtain rfl := mem_singleton.mp h
    simp only [all.sizeOf_spec, ex.sizeOf_spec]
    omega
  | imp a b | iff a b | eq a b | ne a b =>
    simp only [imp.sizeOf_spec, iff.sizeOf_spec, eq.sizeOf_spec, ne.sizeOf_spec]
    rcases mem_pair.mp h with rfl | rfl <;> omega
  | ite a b d =>
    simp only [children, mem_cons, not_mem_nil, or_false] at h
    rw [ite.sizeOf_spec]
    rcases h with rfl | rfl | rfl <;> omega

theorem of_children (step : ∀ f : Formula, (∀ c ∈ f.children, P c) → P f) (f : Formula) : P f :=
  step f fun c _ => of_children step c
termination_by sizeOf f
decreasing_by exact sizeOf_lt_of_mem_children ‹_›

/-! ## Names -/

/-- The identifiers of a formula, bound or not. -/
def identifiers (f : Formula) : List String :=
  f.parts.filterMap fun
    | .id name => some name
    | _ => none

/-- The names a formula applies to arguments. -/
def heads (f : Formula) : List String :=
  f.parts.filterMap fun
    | .app name _ => some name
    | _ => none

/-- The variables the quantifiers of a formula bind. -/
def boundVars (f : Formula) : List Var := f.parts.flatMap bound

theorem mem_identifiers : name ∈ f.identifiers ↔ .id name ∈ f.parts := by
  rw [identifiers, mem_filterMap]
  constructor
  · rintro ⟨g, hg, hName⟩
    cases g <;> simp at hName
    exact hName ▸ hg
  · intro h
    exact ⟨_, h, rfl⟩

theorem mem_heads : name ∈ f.heads ↔ ∃ args, .app name args ∈ f.parts := by
  rw [heads, mem_filterMap]
  constructor
  · rintro ⟨g, hg, hName⟩
    cases g <;> simp at hName
    exact ⟨_, hName ▸ hg⟩
  · rintro ⟨args, h⟩
    exact ⟨_, h, rfl⟩

theorem mem_boundVars {v : Var} : v ∈ f.boundVars ↔ ∃ g ∈ f.parts, v ∈ g.bound := mem_flatMap

/-- A formula has an identifier that it does not bind. -/
inductive Free (name : String) : Formula → Prop
  | id : Free name (.id name)
  | child {f c : Formula} (hc : c ∈ f.children) (hName : name ∉ f.bound.map Var.name)
    (h : Free name c) : Free name f

theorem free_iff :
    f.Free name ↔ f = .id name ∨ name ∉ f.bound.map Var.name ∧ ∃ c ∈ f.children, c.Free name := by
  constructor
  · rintro (_ | ⟨hc, hName, h⟩)
    · exact .inl rfl
    · exact .inr ⟨hName, _, hc, h⟩
  · rintro (rfl | ⟨hName, c, hc, h⟩)
    · exact .id
    · exact .child hc hName h

@[simp] theorem free_id {n : String} : (Formula.id n).Free name ↔ n = name := by
  rw [free_iff]
  simp [children]

theorem mem_heads_iff :
    name ∈ f.heads ↔ (∃ args, f = .app name args) ∨ ∃ c ∈ f.children, name ∈ c.heads := by
  simp only [mem_heads, mem_parts (f := f)]
  constructor
  · rintro ⟨args, h | ⟨c, hc, h⟩⟩
    · exact .inl ⟨args, h.symm⟩
    · exact .inr ⟨c, hc, args, h⟩
  · rintro (⟨args, h⟩ | ⟨c, hc, args, h⟩)
    · exact ⟨args, .inl h.symm⟩
    · exact ⟨args, .inr ⟨c, hc, h⟩⟩

theorem newDepth_le_of_mem_children (hc : c ∈ f.children) : c.newDepth ≤ f.newDepth := by
  have hList : ∀ {fs : List Formula}, c ∈ fs → c.newDepth ≤ newDepthList fs := by
    intro fs hc
    induction fs with
    | nil => cases hc
    | cons f fs ih =>
      rw [newDepthList]
      rcases mem_cons.mp hc with rfl | hc
      · exact Nat.le_max_left _ _
      · exact Nat.le_trans (ih hc) (Nat.le_max_right _ _)
  cases f with
  | bool _ | id _ => cases hc
  | app _ _ | and _ | or _ => exact hList hc
  | _ =>
    simp only [children, mem_cons, not_mem_nil, or_false] at hc
    grind [newDepth]

/-! ## Substitution -/

variable {s s' : Substitution}

theorem substituteList_eq_map (s : Substitution) (fs : List Formula) :
    substituteList s fs = fs.map (substitute s) := by
  induction fs with
  | nil => rfl
  | cons f fs ih => rw [substituteList, ih, map_cons]

theorem under_nil (s : Substitution) : s.under [] = s := filter_eq_self.mpr fun _ _ => rfl

theorem lookup_under (vars : List Var) (s : Substitution) (name : String) :
    (s.under vars).lookup name = if name ∈ vars.map Var.name then none else s.lookup name := by
  induction s with
  | nil => simp [Substitution.under]
  | cons entry s ih =>
    rw [Substitution.under] at ih ⊢
    by_cases hEntry : entry.1 ∈ vars.map Var.name
    · rw [filter_cons_of_neg (by simpa using hEntry), ih]
      split
      · rfl
      · rename_i hName
        have hNe : name ≠ entry.1 := fun h => hName (h ▸ hEntry)
        rw [lookup_cons, beq_false_of_ne hNe]
    · rw [filter_cons_of_pos (by simpa using hEntry), lookup_cons, lookup_cons, ih]
      by_cases hName : name = entry.1
      · simp [hName, hEntry]
      · simp [beq_false_of_ne hName]

/-- A substitution changes identifiers and leaves everything else as it is. -/
theorem substitute_cases (f : Formula) (s : Substitution) :
    (∃ name, f = .id name) ∨ (f.substitute s).bound = f.bound ∧
      (f.substitute s).children = f.children.map (substitute (s.under f.bound)) ∧
      (∀ name, f.substitute s ≠ .id name) ∧
      ∀ name, (∃ args, f.substitute s = .app name args) → ∃ args, f = .app name args := by
  cases f <;> simp [substitute, substituteList_eq_map, children, bound, under_nil]

/-- **A substitution depends on what it puts for free identifiers**: what a formula applies or
binds stays as it is. -/
theorem substitute_congr (f : Formula) (h : ∀ n, f.Free n → s.lookup n = s'.lookup n) :
    f.substitute s = f.substitute s' := by
  induction f using of_children generalizing s s' with
  | step f ih =>
    have hUnder : ∀ c ∈ f.children, c.substitute (s.under f.bound) =
        c.substitute (s'.under f.bound) := by
      intro c hc
      refine ih c hc fun n hn => ?_
      rw [lookup_under, lookup_under]
      split
      · rfl
      · rename_i hBound
        exact h n (.child hc hBound hn)
    cases f with
    | bool _ => rfl
    | id n => rw [substitute, substitute, h n .id]
    | app _ _ | and _ | or _ =>
      simp only [substitute, substituteList_eq_map]
      exact congrArg _ (map_congr_left fun c hc => by simpa [bound, under_nil] using hUnder c hc)
    | _ => simp_all [substitute, children, bound, under_nil]

theorem substitute_nil (f : Formula) : f.substitute [] = f := by
  induction f using of_children with
  | step f ih =>
    cases f with
    | bool _ | id _ => rfl
    | app _ _ | and _ | or _ =>
      simp only [substitute, substituteList_eq_map]
      exact congrArg _ ((map_congr_left ih).trans (map_id _))
    | _ => simp_all [substitute, children, Substitution.under]

theorem free_substitute (f : Formula) (h : (f.substitute s).Free name) :
    f.Free name ∧ name ∉ s.map Prod.fst ∨ ∃ entry ∈ s, entry.2.Free name := by
  induction f using of_children generalizing s with
  | step f ih =>
    rcases substitute_cases f s with ⟨n, rfl⟩ | ⟨hBound, hChildren, hId, -⟩
    · rw [substitute] at h
      cases hLookup : s.lookup n with
      | none =>
        rw [hLookup] at h
        obtain rfl := free_id.mp h
        refine .inl ⟨.id, fun hIn => ?_⟩
        obtain ⟨entry, hEntry, hName⟩ := mem_map.mp hIn
        exact absurd (lookup_eq_none_iff.mp hLookup entry hEntry) (by simp [hName])
      | some g =>
        rw [hLookup] at h
        exact .inr ⟨_, mem_of_lookup hLookup, h⟩
    · rw [free_iff, hBound, hChildren] at h
      obtain ⟨hName, _, hIn, h⟩ := h.resolve_left (hId name)
      obtain ⟨c, hc, rfl⟩ := mem_map.mp hIn
      rcases ih c hc h with ⟨hFree, hOut⟩ | ⟨entry, hEntry, hFree⟩
      · refine .inl ⟨.child hc hName hFree, fun hIn => hOut ?_⟩
        obtain ⟨entry, hEntry, rfl⟩ := mem_map.mp hIn
        exact mem_map.mpr ⟨entry, mem_filter.mpr ⟨hEntry, by simpa using hName⟩, rfl⟩
      · exact .inr ⟨entry, (mem_filter.mp hEntry).1, hFree⟩

theorem mem_heads_substitute (f : Formula) (h : name ∈ (f.substitute s).heads) :
    name ∈ f.heads ∨ ∃ entry ∈ s, name ∈ entry.2.heads := by
  induction f using of_children generalizing s with
  | step f ih =>
    rcases substitute_cases f s with ⟨n, rfl⟩ | ⟨-, hChildren, -, hApp⟩
    · rw [substitute] at h
      cases hLookup : s.lookup n with
      | none => simp [hLookup, heads, parts] at h
      | some g =>
        rw [hLookup] at h
        exact .inr ⟨_, mem_of_lookup hLookup, h⟩
    · rw [mem_heads_iff, hChildren] at h
      rcases h with h | ⟨_, hIn, h⟩
      · exact .inl (mem_heads_iff.mpr (.inl (hApp name h)))
      · obtain ⟨c, hc, rfl⟩ := mem_map.mp hIn
        rcases ih c hc h with h | ⟨entry, hEntry, h⟩
        · exact .inl (mem_heads_iff.mpr (.inr ⟨c, hc, h⟩))
        · exact .inr ⟨entry, (mem_filter.mp hEntry).1, h⟩

end Formula

end InvariantSearch
