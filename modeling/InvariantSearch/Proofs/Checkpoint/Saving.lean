import InvariantSearch.Checkpoint.File
import InvariantSearch.Proofs.Computation.Pairs

/-!
# Where checkpoints can be written

Whether a checkpoint gets to its place depends on the directories of a disk, not on
the files that are there.

Main result: `Checkpoint.save_twins`.
-/

namespace InvariantSearch

open Pairing

namespace Disk

/-- Two disks with the same directories, which stay. What is written to them goes to the same
places. -/
def pairing (ε : Type) : Pairing ε Disk where
  Twins d d' := d'.directories = d.directories
  Alike := Eq
  Leads d _ e _ := e.directories = d.directories
  alike_refl _ := rfl
  refl _ _ := rfl
  trans h h' := h'.trans h

variable {d d' : Disk}

theorem isDirectory_congr (h : d'.directories = d.directories) (q : Place) :
    d'.isDirectory q = d.isDirectory q := by
  rw [isDirectory, isDirectory, h]

theorem follow_congr (h : d'.directories = d.directories) (way : List String) (q : Place) :
    d'.follow q way = d.follow q way := by
  induction way generalizing q with
  | nil => rfl
  | cons step way ih => rw [follow, follow, isDirectory_congr h, ih]

theorem place?_congr (h : d'.directories = d.directories) (name : String) :
    d'.place? name = d.place? name := by
  rw [place?, place?, follow_congr h]

theorem create?_eq {name : String} {q : Place} (h : d.place? name = some q) :
    d.create? name = if d.isDirectory q || q == void then none else
      match d.entries.lookup q with
      | some number => some (number, { d with contents := d.contents.set number "" })
      | none => some (d.contents.length, d.add q "") := by
  unfold create?
  rw [h]
  by_cases hBlocked : (d.isDirectory q || q == void) = true
  · rw [if_pos hBlocked]
    show (if (d.isDirectory q || q == void) = true then none else _) = none
    rw [if_pos hBlocked]
  · rw [if_neg hBlocked]
    show (if (d.isDirectory q || q == void) = true then none else _) = _
    rw [if_neg hBlocked]
    rfl

/-- There is a file at the place of a name. -/
def Holds (d : Disk) (name : String) : Prop :=
  ∃ q number, d.place? name = some q ∧ d.entries.lookup q = some number

/-- A file can be opened to write to at a place that is neither a directory nor the void:
the one there is emptied, or there is a new one. -/
theorem exists_create? {name : String} {q : Place} (hPlace : d.place? name = some q)
    (hFree : (d.isDirectory q || q == void) = false) :
    ∃ number e, d.create? name = some (number, e) ∧ e.directories = d.directories ∧
      e.Holds name := by
  have hPlaces : ∀ e : Disk, e.directories = d.directories → e.place? name = some q := by
    intro e he
    rw [place?_congr he, hPlace]
  cases hEntry : d.entries.lookup q with
  | some number =>
    refine ⟨number, { d with contents := d.contents.set number "" }, ?_, rfl,
      ⟨q, number, hPlaces _ rfl, hEntry⟩⟩
    rw [create?_eq hPlace, hFree, hEntry]
    rfl
  | none =>
    refine ⟨d.contents.length, d.add q "", ?_, rfl, ⟨q, d.contents.length, hPlaces _ rfl, ?_⟩⟩
    · rw [create?_eq hPlace, hFree, hEntry]
      rfl
    · -- the new entry is the only one at its place
      show ((d.entries.filter fun entry => entry.1 != q) ++ [(q, d.contents.length)]).lookup q = _
      have hOthers : (d.entries.filter fun entry => entry.1 != q).lookup q = none := by
        rw [List.lookup_eq_none_iff]
        intro entry hEntry'
        have hNe : entry.1 ≠ q := by simpa using (List.mem_filter.mp hEntry').2
        simpa using hNe.symm
      rw [List.lookup_append, hOthers, Option.none_or, List.lookup_cons_self]

theorem create?_twins (h : d'.directories = d.directories) (name : String) :
    (d.create? name = none ∧ d'.create? name = none) ∨
      ∃ number e number' e', d.create? name = some (number, e) ∧
        d'.create? name = some (number', e') ∧ e'.directories = e.directories ∧
        e.directories = d.directories ∧ e.Holds name ∧ e'.Holds name := by
  cases hPlace : d.place? name with
  | none =>
    have hPlace' : d'.place? name = none := (place?_congr h name).trans hPlace
    exact Or.inl ⟨by simp [create?, hPlace], by simp [create?, hPlace']⟩
  | some q =>
    have hPlace' : d'.place? name = some q := (place?_congr h name).trans hPlace
    cases hFree : (d.isDirectory q || q == void) with
    | true =>
      have hFree' : (d'.isDirectory q || q == void) = true := by rw [isDirectory_congr h, hFree]
      exact Or.inl ⟨by rw [create?_eq hPlace, hFree]; rfl, by rw [create?_eq hPlace', hFree']; rfl⟩
    | false =>
      have hFree' : (d'.isDirectory q || q == void) = false := by rw [isDirectory_congr h, hFree]
      obtain ⟨number, e, hCreate, he, hHolds⟩ := exists_create? hPlace hFree
      obtain ⟨number', e', hCreate', he', hHolds'⟩ := exists_create? hPlace' hFree'
      exact Or.inr ⟨number, e, number', e', hCreate, hCreate', by rw [he, he', h], he, hHolds, hHolds'⟩

theorem move?_twins (h : d'.directories = d.directories) {source : String}
    (hSource : d.Holds source)
    (hSource' : d'.Holds source) (target : String) :
    (d.move? source target = none ∧ d'.move? source target = none) ∨
      ∃ e e', d.move? source target = some e ∧ d'.move? source target = some e' ∧
        e'.directories = e.directories ∧ e.directories = d.directories := by
  obtain ⟨q, number, hPlace, hEntry⟩ := hSource
  obtain ⟨q', number', hPlace', hEntry'⟩ := hSource'
  cases hTarget : d.place? target with
  | none =>
    have hTarget' : d'.place? target = none := (place?_congr h target).trans hTarget
    exact Or.inl ⟨by simp [move?, hPlace, hTarget], by simp [move?, hPlace', hTarget']⟩
  | some r =>
    have hTarget' : d'.place? target = some r := (place?_congr h target).trans hTarget
    cases hDirectory : d.isDirectory r with
    | true =>
      have hDirectory' : d'.isDirectory r = true := (isDirectory_congr h r).trans hDirectory
      exact Or.inl ⟨by simp [move?, hPlace, hTarget, hDirectory],
        by simp [move?, hPlace', hTarget', hDirectory']⟩
    | false =>
      have hDirectory' : d'.isDirectory r = false := (isDirectory_congr h r).trans hDirectory
      -- the place that the file had is free again
      refine Or.inr ⟨{ d with entries := d.entries.filter fun entry => entry.1 != q }.put r number,
        { d' with entries := d'.entries.filter fun entry => entry.1 != q' }.put r number',
        ?_, ?_, ?_⟩
      · simp [move?, hPlace, hEntry, hTarget, hDirectory]
      · simp [move?, hPlace', hEntry', hTarget', hDirectory']
      · exact ⟨h, rfl⟩

end Disk

theorem Checkpoint.save_twins (p : Program) (s : SearchState) (name : String) :
    (Disk.pairing CheckpointFault).Even (save p s name) := by
  intro d d'
  refine ensures_of_twins fun h => ensures_get_bind ?_
  rcases Disk.create?_twins h (asideName name) with
    ⟨hNone, hNone'⟩ | ⟨number, e, number', e', hSome, hSome', he, hKept, hHolds, hHolds'⟩
  · rw [hNone, hNone']
    exact ensures_throw rfl
  · rw [hSome, hSome']
    have hWritten : ∀ (e : Disk) number, e.Holds (asideName name) →
        (e.write number 0 (render p s)).Holds (asideName name) := by
      rintro e number ⟨q, k, hPlace, hEntry⟩
      have hSame : (e.write number 0 (render p s)).directories = e.directories := rfl
      exact ⟨q, k, (Disk.place?_congr hSame _).trans hPlace, hEntry⟩
    refine (ensures_of_ok rfl rfl fun _ => ⟨he, hKept, rfl, rfl⟩ :
      (Disk.pairing CheckpointFault).Ensures (set (e.write number 0 (render p s)))
        (set (e'.write number' 0 (render p s))) d d' fun _ _ t t' =>
          t = e.write number 0 (render p s) ∧ t' = e'.write number' 0 (render p s)).bind
      fun _ _ t t' _ ht => ?_
    obtain ⟨rfl, rfl⟩ := ht
    refine ensures_get_bind ?_
    have he' : (e'.write number' 0 (render p s)).directories =
        (e.write number 0 (render p s)).directories := he
    rcases Disk.move?_twins he' (hWritten e number hHolds) (hWritten e' number' hHolds') name with
      ⟨hStay, hStay'⟩ | ⟨f, f', hMove, hMove', hf, hStays⟩
    · rw [hStay, hStay']
      exact ensures_throw rfl
    · rw [hMove, hMove']
      exact ensures_of_ok rfl rfl fun _ => ⟨hf, hStays, rfl⟩

end InvariantSearch
