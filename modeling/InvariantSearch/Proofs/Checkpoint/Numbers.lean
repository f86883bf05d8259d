import InvariantSearch.Proofs.Search.Grounds
import Mathlib.Data.List.TakeWhile

/-!
# Numbers in checkpoints

The numbers of a checkpoint are decimal, of any length and with any zeros in front. They go into
words: counters into 64 bits, positions of parents below 2^31, and numbers of frames into 32 bits.

* `Checkpoint.Numbers` — an obligation has the numbers that its entry gives.

Main result: `numbers_of_read`. Counters and positions of parents are what the text says, or the
text is not accepted. Numbers of frames are reduced to their last 32 bits before they are compared
with the number of frames, so a number from 2^32 on is taken for another one.
-/

namespace InvariantSearch

open List Sexpr UInt64

namespace Checkpoint

variable {e : Sexpr}

/-! ## Entries -/

theorem entry_eq_ok {keyword : String} {count : Option Nat} {args : List Sexpr}
    (h : entry keyword count e = .ok args) :
    e.strip = entryToSexpr keyword (args.map strip) := by
  unfold entry at h
  split at h
  · split at h
    · cases h
    rename_i hWord
    split at h
    · cases h
    cases h
    rw [not_not.mp hWord]
    simp [entryToSexpr, ofItems, ofName]
  · cases h

theorem isEntry_strip (keyword : String) (e : Sexpr) :
    isEntry keyword e.strip = isEntry keyword e := by
  cases e with
  | atom line text => rfl
  | list line items =>
    rw [strip_list]
    cases items with
    | nil => rfl
    | cons item items => cases item <;> rfl

/-- An obligation has the numbers of its entry: the last 32 bits of its frame's number, which say
a frame of which there are so many, and the position of its parent. -/
def Numbers (frames : Nat) (e : Sexpr) (o : Obligation) : Prop :=
  ∃ frame parent rest, e = entryToSexpr "obligation" (.ofName frame :: .ofName parent :: rest) ∧
    (∃ n, Decimal frame n ∧ n < size ∧ o.frame = n % UInt32.size) ∧ o.frame < frames ∧
    DenotesParent parent o.parent

theorem numbers_of_obligation {p : Program} {frames : Nat} {o : Obligation}
    (h : obligation p e = .ok o) (hFrame : o.frame < frames) : Numbers frames e.strip o := by
  obtain ⟨args, hEntry, h⟩ := bind_eq_ok.mp h
  split at h
  · rename_i frame parent kind transition vars conjuncts
    simp only [bind_eq_ok, pure_eq_ok] at h
    obtain ⟨n, hn, position, hPosition, may, -, name, -, items, -, vars, -, items', -,
      conjuncts, -, rfl⟩ := h
    obtain ⟨text, hText, hDecimal⟩ := number_eq_ok.mp hn
    obtain ⟨text', hText', hParent⟩ := parentIndex_eq_ok.mp hPosition
    have hStrip := entry_eq_ok hEntry
    simp only [map_cons, hText, hText'] at hStrip
    exact ⟨text, text', _, hStrip, ⟨n.toNat, hDecimal, n.toNat_lt, toNat_toUInt32 n⟩, hFrame,
      hParent⟩
  · cases h

/-- **The numbers of a checkpoint are those of its text.** Every text that is accepted is laid out
as a checkpoint, and its counters are the numbers that the text has for them. So are the positions
of parents, with -1 for none and only for it. The number of a frame is what the text has for it up
to a multiple of 2^32, so it is the number itself when that is smaller, and there is a frame of
that number in the text. -/
theorem numbers_of_read {p : Program} {source text : String} {s : SearchState}
    (h : read p source text = .ok s) :
    ∃ e version print learned distinct iterations log frames obligations,
      Sexpr.readAll text = .ok [e] ∧
      e.strip = .ofItems (.ofName header :: version :: print ::
        entryToSexpr "counters" [.ofName learned, .ofName distinct, .ofName iterations] :: log ::
        (frames ++ obligations)) ∧
      Decimal learned s.learned.toNat ∧ Decimal distinct s.distinct.toNat ∧
      Decimal iterations s.iterations.toNat ∧
      (∀ frame ∈ frames, isEntry "frame" frame = true) ∧ s.frames.length = frames.length ∧
      Forall₂ (Numbers frames.length) obligations s.obligations := by
  unfold read at h
  split at h
  · cases h
  · rename_i e hRead
    obtain ⟨line, wordLine, version, print, counters, c₁, c₂, c₃, log, rest, rfl, hCounters,
      hLearned, hDistinct, hIterations, hFrames, hObligations, hNone⟩ :=
      exists_of_ofSexpr (mapError_eq_ok.mp h)
    obtain ⟨learned, hText₁, hLearned⟩ := number_eq_ok.mp hLearned
    obtain ⟨distinct, hText₂, hDistinct⟩ := number_eq_ok.mp hDistinct
    obtain ⟨iterations, hText₃, hIterations⟩ := number_eq_ok.mp hIterations
    have hEntry := entry_eq_ok hCounters
    simp only [map_cons, map_nil, hText₁, hText₂, hText₃] at hEntry
    have hCount : s.frames.length = (rest.takeWhile (isEntry "frame")).length :=
      (mapM_eq_ok.mp hFrames).length_eq.symm
    have hLinked := (linked_of_stateFault? hNone).2
    refine ⟨_, version.strip, print.strip, learned, distinct, iterations, log.strip,
      (rest.takeWhile (isEntry "frame")).map Sexpr.strip,
      (rest.dropWhile (isEntry "frame")).map Sexpr.strip, hRead, ?_, hLearned, hDistinct,
      hIterations, ?_, ?_, ?_⟩
    · rw [← map_append, takeWhile_append_dropWhile, ← hEntry]
      simp [Sexpr.ofItems, Sexpr.ofName]
    · intro frame hFrame
      obtain ⟨e, he, rfl⟩ := mem_map.mp hFrame
      rw [isEntry_strip]
      exact mem_takeWhile_imp he
    · rw [hCount, length_map]
    · rw [length_map, ← hCount, forall₂_map_left_iff]
      have hBoth := (forall₂_and_left _ _).mpr ⟨hLinked.frame, (mapM_eq_ok.mp hObligations).flip⟩
      exact hBoth.flip.imp fun e o ho => numbers_of_obligation ho.2 ho.1
  · cases h

/-! ## Samples -/

/-- A checkpoint with two frames, whose only obligation belongs to a frame of some number. -/
def textOfFrame (frame : String) : String :=
  "(fopdr-checkpoint (version 1) (fingerprint " ++ toString lampRoom.fingerprint.toNat ++
    ") (counters 007 0 1) (log) (frame) (frame) (obligation " ++ frame ++ " -1 must - () ()))"

/-- The state that the checkpoint stands for. -/
def stateOfFrame (frame : Nat) : SearchState where
  frames := [[], []]
  log := []
  learned := 7
  distinct := 0
  iterations := 1
  obligations := [⟨frame, ⟨[], []⟩, "", Obligation.root, false⟩]

/-- Zeros in front change nothing. -/
theorem numbers_of_read_lampRoom :
    read lampRoom "saved" (textOfFrame "0001") = .ok (stateOfFrame 1) ∧
      ∃ e frames obligations, Sexpr.readAll (textOfFrame "0001") = .ok [e] ∧
        (stateOfFrame 1).frames.length = frames ∧
        Forall₂ (Numbers frames) obligations (stateOfFrame 1).obligations := by
  have hRead : read lampRoom "saved" (textOfFrame "0001") = .ok (stateOfFrame 1) := by
    decide +kernel
  obtain ⟨e, _, _, _, _, _, _, frames, obligations, hAll, -, -, -, -, -, hLength, hNumbers⟩ :=
    numbers_of_read hRead
  exact ⟨hRead, e, frames.length, obligations, hAll, hLength, hNumbers⟩

/-- **A large number is taken for the number of another frame.** There are two frames, and an
obligation of frame 4294967296 is accepted as one of the first. -/
theorem frame_beyond_word_accepted :
    Decimal "4294967296" 4294967296 ∧
      read lampRoom "saved" (textOfFrame "4294967296") = .ok (stateOfFrame 0) := by
  refine ⟨⟨0, ?_⟩, ?_⟩
  · decide +kernel
  · decide +kernel

end Checkpoint

end InvariantSearch
