import Mathlib.Data.Int.ModEq
import InvariantSearch.Time.Basic

/-!
# Time arithmetic

A normal time stands for a whole number of nanoseconds. What this module pins
down is that carrying and borrowing compute with those numbers:

* `Denotes t n` says that `t` is normal and stands for `n` up to the wrapping
  of its seconds at 64 bits. Sums and differences denote sums and differences
  (`Denotes.add`, `Denotes.sub`), with nothing asked of the seconds;
* a time denotes one number that fits its seconds, so a result is exact
  just where the exact result fits (`Denotes.nanoseconds_eq_iff`);
* the unsigned count of microseconds is the denoted number cut to thousands,
  modulo 2^64, also where the seconds are negative (`Denotes.microseconds`).
-/

namespace InvariantSearch

namespace TimeValue

/-- The nanoseconds are a proper part of a second. -/
def Normal (t : TimeValue) : Prop := 0 ≤ t.nsec ∧ t.nsec < second

/-- The number of nanoseconds that a time stands for. -/
def nanoseconds (t : TimeValue) : Int := t.sec.toInt * 1000000000 + t.nsec.toInt

/-- The whole seconds of a number of nanoseconds fit a signed word. -/
def Fits (n : Int) : Prop := -2 ^ 63 ≤ n / 1000000000 ∧ n / 1000000000 < 2 ^ 63

instance (t : TimeValue) : Decidable t.Normal := inferInstanceAs (Decidable (_ ∧ _))

instance (n : Int) : Decidable (Fits n) := inferInstanceAs (Decidable (_ ∧ _))

/-- A normal time that stands for a number, or for one that is a whole turn of
the seconds away from it. -/
def Denotes (t : TimeValue) (n : Int) : Prop :=
  t.Normal ∧ t.nanoseconds ≡ n [ZMOD 2 ^ 64 * 1000000000]

theorem toInt_second : second.toInt = 1000000000 := rfl

theorem normal_iff {t : TimeValue} :
    t.Normal ↔ 0 ≤ t.nsec.toInt ∧ t.nsec.toInt < 1000000000 := by
  rw [Normal, Int64.le_iff_toInt_le, Int64.lt_iff_toInt_lt, toInt_second, Int64.toInt_zero]

theorem Normal.denotes {t : TimeValue} (ht : t.Normal) : t.Denotes t.nanoseconds := ⟨ht, rfl⟩

theorem Normal.fits {t : TimeValue} (ht : t.Normal) : Fits t.nanoseconds := by
  have hpart := normal_iff.1 ht
  have hlow := t.sec.le_toInt
  have hhigh := t.sec.toInt_lt
  constructor <;> simp only [nanoseconds] <;> omega

/-- The seconds wrap around by whole turns. -/
theorem exists_bmod_eq (x : Int) : ∃ turns : Int, x.bmod (2 ^ 64) = x + turns * 2 ^ 64 := by
  obtain ⟨turns, hturns⟩ := Int.dvd_bmod_sub_self (x := x) (m := 2 ^ 64)
  exact ⟨turns, by omega⟩

theorem exists_toInt_add (x y : Int64) :
    ∃ turns : Int, (x + y).toInt = x.toInt + y.toInt + turns * 2 ^ 64 := by
  rw [Int64.toInt_add]
  exact exists_bmod_eq _

theorem exists_toInt_sub (x y : Int64) :
    ∃ turns : Int, (x - y).toInt = x.toInt - y.toInt + turns * 2 ^ 64 := by
  rw [Int64.toInt_sub]
  exact exists_bmod_eq _

/-- Two parts of seconds are far too small for their sum to wrap around. -/
theorem toInt_add_of_small {x y : Int64} (hx : 0 ≤ x.toInt ∧ x.toInt ≤ 1000000000)
    (hy : 0 ≤ y.toInt ∧ y.toInt ≤ 1000000000) : (x + y).toInt = x.toInt + y.toInt := by
  obtain ⟨turns, hsum⟩ := exists_toInt_add x y
  have hlow := (x + y).le_toInt
  have hhigh := (x + y).toInt_lt
  omega

theorem toInt_sub_of_small {x y : Int64} (hx : 0 ≤ x.toInt ∧ x.toInt ≤ 2000000000)
    (hy : 0 ≤ y.toInt ∧ y.toInt ≤ 1000000000) : (x - y).toInt = x.toInt - y.toInt := by
  obtain ⟨turns, hdiff⟩ := exists_toInt_sub x y
  have hlow := (x - y).le_toInt
  have hhigh := (x - y).toInt_lt
  omega

/-- What a time denotes, from its two fields: the seconds may be off by whole turns. -/
theorem denotes_of_fields {sec nsec : Int64} {turns n : Int}
    (hlow : 0 ≤ nsec.toInt) (hhigh : nsec.toInt < 1000000000)
    (hn : (sec.toInt + turns * 2 ^ 64) * 1000000000 + nsec.toInt = n) :
    Denotes ⟨sec, nsec⟩ n := by
  refine ⟨normal_iff.2 ⟨hlow, hhigh⟩, Int.modEq_iff_dvd.2 ⟨turns, ?_⟩⟩
  simp only [nanoseconds]
  omega

theorem add_nanoseconds {a b : TimeValue} (ha : a.Normal) (hb : b.Normal) :
    (a.add b).Denotes (a.nanoseconds + b.nanoseconds) := by
  obtain ⟨ha0, ha1⟩ := normal_iff.1 ha
  obtain ⟨hb0, hb1⟩ := normal_iff.1 hb
  have hsum : (a.nsec + b.nsec).toInt = a.nsec.toInt + b.nsec.toInt :=
    toInt_add_of_small ⟨ha0, ha1.le⟩ ⟨hb0, hb1.le⟩
  rw [add]
  split
  case isTrue hcarry =>
    rw [Int64.le_iff_toInt_le, toInt_second, hsum] at hcarry
    have hrest : (a.nsec + b.nsec - second).toInt = a.nsec.toInt + b.nsec.toInt - 1000000000 := by
      rw [toInt_sub_of_small (by omega) (by rw [toInt_second]; omega), hsum, toInt_second]
    obtain ⟨k, hk⟩ := exists_toInt_add a.sec 1
    obtain ⟨l, hl⟩ := exists_toInt_add (a.sec + 1) b.sec
    rw [Int64.toInt_one] at hk
    refine @denotes_of_fields _ _ (-k - l) _ (by omega) (by omega) ?_
    simp only [nanoseconds]
    omega
  case isFalse hcarry =>
    rw [Int64.le_iff_toInt_le, toInt_second, hsum] at hcarry
    obtain ⟨k, hk⟩ := exists_toInt_add a.sec b.sec
    refine @denotes_of_fields _ _ (-k) _ (by omega) (by omega) ?_
    simp only [nanoseconds]
    omega

theorem sub_nanoseconds {a b : TimeValue} (ha : a.Normal) (hb : b.Normal) :
    (a.sub b).Denotes (a.nanoseconds - b.nanoseconds) := by
  obtain ⟨ha0, ha1⟩ := normal_iff.1 ha
  obtain ⟨hb0, hb1⟩ := normal_iff.1 hb
  rw [sub]
  split
  case isTrue hborrow =>
    rw [Int64.lt_iff_toInt_lt] at hborrow
    have hsum : (a.nsec + second).toInt = a.nsec.toInt + 1000000000 := by
      rw [toInt_add_of_small ⟨ha0, ha1.le⟩ (by rw [toInt_second]; omega), toInt_second]
    have hrest : (a.nsec + second - b.nsec).toInt = a.nsec.toInt + 1000000000 - b.nsec.toInt := by
      rw [toInt_sub_of_small (by omega) ⟨hb0, hb1.le⟩, hsum]
    obtain ⟨k, hk⟩ := exists_toInt_sub a.sec 1
    obtain ⟨l, hl⟩ := exists_toInt_sub (a.sec - 1) b.sec
    rw [Int64.toInt_one] at hk
    refine @denotes_of_fields _ _ (-k - l) _ (by omega) (by omega) ?_
    simp only [nanoseconds]
    omega
  case isFalse hborrow =>
    rw [Int64.lt_iff_toInt_lt] at hborrow
    have hrest : (a.nsec - b.nsec).toInt = a.nsec.toInt - b.nsec.toInt :=
      toInt_sub_of_small (by omega) ⟨hb0, hb1.le⟩
    obtain ⟨k, hk⟩ := exists_toInt_sub a.sec b.sec
    refine @denotes_of_fields _ _ (-k) _ (by omega) (by omega) ?_
    simp only [nanoseconds]
    omega

namespace Denotes

variable {a b t : TimeValue} {m n : Int}

theorem add (ha : a.Denotes m) (hb : b.Denotes n) : (a.add b).Denotes (m + n) :=
  have hsum := add_nanoseconds ha.1 hb.1
  ⟨hsum.1, hsum.2.trans (ha.2.add hb.2)⟩

theorem sub (ha : a.Denotes m) (hb : b.Denotes n) : (a.sub b).Denotes (m - n) :=
  have hdiff := sub_nanoseconds ha.1 hb.1
  ⟨hdiff.1, hdiff.2.trans (ha.2.sub hb.2)⟩

/-- Of the numbers that fit, a time denotes the one that it stands for. -/
theorem nanoseconds_eq_iff (ht : t.Denotes n) : t.nanoseconds = n ↔ Fits n := by
  constructor
  · rintro rfl
    exact ht.1.fits
  · intro hn
    obtain ⟨turns, hturns⟩ := Int.modEq_iff_dvd.1 ht.2
    have hfits := ht.1.fits
    simp only [Fits] at hn hfits
    omega

/-- Two times that denote one number are the same time. -/
theorem unique (ha : a.Denotes n) (hb : b.Denotes n) : a = b := by
  have hnumber : a.nanoseconds = b.nanoseconds :=
    (nanoseconds_eq_iff ⟨ha.1, ha.2.trans hb.2.symm⟩).2 hb.1.fits
  have hpa := normal_iff.1 ha.1
  have hpb := normal_iff.1 hb.1
  simp only [nanoseconds] at hnumber
  obtain ⟨asec, ansec⟩ := a
  obtain ⟨bsec, bnsec⟩ := b
  simp only [mk.injEq, ← Int64.toInt_inj] at *
  omega

end Denotes

/-- The conversion of a signed word to an unsigned one keeps it up to whole turns. -/
theorem exists_toNat_toUInt64 (x : Int64) :
    ∃ turns : Int, (x.toUInt64.toNat : Int) = x.toInt + turns * 2 ^ 64 := by
  have hword : x.toInt = (x.toUInt64.toNat : Int).bmod (2 ^ 64) := BitVec.toInt_eq_toNat_bmod _
  obtain ⟨turns, hturns⟩ := exists_bmod_eq (x.toUInt64.toNat : Int)
  exact ⟨-turns, by omega⟩

/-- The count of microseconds, unsigned, of a time whose seconds may be negative. -/
theorem Denotes.microseconds {t : TimeValue} {n : Int} (ht : t.Denotes n) :
    (t.microseconds.toNat : Int) = n / 1000 % 2 ^ 64 := by
  obtain ⟨hlow, hhigh⟩ := normal_iff.1 ht.1
  obtain ⟨turns, hturns⟩ := Int.modEq_iff_dvd.1 ht.2
  obtain ⟨k, hsec⟩ := exists_toNat_toUInt64 t.sec
  obtain ⟨l, hnsec⟩ := exists_toNat_toUInt64 t.nsec
  have hword := t.nsec.toUInt64.toNat_lt
  simp only [TimeValue.microseconds, UInt64.toNat_add, UInt64.toNat_mul, UInt64.toNat_div,
    UInt64.reduceToNat]
  simp only [nanoseconds] at hturns
  omega

theorem before_iff {a b : TimeValue} (ha : a.Normal) (hb : b.Normal) :
    a.before b = true ↔ a.nanoseconds < b.nanoseconds := by
  obtain ⟨ha0, ha1⟩ := normal_iff.1 ha
  obtain ⟨hb0, hb1⟩ := normal_iff.1 hb
  rw [before, nanoseconds, nanoseconds]
  split
  case isTrue hsec =>
    rw [ne_eq, ← Int64.toInt_inj] at hsec
    rw [decide_eq_true_iff, Int64.lt_iff_toInt_lt]
    omega
  case isFalse hsec =>
    rw [ne_eq, not_not, ← Int64.toInt_inj] at hsec
    rw [decide_eq_true_iff, Int64.lt_iff_toInt_lt]
    omega

/-- Taking away what was added gives back the time, whether or not the sum wrapped around. -/
theorem add_sub_cancel {a b : TimeValue} (ha : a.Normal) (hb : b.Normal) :
    (a.add b).sub b = a := by
  have hback := (ha.denotes.add hb.denotes).sub hb.denotes
  rw [Int.add_sub_cancel] at hback
  exact hback.unique ha.denotes

/-- **Normal times compute as their nanoseconds do.** Sums and differences are
normal, and exact just where the exact result has seconds that fit; the
order is that of the nanoseconds; and the elapsed time between two times in
order counts whole microseconds and milliseconds, wherever 64 bits can hold
them. -/
theorem arithmetic_exact {a b : TimeValue} (ha : a.Normal) (hb : b.Normal) :
    ((a.add b).Normal ∧ (a.sub b).Normal) ∧
    ((a.add b).nanoseconds = a.nanoseconds + b.nanoseconds ↔
      Fits (a.nanoseconds + b.nanoseconds)) ∧
    ((a.sub b).nanoseconds = a.nanoseconds - b.nanoseconds ↔
      Fits (a.nanoseconds - b.nanoseconds)) ∧
    (a.add b).sub b = a ∧
    (a.before b = true ↔ a.nanoseconds < b.nanoseconds) ∧
    (a.before b = false → (a.nanoseconds - b.nanoseconds) / 1000 < 2 ^ 64 →
      ((a.sub b).microseconds.toNat : Int) = (a.nanoseconds - b.nanoseconds) / 1000 ∧
      ((a.sub b).milliseconds.toNat : Int) = (a.nanoseconds - b.nanoseconds) / 1000 / 1000) := by
  have hadd := ha.denotes.add hb.denotes
  have hsub := ha.denotes.sub hb.denotes
  refine ⟨⟨hadd.1, hsub.1⟩, hadd.nanoseconds_eq_iff, hsub.nanoseconds_eq_iff,
    add_sub_cancel ha hb, before_iff ha hb, ?_⟩
  intro horder hroom
  have hless : ¬a.nanoseconds < b.nanoseconds := by
    rw [← before_iff ha hb, horder]
    exact Bool.false_ne_true
  have hmicro : ((a.sub b).microseconds.toNat : Int) = (a.nanoseconds - b.nanoseconds) / 1000 := by
    rw [hsub.microseconds]
    omega
  have hmilli : (a.sub b).milliseconds.toNat = (a.sub b).microseconds.toNat / 1000 :=
    UInt64.toNat_div _ _
  exact ⟨hmicro, by rw [hmilli, ← hmicro, Int.natCast_ediv, Nat.cast_ofNat]⟩

/-- Five seconds less all but one nanosecond of three: the difference borrows. -/
theorem arithmetic_exact_borrow :
    (Normal ⟨5, 0⟩ ∧ Normal ⟨2, 999999999⟩ ∧ Fits (5000000000 - 2999999999) ∧
      before ⟨5, 0⟩ ⟨2, 999999999⟩ = false) ∧
    (sub ⟨5, 0⟩ ⟨2, 999999999⟩).nanoseconds = 2000000001 ∧
    ((sub ⟨5, 0⟩ ⟨2, 999999999⟩).microseconds.toNat : Int) = 2000000 ∧
    ((sub ⟨5, 0⟩ ⟨2, 999999999⟩).milliseconds.toNat : Int) = 2000 := by
  obtain ⟨-, -, hdiff, -, -, hcounts⟩ :=
    arithmetic_exact (show Normal ⟨5, 0⟩ by decide) (show Normal ⟨2, 999999999⟩ by decide)
  have hfirst : nanoseconds ⟨5, 0⟩ = 5000000000 := by decide
  have hsecond : nanoseconds ⟨2, 999999999⟩ = 2999999999 := by decide
  rw [hfirst, hsecond] at hdiff hcounts
  exact ⟨by decide, hdiff.2 (by decide), hcounts (by decide) (by decide)⟩

end TimeValue

end InvariantSearch
