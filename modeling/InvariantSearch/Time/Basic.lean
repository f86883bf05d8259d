import InvariantSearch.Time.Decimal

/-!
# Points in time

A point in time, or the difference of two, is a number of seconds and of
nanoseconds, both words of 64 bits with a sign. The nanoseconds of a normal
value are at least 0 and below a thousand million; `add` and `sub` carry one
second at most, which keeps normal values normal. Sums and differences that
are out of range wrap around.
-/

namespace InvariantSearch

/-- Seconds and nanoseconds. -/
structure TimeValue where
  sec : Int64
  nsec : Int64
  deriving DecidableEq, Repr

namespace TimeValue

def second : Int64 := 1000000000

/-- The sum, with a carry of at most one second. -/
def add (a b : TimeValue) : TimeValue :=
  let nsec := a.nsec + b.nsec
  if second ≤ nsec then ⟨a.sec + 1 + b.sec, nsec - second⟩ else ⟨a.sec + b.sec, nsec⟩

/-- The difference, borrowing at most one second. -/
def sub (a b : TimeValue) : TimeValue :=
  if a.nsec < b.nsec then ⟨a.sec - 1 - b.sec, a.nsec + second - b.nsec⟩
  else ⟨a.sec - b.sec, a.nsec - b.nsec⟩

/-- Whether one time is before another. -/
def before (a b : TimeValue) : Bool :=
  if a.sec ≠ b.sec then a.sec < b.sec else a.nsec < b.nsec

/-- Whole microseconds modulo 2^64. -/
def microseconds (t : TimeValue) : UInt64 := t.sec.toUInt64 * 1000000 + t.nsec.toUInt64 / 1000

def milliseconds (t : TimeValue) : UInt64 := t.microseconds / 1000

def seconds (t : TimeValue) : Float :=
  Float.ofInt t.sec.toInt + Float.ofInt t.nsec.toInt / 1000000000.0

def render (t : TimeValue) : String := (Binary.ofFloat t.seconds).render 3

end TimeValue

end InvariantSearch
