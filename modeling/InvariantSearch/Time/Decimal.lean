/-!
# Fixed-point text of binary fractions

A double is a whole number times a power of two, so its decimal text with a
fixed number of places follows from exact arithmetic on whole numbers: scale,
divide, round to the nearest, a half to the even neighbour.
-/

namespace InvariantSearch

/-- `num / den` rounded to the nearest whole number, a half to the even one. -/
def roundHalfEven (num den : Nat) : Nat :=
  let quotient := num / den
  let twice := 2 * (num % den)
  if twice < den then quotient
  else if den < twice then quotient + 1
  else quotient + quotient % 2

/-- A finite double: sign, and magnitude `mantissa * 2 ^ exponent / 2 ^ 1074`. -/
structure Binary where
  negative : Bool
  mantissa : Nat
  exponent : Nat
  deriving DecidableEq, Repr

def Binary.ofFloat (x : Float) : Binary :=
  let bits := x.toBits.toNat
  let fraction := bits % (1 <<< 52)
  let biased := (bits >>> 52) % (1 <<< 11)
  { negative := 1 <<< 63 ≤ bits
    mantissa := if biased = 0 then fraction else (1 <<< 52) + fraction
    exponent := biased - 1 }

/-- A number of decimal digits, filled up with zeros on the left. -/
def padDigits (width n : Nat) : String :=
  let digits := (toString n).toList
  String.ofList (List.replicate (width - digits.length) '0' ++ digits)

/-- The text of a double with a fixed number of decimal places. -/
def Binary.render (places : Nat) (x : Binary) : String :=
  let unit := Nat.pow 10 places
  let scaled := roundHalfEven ((x.mantissa <<< x.exponent) * unit) (1 <<< 1074)
  (if x.negative then "-" else "") ++ toString (scaled / unit) ++ "." ++
    padDigits places (scaled % unit)

end InvariantSearch
