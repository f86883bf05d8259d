/-!
# Texts that end at NUL

Where a text is handed over as bytes up to a NUL, what comes after the first
NUL is lost. That holds of the names a solver is told, of the reasons it gives,
of error texts, and of the words of a command line.
-/

namespace InvariantSearch

/-- The part of a text before its first NUL. -/
def beforeNul (text : String) : String := String.ofList (text.toList.takeWhile (· ≠ '\x00'))

def hasNul (text : String) : Bool := text.toList.contains '\x00'

end InvariantSearch
