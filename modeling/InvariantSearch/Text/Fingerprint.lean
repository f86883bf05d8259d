/-!
# Fingerprints

`fingerprint` folds the UTF-8 bytes of a text into 64 bits: each byte is mixed
in by exclusive or, then the word is multiplied by a fixed prime. Equal texts
have equal fingerprints, and texts that differ practically never agree.
-/

namespace InvariantSearch

/-- A 64-bit digest of a text. -/
def fingerprint (text : String) : UInt64 :=
  text.toUTF8.foldl (fun word byte => (word ^^^ byte.toUInt64) * 1099511628211)
    14695981039346656037

end InvariantSearch
