/-!
# Tables of code points

A class of characters is given by a table of ranges, each with its first and its last code point.
-/

namespace SpeechGrammar.Text

/-- Some range of the table holds the code point. -/
def inRanges (table : List (Nat × Nat)) (n : Nat) : Bool := table.any fun r => r.1 ≤ n && n ≤ r.2

end SpeechGrammar.Text
