/-!
# Options of a search

A search for a parse may be limited in its steps and in the length of its paths, and it may take certain spoken words
for any word of the grammar.
-/

namespace SpeechGrammar

/-- How a search is limited, and whether it takes wildcards. -/
structure SearchOptions where
  /-- How many nodes may be entered in all. -/
  maxSteps : Option Nat
  /-- How many nodes a path may have. -/
  maxDepth : Nat
  /-- Whether a spoken wildcard fits every word. -/
  wildcards : Bool
  deriving DecidableEq, Repr

namespace SearchOptions

/-- Any number of steps, paths of up to a thousand nodes, and wildcards. -/
def default : SearchOptions := ⟨none, 1000, true⟩

instance : Inhabited SearchOptions := ⟨default⟩

/-- At most `n` nodes are entered. -/
def limitSteps (o : SearchOptions) (n : Nat) : SearchOptions := { o with maxSteps := some n }

/-- Any number of nodes is entered. -/
def withoutStepLimit (o : SearchOptions) : SearchOptions := { o with maxSteps := none }

/-- Paths have at most `n` nodes. -/
def limitDepth (o : SearchOptions) (n : Nat) : SearchOptions := { o with maxDepth := n }

/-- Wildcards fit every word, or they do not. -/
def takeWildcards (o : SearchOptions) (wildcards : Bool) : SearchOptions := { o with wildcards := wildcards }

end SearchOptions

end SpeechGrammar
