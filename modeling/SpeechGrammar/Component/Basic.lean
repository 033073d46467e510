import SpeechGrammar.Numeric.Single

/-!
# Components

What the body of a rule consists of. A component is a tree over tokens, tags and references to other rules, built by
sequence, choice and repetition.
-/

namespace SpeechGrammar

/-- The name of a rule, with that of its grammar if it is given. -/
structure Reference where
  rule : String
  grammar : Option String
  deriving DecidableEq, Repr

/-- The most repetitions that are allowed. -/
inductive Bound where
  | finite (most : Nat)
  | indefinite
  deriving DecidableEq, Repr

/-- One node of the body of a rule. -/
inductive Component where
  /-- A word, or a phrase of several words. -/
  | token (text : String)
  /-- A value that is recorded where the component is passed; it takes no input. -/
  | tag (value : String)
  /-- Whatever the body of another rule is. -/
  | reference (target : Reference)
  /-- All items, one after the other. -/
  | sequence (items : List Component)
  /-- One of the branches. The weights are advice, and no search looks at them. -/
  | alternatives (branches : List Component) (weights : Option (List Single))
  /-- As many repetitions of the body as the two bounds allow. -/
  | count (body : Component) (min : Nat) (max : Bound) (probability : Option Single)

namespace Component

instance : Inhabited Component := ⟨.sequence []⟩

/-! ## Building -/

/-- At least `min` and at most `max` repetitions. -/
def repeated (c : Component) (min : Nat) (max : Bound) : Component := .count c min max none

/-- The component or nothing. -/
def optional (c : Component) : Component := c.repeated 0 (.finite 1)

/-- Any number of repetitions. -/
def zeroOrMore (c : Component) : Component := c.repeated 0 .indefinite

/-- Any number of repetitions, but at least one. -/
def oneOrMore (c : Component) : Component := c.repeated 1 .indefinite

/-- The component followed by a tag; a sequence is made longer. -/
def tagged (value : String) : Component → Component
  | .sequence items => .sequence (items ++ [.tag value])
  | c => .sequence [c, .tag value]

/-- A choice between branches. -/
def isAlternatives : Component → Bool
  | .alternatives _ _ => true
  | _ => false

/-! ## References -/

mutual

/-- All references of a component, from left to right. -/
def references : Component → List Reference
  | .token _ => []
  | .tag _ => []
  | .reference r => [r]
  | .sequence items => referencesAll items
  | .alternatives branches _ => referencesAll branches
  | .count body _ _ _ => references body

/-- All references of a list of components, from left to right. -/
def referencesAll : List Component → List Reference
  | [] => []
  | c :: cs => references c ++ referencesAll cs

end

/-! ## Equality of content -/

/-- The weights are equal as numbers. -/
def sameNumbers : List Single → List Single → Bool
  | [], [] => true
  | x :: xs, y :: ys => x.equals y && sameNumbers xs ys
  | _, _ => false

/-- Both are absent, or both are there and equal as numbers. -/
def sameWeights : Option (List Single) → Option (List Single) → Bool
  | none, none => true
  | some xs, some ys => sameNumbers xs ys
  | _, _ => false

/-- Both are absent, or both are there and equal as numbers. -/
def sameProbability : Option Single → Option Single → Bool
  | none, none => true
  | some x, some y => x.equals y
  | _, _ => false

mutual

/-- The same tree, where weights and probabilities are compared as numbers. -/
def same : Component → Component → Bool
  | .token s, .token t => s == t
  | .tag s, .tag t => s == t
  | .reference r, .reference q => r == q
  | .sequence xs, .sequence ys => sameAll xs ys
  | .alternatives xs v, .alternatives ys w => sameAll xs ys && sameWeights v w
  | .count x m b p, .count y n d q => same x y && m == n && b == d && sameProbability p q
  | _, _ => false

/-- The same trees in the same order. -/
def sameAll : List Component → List Component → Bool
  | [], [] => true
  | x :: xs, y :: ys => same x y && sameAll xs ys
  | _, _ => false

end

end Component

end SpeechGrammar
