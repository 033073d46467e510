import SpeechGrammar.Component.Basic

/-!
# Patterns

A pattern is a component with the bodies of the rules it refers to in the places of the references. The body of a
repetition that allows no repetition at all does not matter, and it is left out (`Pattern.nothing`).
-/

namespace SpeechGrammar

/-- A component without references. -/
inductive Pattern where
  | token (text : String)
  | tag (value : String)
  | rule (name : String) (body : Pattern)
  | sequence (items : List Pattern)
  | alternatives (branches : List Pattern)
  | count (body : Pattern) (min : Nat) (max : Bound)

/-- How often the body of a repetition is laid out: as often as the finite bound allows, or else as often as it must be
there, and at least once. -/
def Bound.copies (min : Nat) : Bound → Nat
  | .finite max => max
  | .indefinite => Nat.max min 1

/-- There is no upper bound. -/
def Bound.isIndefinite : Bound → Bool
  | .finite _ => false
  | .indefinite => true

namespace Pattern

/-- A pattern that fits no words. -/
def nothing : Pattern := .alternatives []

instance : Inhabited Pattern := ⟨nothing⟩

mutual

/-- How many nodes the graph of a pattern has. -/
def size : Pattern → Nat
  | .token _ => 1
  | .tag _ => 1
  | .rule _ body => size body + 2
  | .sequence items => sizeAll items + 2
  | .alternatives branches => sizeAll branches + 2
  | .count body min max => max.copies min * size body + 2

/-- How many nodes the graphs of the patterns have together. -/
def sizeAll : List Pattern → Nat
  | [] => 0
  | p :: ps => size p + sizeAll ps

end

/-- Every pattern has a node. -/
theorem size_pos : ∀ p : Pattern, 0 < p.size
  | .token _ => Nat.one_pos
  | .tag _ => Nat.one_pos
  | .rule _ _ => Nat.succ_pos _
  | .sequence _ => Nat.succ_pos _
  | .alternatives _ => Nat.succ_pos _
  | .count _ _ _ => Nat.succ_pos _

end Pattern

end SpeechGrammar
