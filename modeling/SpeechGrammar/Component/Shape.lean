import SpeechGrammar.Component.Basic
import SpeechGrammar.Text.Blank

/-!
# The shape of components

What must hold of a component whatever other rules there are: tokens have a word, references have a name, there is
one weight for each branch and none is negative, repetition bounds are in order and not too large, and probabilities
are between zero and one. `Component.fault?` gives the first thing that is wrong, from the root to the leaves and
from left to right.
-/

namespace SpeechGrammar

/-- The largest bound a repetition may have. -/
def maxRepeatBound : Nat := 1000

/-- What is wrong with the shape of a component. -/
inductive ShapeFault where
  | emptyToken
  | unnamedReference
  | weightCount (weights branches : Nat)
  | weightValue
  | invertedBounds (min max : Nat)
  | boundTooLarge (bound : Nat)
  | improbable (probability : Single)
  deriving DecidableEq, Repr

/-- The wording of a fault. -/
def ShapeFault.message : ShapeFault → String
  | .emptyToken => "empty token"
  | .unnamedReference => "reference with an empty rule name"
  | .weightCount weights branches => s!"{weights} weights given for {branches} alternatives"
  | .weightValue => "alternative weights must be finite and non-negative"
  | .invertedBounds min max => s!"repeat minimum {min} exceeds maximum {max}"
  | .boundTooLarge bound => s!"repeat bound {bound} exceeds the limit of {maxRepeatBound}"
  | .improbable p => "repeat probability " ++ String.ofList p.text ++ " outside [0, 1]"

namespace Component

/-- What is wrong with the weights of so many branches. -/
def weightsFault? (branches : Nat) : Option (List Single) → Option ShapeFault
  | none => none
  | some ws =>
    if ws.length ≠ branches then some (.weightCount ws.length branches)
    else if ws.any fun w => !w.isFinite || w.isNegative then some .weightValue
    else none

/-- What is wrong with the bounds of a repetition. -/
def boundsFault? (min : Nat) : Bound → Option ShapeFault
  | .finite max =>
    if max < min then some (.invertedBounds min max)
    else if maxRepeatBound < max then some (.boundTooLarge max)
    else none
  | .indefinite => if maxRepeatBound < min then some (.boundTooLarge min) else none

/-- What is wrong with a repeat probability. -/
def probabilityFault? : Option Single → Option ShapeFault
  | none => none
  | some p => if p.isProbability then none else some (.improbable p)

mutual

/-- The first fault of a component. -/
def fault? : Component → Option ShapeFault
  | .token text => if (Text.words text).isEmpty then some .emptyToken else none
  | .tag _ => none
  | .reference r => if r.rule.isEmpty then some .unnamedReference else none
  | .sequence items => faultAmong? items
  | .alternatives branches weights => (weightsFault? branches.length weights).or (faultAmong? branches)
  | .count body min max probability =>
    (boundsFault? min max).or ((probabilityFault? probability).or (fault? body))

/-- The first fault of a list of components. -/
def faultAmong? : List Component → Option ShapeFault
  | [] => none
  | c :: cs => (fault? c).or (faultAmong? cs)

end

/-- A list is without fault if each of its components is. -/
theorem faultAmong?_eq_none_iff {cs : List Component} : faultAmong? cs = none ↔ ∀ c ∈ cs, fault? c = none := by
  induction cs with
  | nil => simp [faultAmong?]
  | cons c cs ih => simp [faultAmong?, ih]

end Component

end SpeechGrammar
