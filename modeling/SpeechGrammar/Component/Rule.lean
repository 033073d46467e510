import SpeechGrammar.Component.Shape

/-!
# Rules

A rule gives a name to a component. Only a public rule can be the root of its grammar, be activated, or be referred
to from another grammar.
-/

namespace SpeechGrammar

/-- A named component. -/
structure Rule where
  name : String
  isPublic : Bool
  body : Component

namespace Rule

/-- The same rule, where weights and probabilities are compared as numbers. -/
def same (r q : Rule) : Bool := r.name == q.name && r.isPublic == q.isPublic && r.body.same q.body

/-- A character that no name of a rule may hold. -/
def barsName (c : Char) : Bool := Text.isBlank c || ['<', '>', ';', '=', '.'].contains c

/-- A name that a rule may have. -/
def isName (s : String) : Bool := !s.isEmpty && !s.toList.any barsName

end Rule

end SpeechGrammar
