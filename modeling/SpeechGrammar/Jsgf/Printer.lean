import SpeechGrammar.Component.Rule
import SpeechGrammar.Jsgf.Lexical

/-!
# Writing components as grammar text

Every component has a text in the notation of JSGF. A token is quoted unless it consists of bare characters, tags and
quoted tokens are escaped, a choice inside a sequence or a choice is put into parentheses, and a repetition is
written out: the repetitions that must be there, and then either a postfix operator or the remaining ones in brackets.
-/

namespace SpeechGrammar

/-- The reference between angle brackets. -/
def Reference.print (r : Reference) : List Char :=
  match r.grammar with
  | none => '<' :: r.rule.toList ++ ['>']
  | some g => '<' :: g.toList ++ '.' :: r.rule.toList ++ ['>']

/-- The reference between angle brackets. -/
def Reference.text (r : Reference) : String := String.ofList r.print

namespace Component

/-- The rule that takes nothing. -/
def nullRule : List Char := "<NULL>".toList

/-- The rule that never fits. -/
def voidRule : List Char := "<VOID>".toList

/-- A token, in quotes unless it can stand bare. -/
def printToken (cs : List Char) : List Char :=
  if !cs.isEmpty && cs.all Jsgf.isBare then cs else '"' :: Jsgf.escape '"' cs ++ ['"']

/-- A tag in braces. -/
def printTag (cs : List Char) : List Char := '{' :: Jsgf.escape '}' cs ++ ['}']

/-- In parentheses if `grouped`. -/
def parenthesize (grouped : Bool) (cs : List Char) : List Char := if grouped then '(' :: cs ++ [')'] else cs

/-- A postfix operator after the component needs parentheses around it. -/
def needsGroup : Component → Bool
  | .sequence items => !items.isEmpty
  | .alternatives branches _ => !branches.isEmpty
  | .count _ _ _ _ => true
  | .token text => text.toList.contains ' '
  | .reference _ => false
  | .tag _ => false

/-- Puts the weights in front of the branches that have one. -/
def weigh : List (List Char) → List Single → List (List Char)
  | b :: bs, w :: ws => ('/' :: w.text ++ '/' :: ' ' :: b) :: weigh bs ws
  | bs, _ => bs

/-- The parts of a repetition whose body is written `body` on its own and `unit` before an operator. -/
def repetitionParts (unit body : List Char) (min : Nat) : Bound → List (List Char)
  | .indefinite => List.replicate (min - 1) unit ++ [unit ++ [if min = 0 then '*' else '+']]
  | .finite max => List.replicate min unit ++ List.replicate (max - min) ('[' :: body ++ [']'])

mutual

/-- The component in grammar text. -/
def print : Component → List Char
  | .token text => printToken text.toList
  | .tag value => printTag value.toList
  | .reference r => r.print
  | .sequence items => if items.isEmpty then nullRule else [' '].intercalate (printAll items)
  | .alternatives branches weights =>
    if branches.isEmpty then voidRule else [' ', '|', ' '].intercalate (weigh (printAll branches) (weights.getD []))
  | .count body min max _ =>
    let parts := repetitionParts (parenthesize (needsGroup body) (print body)) (print body) min max
    if parts.isEmpty then nullRule else [' '].intercalate parts

/-- The components as items of a sequence or a choice. -/
def printAll : List Component → List (List Char)
  | [] => []
  | c :: cs => parenthesize c.isAlternatives (print c) :: printAll cs

end

/-- The component in grammar text. -/
def text (c : Component) : String := String.ofList c.print

end Component

/-- The definition of the rule in grammar text. -/
def Rule.print (r : Rule) : List Char :=
  (if r.isPublic then "public ".toList else []) ++ '<' :: r.name.toList ++ "> = ".toList ++ r.body.print ++ [';']

/-- The definition of the rule in grammar text. -/
def Rule.text (r : Rule) : String := String.ofList r.print

end SpeechGrammar
