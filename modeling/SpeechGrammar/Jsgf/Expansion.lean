import SpeechGrammar.Component.Basic
import SpeechGrammar.Jsgf.Layout
import SpeechGrammar.Jsgf.Lexical

/-!
# Reading expansions

The right side of a rule. Alternatives bind weaker than sequences, sequences weaker than the postfix operators `*` and
`+`, and these weaker than a unit: a token, a tag, a reference, or an expansion in parentheses or brackets. A sequence
of one item, and a single alternative without a weight, are just that item. Either all alternatives have a weight or
none has.

An expansion contains expansions, each within brackets of its own. `expansion n` reads those that are nested less
than `n` deep, so the length of the text is enough (`Reader.expansion`).
-/

namespace SpeechGrammar.Jsgf.Reader

/-- The text in front of the first `close` without a backslash, which is taken as well. -/
def closedBy (close : Char) (expected : List Expectation) : Reader (List Char) := fun s =>
  match unescape close s with
  | .ok r => .ok r
  | .error .midway => abort expected []
  | .error .afterBackslash => abort [] []

/-- A token in quotes. -/
def quoted : Reader Component := do
  char '"'
  let cs ← closedBy '"' []
  pure (.token (String.ofList cs))

/-- A tag in braces; the blank characters at its ends do not belong to it. -/
def tag : Reader Component := do
  char '{'
  let cs ← closedBy '}' [.closingBrace]
  pure (.tag (String.ofList (Text.trim cs)))

/-- A token without quotes. -/
def bareToken : Reader Component := do
  let cs ← run isBare
  pure (.token (String.ofList cs))

/-- The parts before and after the last dot. -/
def splitAtLastDot : List Char → Option (List Char × List Char)
  | [] => none
  | c :: cs =>
    match splitAtLastDot cs with
    | some (before, after) => .some (c :: before, after)
    | none => if c = '.' then some ([], cs) else none

/-- What a name between angle brackets stands for. -/
def namedComponent (cs : List Char) : Component :=
  if cs = "NULL".toList then .sequence []
  else if cs = "VOID".toList then .alternatives [] none
  else match splitAtLastDot cs with
    | some (grammar, rule) => .reference ⟨String.ofList rule, some (String.ofList grammar)⟩
    | none => .reference ⟨String.ofList cs, none⟩

/-- A name in angle brackets. -/
def reference : Reader Component := expecting .ruleReference do
  char '<'
  let cs ← cut (run isReferenceChar)
  cut (char '>')
  pure (namedComponent cs)

/-- An expansion between brackets. -/
def enclosed (opening closing : Char) (inner : Reader Component) : Reader Component := do
  char opening
  let c ← cut inner
  layout
  cut (char closing)
  pure c

/-- A component without operators. -/
def unit (inner : Reader Component) : Reader Component :=
  orElse (enclosed '(' ')' inner) <|
  orElse (Component.optional <$> enclosed '[' ']' inner) <|
  orElse reference <|
  orElse tag <|
  orElse quoted bareToken

/-- The component under a postfix operator. -/
def applyPostfix (c : Component) (operator : Char) : Component :=
  if operator = '*' then c.zeroOrMore else c.oneOrMore

/-- A postfix operator. -/
def postfixOperator : Reader Char :=
  orElse (char '*' *> pure '*') (char '+' *> pure '+')

/-- A unit and the postfix operators right behind it. -/
def repetition (inner : Reader Component) : Reader Component := do
  let c ← unit inner
  let operators ← many postfixOperator
  pure (operators.foldl applyPostfix c)

/-- Items one after the other; a single one is itself. -/
def oneOrSequence : List Component → Component
  | [c] => c
  | cs => .sequence cs

/-- Items one after the other. -/
def sequence (inner : Reader Component) : Reader Component := do
  let items ← expecting .item (atLeastOnce (layout *> repetition inner))
  pure (oneOrSequence items)

/-- The digits between the slashes of a weight. -/
def weightValue : Reader Single := do
  let cs ← run isWeightChar
  match Decimal.read? cs with
  | some d => pure (Single.ofDecimal d)
  | none => refuse

/-- A number between slashes. -/
def weight : Reader Single := do
  char '/'
  let w ← weightValue
  cut (char '/')
  pure w

/-- A sequence that may have a weight. -/
def branch (inner : Reader Component) : Reader (Option Single × Component) := do
  layout
  let w ← optionally weight
  let c ← sequence inner
  pure (w, c)

/-- The weights of all branches, or that none has one; nothing if only some have. -/
def commonWeights (weights : List (Option Single)) : Option (Option (List Single)) :=
  if weights.all Option.isNone then some none
  else if weights.all Option.isSome then some (weights.filterMap id)
  else none

/-- The component that branches make up; nothing if only some have a weight. -/
def ofBranches : List (Option Single × Component) → Option Component
  | [(none, c)] => some c
  | bs => (commonWeights (bs.map Prod.fst)).map (.alternatives (bs.map Prod.snd))

/-- Branches with bars between them. -/
def branches (inner : Reader Component) : Reader Component := do
  let first ← branch inner
  let others ← many (layout *> char '|' *> cut (branch inner))
  match ofBranches (first :: others) with
  | some c => pure c
  | none => abort []

/-- An expansion with others nested in it less than `n` deep. Without a character there is no expansion. -/
def expansionWithin : Nat → Reader Component
  | 0 => expecting .item refuse
  | n + 1 => branches (expansionWithin n)

/-- An expansion. Each nested one comes after a bracket, so its text is shorter. -/
def expansion : Reader Component := fun s => expansionWithin s.length s

end SpeechGrammar.Jsgf.Reader
