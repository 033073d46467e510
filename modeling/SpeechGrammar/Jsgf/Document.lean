import SpeechGrammar.Component.Rule
import SpeechGrammar.Jsgf.Expansion
import SpeechGrammar.Jsgf.ParseError

/-!
# Grammar texts

A grammar text has a header, the declaration of the name of the grammar, imports, and rules. `Document.parse` reads it
as a whole.
-/

namespace SpeechGrammar.Jsgf

/-- What a grammar text says. -/
structure Document where
  name : String
  /-- The third word of the header. -/
  locale : Option String
  /-- The imported names as they are written. -/
  imports : List String
  rules : List Rule

namespace Reader

/-- A word of the header. -/
def headerWord : Reader String := String.ofList <$> run isHeaderChar

/-- The end of a statement. -/
def semicolon : Reader Unit := cut (char ';')

/-- The mark, the version, and up to two more words, of which the second is the locale. -/
def header : Reader (Option String) := do
  layout
  expecting .headerMark (cut (literal "#JSGF".toList))
  expecting .version (spaces *> cut headerWord *> pure ())
  let words ← atMost (spaces *> headerWord) 2
  spaces
  semicolon
  pure words[1]?

/-- The declaration of the name of the grammar. -/
def declaration : Reader String := do
  layout
  expecting .declaration (cut (literal "grammar".toList))
  layout
  let name ← expecting .grammarName (cut (run isGrammarNameChar))
  layout
  semicolon
  pure (String.ofList name)

/-- An imported name in angle brackets. -/
def importedName : Reader String := do
  char '<'
  let name ← run isImportChar
  char '>'
  pure (String.ofList name)

/-- An import. -/
def importStatement : Reader String := do
  layout
  literal "import".toList
  layout
  let name ← expecting .importedName (cut importedName)
  layout
  semicolon
  pure name

/-- The word that says whether a rule is public. -/
def visibility : Reader Bool :=
  orElse (literal "public".toList *> pure true) (literal "private".toList *> pure false)

/-- The definition of a rule. Without a word for it the rule is private, and then it is its opening bracket that shows
that there is a rule at all. -/
def ruleDefinition : Reader Rule := do
  layout
  let isPublic ← optionally visibility
  layout
  if isPublic.isSome then cut (char '<') else char '<'
  let name ← expecting .ruleName (cut (run isRuleNameChar))
  cut (char '>')
  layout
  cut (char '=')
  let body ← expecting .expansion (cut expansion)
  expecting .semicolon (layout *> semicolon)
  pure ⟨String.ofList name, isPublic.getD false, body⟩

/-- A whole grammar text. -/
def document : Reader Document := do
  let locale ← header
  let name ← declaration
  let imports ← many importStatement
  let rules ← many ruleDefinition
  layout
  atEnd
  pure ⟨name, locale, imports, rules⟩

end Reader

/-- What a grammar text says, or where it stops being one. -/
def Document.parse (source : String) : Except ParseError Document :=
  match Reader.document source.toList with
  | .ok (doc, _) => .ok doc
  | .error f => .error ⟨source.toList, f.rest, f.expected⟩

end SpeechGrammar.Jsgf
