import SpeechGrammar.Component.Rule
import SpeechGrammar.Jsgf.Printer

/-!
# Faults of grammars

What can be wrong with a rule, a change or a reference, and with a commit as a whole, and how it is worded.
-/

namespace SpeechGrammar

/-- Why a grammar does not take a rule. -/
inductive RuleFault where
  | name
  | shape (fault : ShapeFault)
  deriving DecidableEq, Repr

/-- The wording of a fault. -/
def RuleFault.message : RuleFault → String
  | .name => "rule names must be non-empty and contain no whitespace or '<>;=.'"
  | .shape fault => fault.message

/-- What is open to public rules only. -/
inductive PublicUse where
  | root
  | activation
  | foreignReference
  deriving DecidableEq, Repr

/-- What the rule would have become. -/
def PublicUse.message : PublicUse → String
  | .root => "the root rule"
  | .activation => "activated or deactivated"
  | .foreignReference => "referenced from another grammar"

/-- What is wrong with a rule, a change or a reference. -/
inductive GrammarError where
  | duplicateRule (name : String)
  | undefinedRule (name : String)
  | notPublic (name : String) (use : PublicUse)
  | invalidRule (rule : String) (fault : RuleFault)
  | undefinedReference (rule : String) (target : Reference)
  /-- From a rule through the rules it refers to back to itself. -/
  | cyclicReference (path : List String)
  | unknownGrammar (grammar : String)
  | duplicateGrammar (name : String)
  | noRootRule (grammar : String)
  deriving DecidableEq, Repr

/-- The wording of an error. -/
def GrammarError.message : GrammarError → String
  | .duplicateRule name => s!"duplicate rule name '{name}'"
  | .undefinedRule name => s!"undefined rule '{name}'"
  | .notPublic name use => s!"rule '{name}' is private and cannot be {use.message}"
  | .invalidRule rule fault => s!"invalid rule '{rule}': {fault.message}"
  | .undefinedReference rule target => s!"undefined rule reference '{target.text}' in rule '{rule}'"
  | .cyclicReference path => "cyclic rule reference: " ++ " -> ".intercalate path
  | .unknownGrammar grammar => s!"unknown grammar '{grammar}'"
  | .duplicateGrammar name => s!"duplicate grammar name '{name}'"
  | .noRootRule grammar => s!"grammar '{grammar}' has no root rule and no activatable public rules"

/-- The changes of a commit that failed, and how many did not. -/
structure CommitError where
  failures : List GrammarError
  applied : Nat
  deriving DecidableEq, Repr

/-- The wording of an error. -/
def CommitError.message (e : CommitError) : String :=
  s!"{e.failures.length} queued operation(s) failed ({e.applied} applied)" ++
    String.join (e.failures.map fun f => "; " ++ f.message)

end SpeechGrammar
