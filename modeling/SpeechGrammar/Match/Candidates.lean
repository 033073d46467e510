import SpeechGrammar.Grammar.Basic
import SpeechGrammar.Match.Search

/-!
# Choosing the rule

A search can be asked for a parse of one rule. Otherwise it tries the candidates of the grammar in order, and either
stops at the first parse or collects all of them. Candidates that cannot be compiled are passed over; only if none of
them can be does the error of the first one count.
-/

namespace SpeechGrammar

/-- The outcome of trying rules without finding a parse: an error if none of them could be compiled. -/
def withoutParse {α : Type} (failure : Option GrammarError) (compiled : Bool) (a : α) : Except GrammarError α :=
  match failure with
  | some e => if compiled then .ok a else .error e
  | none => .ok a

section

variable (attempt : String → Except GrammarError (Option Parse))

/-- The first parse of one of the rules. `failure` is the first error so far, and `compiled` tells whether some rule
could be compiled. -/
def firstParse (failure : Option GrammarError) (compiled : Bool) :
    List String → Except GrammarError (Option Parse)
  | [] => withoutParse failure compiled none
  | name :: names =>
    match attempt name with
    | .ok (some p) => .ok (some p)
    | .ok none => firstParse failure true names
    | .error e => firstParse (failure.or (some e)) compiled names

/-- The parses of all rules that have one. -/
def allParses (failure : Option GrammarError) (compiled : Bool) : List String → Except GrammarError (List Parse)
  | [] => withoutParse failure compiled []
  | name :: names =>
    match attempt name with
    | .ok (some p) => (allParses failure true names).map (p :: ·)
    | .ok none => allParses failure true names
    | .error e => allParses (failure.or (some e)) compiled names

end

namespace Environment

variable (env : Environment) (o : SearchOptions) (spoken : List String)

/-- The parse of one rule. -/
def parseRule (name : String) : Except GrammarError (Option Parse) := (env.compile name).map (·.parse spoken o)

/-- The rules to try when none is named. -/
def candidates : Except GrammarError (List String) :=
  match env.start.candidates with
  | [] => .error (.noRootRule env.start.name)
  | names => .ok names

/-- The parse of the named rule, or else the first parse of a candidate. -/
def parse : (rule : Option String) → Except GrammarError (Option Parse)
  | some name => env.parseRule o spoken name
  | none =>
    match env.candidates with
    | .error e => .error e
    | .ok names => firstParse (env.parseRule o spoken) none false names

/-- The parses of all candidates that have one. -/
def parseAll : Except GrammarError (List Parse) :=
  match env.candidates with
  | .error e => .error e
  | .ok names => allParses (env.parseRule o spoken) none false names

end Environment

end SpeechGrammar
