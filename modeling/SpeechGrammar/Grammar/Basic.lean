import SpeechGrammar.Grammar.Change
import SpeechGrammar.Match.Options

/-!
# Grammars

A grammar has a committed state and a queue of changes. Everything that reads a grammar sees the committed state;
`Grammar.commit` makes the queued changes and publishes the result.
-/

namespace SpeechGrammar

/-- A named set of rules with changes that are not made yet. -/
structure Grammar where
  committed : Snapshot
  pending : List Change
  options : SearchOptions
  /-- References to other grammars are looked up in the workspace. -/
  linked : Bool

namespace Grammar

/-- A grammar without changes in its queue. -/
def ofSnapshot (s : Snapshot) (options : SearchOptions) (linked : Bool) : Grammar := ⟨s, [], options, linked⟩

instance : Inhabited Grammar := ⟨ofSnapshot default default false⟩

/-- A grammar of its own, without rules. -/
def empty (name : String) (locale : Option String) (options : SearchOptions) : Grammar :=
  ofSnapshot (.empty name locale) options false

/-- The name of the grammar. -/
def name (g : Grammar) : String := g.committed.name

/-- Some change is not made yet. -/
def hasPending (g : Grammar) : Bool := !g.pending.isEmpty

/-- Puts a change into the queue. -/
def enqueue (g : Grammar) (c : Change) : Grammar := { g with pending := g.pending ++ [c] }

/-- Why a grammar does not take a rule. -/
def ruleFault? (r : Rule) : Option RuleFault :=
  if !Rule.isName r.name then some .name else r.body.fault?.map .shape

/-- Queues the addition of a rule, if nothing is wrong with it. Whether its name is free shows at the commit. -/
def addRule (g : Grammar) (r : Rule) : Except GrammarError Grammar :=
  match ruleFault? r with
  | some fault => .error (.invalidRule r.name fault)
  | none => .ok (g.enqueue (.add r))

/-- Queues the addition of several rules; the error is that of the first one that is not taken. -/
def addRules (g : Grammar) : List Rule → Except GrammarError Grammar
  | [] => .ok g
  | r :: rs =>
    match g.addRule r with
    | .error e => .error e
    | .ok g => g.addRules rs

/-- What a commit reports: whether something changed, or which changes failed. -/
def report (o : Snapshot.Outcome) : Except CommitError Bool :=
  if o.failures.isEmpty then .ok o.changed else .error ⟨o.failures, o.applied⟩

/-- Makes the queued changes and publishes the result. Changes that fail are reported, and the others are made. -/
def commit (g : Grammar) : Grammar × Except CommitError Bool :=
  let o := g.committed.applyAll (Snapshot.commitOrder g.pending)
  ({ g with committed := g.committed.publish o, pending := [] }, report o)

end Grammar

end SpeechGrammar
