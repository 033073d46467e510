import SpeechGrammar.Grammar.Snapshot

/-!
# Changes

A change of a snapshot either fails and leaves it alone, or gives the new snapshot and tells whether it differs
(`Table.apply` makes the same change in place). Of several changes those of the root come last, and the ones that fail
are left out.
-/

namespace SpeechGrammar

/-- A change that a commit is to make. -/
inductive Change where
  | add (rule : Rule)
  | remove (name : String)
  /-- Without a name the root is chosen again as the first active rule. -/
  | setRoot (name : Option String)
  | setActivatable (names : List String) (enabled : Bool)

namespace Change

/-- A change of the root. -/
def isSetRoot : Change → Bool
  | .setRoot _ => true
  | _ => false

end Change

namespace Snapshot

/-- The rule is there and public. -/
def requirePublic (s : Snapshot) (use : PublicUse) (name : String) : Except GrammarError Unit :=
  match s.find? name with
  | none => .error (.undefinedRule name)
  | some e => if e.rule.isPublic then .ok () else .error (.notPublic name use)

/-- All rules are there and public; the error is that of the first one that is not. -/
def requireAllPublic (s : Snapshot) (use : PublicUse) : List String → Except GrammarError Unit
  | [] => .ok ()
  | name :: names =>
    match s.requirePublic use name with
    | .error e => .error e
    | .ok () => s.requireAllPublic use names

/-- The snapshot with one more rule; a public one can be activated. -/
def insert (s : Snapshot) (rule : Rule) : Snapshot :=
  { s with entries := place ⟨rule, s.nextId, rule.isPublic⟩ s.entries, nextId := s.nextId + 1 }

/-- The snapshot without a rule, which is no longer the root either. -/
def erase (s : Snapshot) (name : String) : Snapshot :=
  { s with
    entries := s.entries.filter (·.name != name)
    explicitRoot := s.explicitRoot.filter (· != name) }

/-- The snapshot in which the named rules can be activated, or cannot. -/
def activate (s : Snapshot) (names : List String) (enabled : Bool) : Snapshot :=
  { s with entries := s.entries.map fun e => if names.contains e.name then { e with activatable := enabled } else e }

/-- Some of the named rules can be activated and are not to be, or the other way round. -/
def activationDiffers (s : Snapshot) (names : List String) (enabled : Bool) : Bool :=
  s.entries.any fun e => names.contains e.name && e.activatable != enabled

/-- The snapshot after a change, and whether it differs from the one before. -/
def apply (s : Snapshot) : Change → Except GrammarError (Snapshot × Bool)
  | .add rule => if (s.find? rule.name).isSome then .error (.duplicateRule rule.name) else .ok (s.insert rule, true)
  | .remove name => if (s.find? name).isSome then .ok (s.erase name, true) else .error (.undefinedRule name)
  | .setActivatable names enabled =>
    match s.requireAllPublic .activation names with
    | .error e => .error e
    | .ok () => .ok (s.activate names enabled, s.activationDiffers names enabled)
  | .setRoot none => .ok ({ s with explicitRoot := none }, s.explicitRoot.isSome)
  | .setRoot (some name) =>
    match s.requirePublic .root name with
    | .error e => .error e
    | .ok () => .ok ({ s with explicitRoot := some name }, s.explicitRoot != some name)

/-- What becomes of a snapshot under several changes. -/
structure Outcome where
  snapshot : Snapshot
  /-- Some change made a difference. -/
  changed : Bool
  /-- How many changes did not fail. -/
  applied : Nat
  /-- Why the others failed, in order. -/
  failures : List GrammarError

/-- Makes the changes in order and leaves out those that fail. -/
def applyAll (s : Snapshot) : List Change → Outcome
  | [] => ⟨s, false, 0, []⟩
  | c :: cs =>
    match s.apply c with
    | .ok (t, changed) =>
      let o := t.applyAll cs
      { o with changed := changed || o.changed, applied := o.applied + 1 }
    | .error e =>
      let o := s.applyAll cs
      { o with failures := e :: o.failures }

/-- The order in which a commit makes its changes: those of the root come last. -/
def commitOrder (changes : List Change) : List Change :=
  changes.filter (!·.isSetRoot) ++ changes.filter Change.isSetRoot

/-- The snapshot that a commit publishes: the old one if no change made a difference, and else the new one as the next
generation. -/
def publish (s : Snapshot) (o : Outcome) : Snapshot :=
  if o.changed then { o.snapshot with generation := s.generation + 1 } else s

end Snapshot

end SpeechGrammar
