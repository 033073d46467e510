import SpeechGrammar.Grammar.Error

/-!
# Snapshots

One committed state of a grammar. Each rule has an id that tells when it was added, and the rules are kept in the order
of their ids (a `Table` has them by name, and sorts them when they are read). The root is the rule that was set as such,
or else the first rule that can be activated.
-/

namespace SpeechGrammar

/-- A rule of a grammar. -/
structure Entry where
  rule : Rule
  /-- Ids are given in ascending order. -/
  id : UInt64
  /-- Whether a search without a rule name tries the rule. -/
  activatable : Bool

namespace Entry

/-- The name of the rule. -/
def name (e : Entry) : String := e.rule.name

/-- The rule is public and can be activated. -/
def isActive (e : Entry) : Bool := e.rule.isPublic && e.activatable

/-- The same entry, where weights and probabilities are compared as numbers. -/
def same (e f : Entry) : Bool := e.rule.same f.rule && e.id == f.id && e.activatable == f.activatable

end Entry

/-- One committed state of a grammar. -/
structure Snapshot where
  name : String
  locale : Option String
  /-- In the order of their ids. -/
  entries : List Entry
  /-- The rule that was set as the root. -/
  explicitRoot : Option String
  /-- The id of the next rule that is added. -/
  nextId : UInt64
  /-- How many commits have changed something. -/
  generation : UInt64

namespace Snapshot

/-- Without rules. -/
def empty (name : String) (locale : Option String) : Snapshot := ⟨name, locale, [], none, 0, 0⟩

instance : Inhabited Snapshot := ⟨empty "" none⟩

/-- The entry of a rule. -/
def find? (s : Snapshot) (name : String) : Option Entry := s.entries.find? (·.name == name)

/-- The rule of a name. -/
def rule? (s : Snapshot) (name : String) : Option Rule := (s.find? name).map Entry.rule

/-- The rule is there and can be activated. -/
def isActivatable (s : Snapshot) (name : String) : Bool := (s.find? name).any Entry.activatable

/-- The names of the rules, in the order in which they were added. -/
def ruleNames (s : Snapshot) : List String := s.entries.map Entry.name

/-- The names of the rules that can be activated, in the same order. -/
def activatableNames (s : Snapshot) : List String := (s.entries.filter Entry.activatable).map Entry.name

/-- The rule that was set as the root, or else the first active one. -/
def root (s : Snapshot) : Option String := s.explicitRoot.or ((s.entries.find? Entry.isActive).map Entry.name)

/-- The rules that are tried when none is named: the explicit root, if it can be activated, and then the other active
rules in the order in which they were added. -/
def candidates (s : Snapshot) : List String :=
  let root := s.explicitRoot.filter s.isActivatable
  root.toList ++ ((s.entries.filter Entry.isActive).map Entry.name).filter (root != some ·)

/-- Puts an entry in front of those with greater ids. -/
def place (e : Entry) : List Entry → List Entry
  | [] => [e]
  | f :: fs => if e.id < f.id then e :: f :: fs else f :: place e fs

/-- Putting an entry in its place adds this entry and nothing else. -/
theorem mem_place {e f : Entry} {es : List Entry} : f ∈ place e es ↔ f = e ∨ f ∈ es := by
  induction es with
  | nil => simp [place]
  | cons g gs ih =>
    by_cases h : e.id < g.id
    · simp [place, h]
    · simp only [place, h, ↓reduceIte, List.mem_cons, ih]
      exact or_left_comm

/-- The same list of entries, where weights and probabilities are compared as numbers. -/
def sameEntries : List Entry → List Entry → Bool
  | [], [] => true
  | e :: es, f :: fs => e.same f && sameEntries es fs
  | _, _ => false

/-- The same state, where weights and probabilities are compared as numbers. -/
def same (s t : Snapshot) : Bool :=
  s.name == t.name && s.locale == t.locale && sameEntries s.entries t.entries &&
    s.explicitRoot == t.explicitRoot && s.nextId == t.nextId && s.generation == t.generation

/-- The first line of the grammar text. -/
def printHeader : Option String → List Char
  | none => "#JSGF V1.0;\n".toList
  | some locale => "#JSGF V1.0 UTF-8 ".toList ++ locale.toList ++ ";\n".toList

/-- The grammar text of the snapshot, with the rules in the order in which they were added. -/
def print (s : Snapshot) : List Char :=
  printHeader s.locale ++ "grammar ".toList ++ s.name.toList ++ ";\n".toList ++
    s.entries.flatMap (fun e => '\n' :: e.rule.print) ++ ['\n']

/-- The grammar text of the snapshot, with the rules in the order in which they were added. -/
def jsgf (s : Snapshot) : String := String.ofList s.print

/-- The snapshot in one line. -/
def summary (s : Snapshot) : String :=
  s!"RuleGrammar({s.name}, {s.entries.length} rules, root " ++ s.root.getD "<none>" ++ ")"

end Snapshot

end SpeechGrammar
