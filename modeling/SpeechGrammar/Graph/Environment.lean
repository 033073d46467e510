import SpeechGrammar.Grammar.Snapshot
import SpeechGrammar.Graph.Pattern

/-!
# Resolving references

A rule is compiled in an environment: the snapshot it is taken from, and snapshots of the other grammars. A reference
without a grammar, or with that of the rule it stands in, is resolved there; a reference to another grammar needs a
public rule. `Environment.pattern` puts the bodies of rules in the places of the references to them, and reports a
rule that comes back to itself with the path it takes.
-/

namespace SpeechGrammar

/-- A rule together with the grammar it belongs to. -/
structure RuleId where
  grammar : String
  rule : String
  deriving DecidableEq, Repr

/-- The snapshots in which references are resolved. -/
structure Environment where
  /-- The snapshot of the rule that is compiled. -/
  start : Snapshot
  /-- The snapshots of other grammars; one with the name of the starting grammar is not looked at. -/
  others : List Snapshot

namespace Environment

/-- All snapshots, in the order in which they are looked up. -/
def snapshots (env : Environment) : List Snapshot := env.start :: env.others

/-- The snapshot of a grammar. -/
def grammar? (env : Environment) (name : String) : Option Snapshot := env.snapshots.find? (·.name == name)

/-- The rules of the grammars. -/
def ruleIds (env : Environment) : List RuleId :=
  env.snapshots.flatMap fun s => s.ruleNames.map fun name => ⟨s.name, name⟩

/-- How a rule is named in messages: with its grammar, unless that is the starting one. -/
def displayName (env : Environment) (id : RuleId) : String :=
  if id.grammar = env.start.name then id.rule else id.grammar ++ "." ++ id.rule

/-- The rule that a reference inside the rule `source` leads to. -/
def resolve (env : Environment) (source : RuleId) (r : Reference) : Except GrammarError (RuleId × Rule) :=
  let target : RuleId := ⟨r.grammar.getD source.grammar, r.rule⟩
  match env.grammar? target.grammar with
  | none => .error (.unknownGrammar target.grammar)
  | some s =>
    match s.rule? target.rule with
    | none => .error (.undefinedReference source.rule r)
    | some rule =>
      if target.grammar ≠ source.grammar ∧ rule.isPublic = false then
        .error (.notPublic (env.displayName target) .foreignReference)
      else .ok (target, rule)

theorem mem_ruleIds {env : Environment} {grammar name : String} {s : Snapshot} {rule : Rule}
    (hs : env.grammar? grammar = some s) (hr : s.rule? name = some rule) : ⟨grammar, name⟩ ∈ env.ruleIds := by
  obtain ⟨e, he, rfl⟩ := Option.map_eq_some_iff.mp hr
  have hn : e.name = name := by simpa using List.find?_some he
  have hg : s.name = grammar := by simpa using List.find?_some hs
  subst hn hg
  exact List.mem_flatMap.mpr ⟨s, List.mem_of_find?_eq_some hs,
    List.mem_map.mpr ⟨e.name, List.mem_map.mpr ⟨e, List.mem_of_find?_eq_some he, rfl⟩, rfl⟩⟩

/-- References lead to rules of the environment. -/
theorem mem_ruleIds_of_resolve {env : Environment} {source target : RuleId} {r : Reference} {rule : Rule}
    (h : env.resolve source r = .ok (target, rule)) : target ∈ env.ruleIds := by
  simp only [resolve] at h
  split at h
  · cases h
  · rename_i s hs
    split at h
    · cases h
    · rename_i q hq
      split at h
      · cases h
      · cases h
        exact mem_ruleIds hs hq

/-! ## Patterns of components -/

section

variable (visit : Reference → Except GrammarError Pattern) (owner : String)

/-- The fault of a repetition in the rule `owner`. -/
def checkBounds (min : Nat) : Bound → Except GrammarError Unit
  | .finite max =>
    if max < min then .error (.invalidRule owner (.shape (.invertedBounds min max))) else .ok ()
  | .indefinite => .ok ()

mutual

/-- The pattern of a component of the rule `owner`, where `visit` gives the patterns of references. -/
def patternOf : Component → Except GrammarError Pattern
  | .token text => .ok (.token text)
  | .tag value => .ok (.tag value)
  | .reference r => visit r
  | .sequence items => (patternsOf items).map .sequence
  | .alternatives branches _ => (patternsOf branches).map .alternatives
  | .count body min max _ =>
    match checkBounds owner min max with
    | .error e => .error e
    | .ok () =>
      if max = .finite 0 then .ok (.count .nothing min max) else (patternOf body).map (.count · min max)

/-- The patterns of components; the error is that of the first one that has no pattern. -/
def patternsOf : List Component → Except GrammarError (List Pattern)
  | [] => .ok []
  | c :: cs =>
    match patternOf c with
    | .error e => .error e
    | .ok p => (patternsOf cs).map (p :: ·)

end

end

/-! ## Patterns of rules -/

/-- The rules that are not on a path. -/
def unvisited (env : Environment) (path : List RuleId) : List RuleId := env.ruleIds.filter (!path.contains ·)

theorem length_unvisited_lt {env : Environment} {path : List RuleId} {id : RuleId} (hid : id ∈ env.ruleIds)
    (hpath : id ∉ path) : (env.unvisited (path ++ [id])).length < (env.unvisited path).length := by
  have hsub : env.unvisited (path ++ [id]) = (env.unvisited path).filter (· != id) := by
    simp only [unvisited, List.filter_filter]
    refine List.filter_congr fun x _ => ?_
    by_cases hx : x = id <;> simp [hx]
  rw [hsub]
  refine List.length_filter_lt_length_iff_exists.mpr ⟨id, ?_, by simp⟩
  exact List.mem_filter.mpr ⟨hid, by simpa using hpath⟩

/-- The part of a path from a rule on, and back to the rule. -/
def cycle (env : Environment) (path : List RuleId) (id : RuleId) : List String :=
  (path.dropWhile (· != id) ++ [id]).map env.displayName

/-- The pattern of the body of the rule `source`, which is the last one on `path`. -/
def ruleBody (env : Environment) (path : List RuleId) (source : RuleId) (rule : Rule) : Except GrammarError Pattern :=
  patternOf (fun r =>
    match h : env.resolve source r with
    | .error e => .error e
    | .ok (target, q) =>
      if hp : target ∈ path then .error (.cyclicReference (env.cycle path target))
      else
        have := length_unvisited_lt (mem_ruleIds_of_resolve h) hp
        (env.ruleBody (path ++ [target]) target q).map (.rule q.name)) rule.name rule.body
termination_by (env.unvisited path).length

/-- The pattern of the body of a rule of the starting grammar. -/
def pattern (env : Environment) (name : String) : Except GrammarError Pattern :=
  match env.start.rule? name with
  | none => .error (.undefinedRule name)
  | some rule =>
    let id : RuleId := ⟨env.start.name, name⟩
    env.ruleBody [id] id rule

end Environment

end SpeechGrammar
