import SpeechGrammar.Cache.Error
import SpeechGrammar.Grammar.Snapshot

/-!
# Payloads

What a cached grammar holds: the state of the grammar, how many rules there are said to be, and the digest of the text
the grammar was loaded from. Not every payload is a possible state of a grammar; `Payload.fault?` gives the first thing
that is wrong.
-/

namespace SpeechGrammar.Cache

/-- The content of a cached grammar. -/
structure Payload where
  name : String
  locale : Option String
  generation : UInt64
  ruleCount : Nat
  /-- The digest of the source text. -/
  digest : Option (List UInt8)
  rules : List Entry
  root : Option String
  nextId : UInt64

namespace Payload

/-- The payload of a snapshot. -/
def ofSnapshot (s : Snapshot) (digest : Option (List UInt8)) : Payload :=
  ⟨s.name, s.locale, s.generation, s.entries.length, digest, s.entries, s.explicitRoot, s.nextId⟩

/-- What is wrong with an entry after others, nearest first. -/
def entryFault? (nextId : UInt64) (before : List Entry) (e : Entry) : Option PayloadFault :=
  if e.name.isEmpty then some .emptyRuleName
  else if before.any (·.name == e.name) then some (.duplicateName e.name)
  else if before.any (·.id == e.id) then some (.duplicateId e.id)
  else if nextId ≤ e.id then some (.idNotBelowNext e.id e.name nextId)
  else if e.activatable && !e.rule.isPublic then some (.privateActivatable e.name)
  else none

/-- The first fault of the entries after others. -/
def entriesFault? (nextId : UInt64) (before : List Entry) : List Entry → Option PayloadFault
  | [] => none
  | e :: es => (entryFault? nextId before e).or (entriesFault? nextId (e :: before) es)

/-- What is wrong with the root. -/
def rootFault? (rules : List Entry) : Option String → Option PayloadFault
  | none => none
  | some root =>
    match rules.find? (·.name == root) with
    | none => some (.unknownRoot root)
    | some e => if e.rule.isPublic then none else some (.privateRoot root)

/-- The first fault of the bodies of rules. -/
def shapeFault? (rules : List Entry) : Option PayloadFault :=
  rules.findSome? fun e => e.rule.body.fault?.map (.shape e.name)

/-- The first fault of a payload. -/
def fault? (p : Payload) : Option PayloadFault :=
  if p.ruleCount ≠ p.rules.length then some (.ruleCount p.ruleCount p.rules.length)
  else if p.name.isEmpty then some .emptyGrammarName
  else (entriesFault? p.nextId [] p.rules).or ((rootFault? p.rules p.root).or (shapeFault? p.rules))

/-- The state of a grammar, with its rules in the order of their ids. -/
def toSnapshot (p : Payload) : Snapshot :=
  ⟨p.name, p.locale, p.rules.foldl (fun es e => Snapshot.place e es) [], p.root, p.nextId, p.generation⟩

/-- The state of a grammar, if nothing is wrong. -/
def snapshot (p : Payload) : Except Error Snapshot :=
  match p.fault? with
  | some fault => .error (.invalid fault)
  | none => .ok p.toSnapshot

end Payload

end SpeechGrammar.Cache
