import SpeechGrammar.Cache.Blob
import SpeechGrammar.Jsgf.Document
import SpeechGrammar.Match.Candidates

/-!
# Workspaces

A workspace holds grammars. Some of them are registered under their names, and references from one grammar to another
lead to registered grammars. A grammar keeps its handle for good, also when its name is no longer registered.

Grammars are added in two ways. `Workspace.load` and the operations beside it give a new workspace only if they succeed.
`Workspace.answer` carries out the same requests step by step on a workspace that changes as it goes, as long-lived
workspaces are used: a text is loaded into a grammar that is registered already, and after a failure the registration has
to be undone.
-/

namespace SpeechGrammar

/-- The number of a grammar in a workspace. -/
abbrev Handle := Nat

/-- Grammars, and the names of those that are registered. -/
structure Workspace where
  /-- For the grammars that are made here. -/
  options : SearchOptions
  grammars : Array Grammar
  registered : List (String × Handle)

/-- Why a grammar could not be loaded. -/
inductive LoadError where
  | parse (error : Jsgf.ParseError)
  | grammar (error : GrammarError)
  | commit (error : CommitError)
  | cache (error : Cache.Error)
  | missingFile
  | fileNotUtf8

/-- The wording of an error. -/
def LoadError.message : LoadError → String
  | .parse error => error.message
  | .grammar error => error.message
  | .commit error => error.message
  | .cache error => error.message
  | .missingFile => "No such file or directory (os error 2)"
  | .fileNotUtf8 => "stream did not contain valid UTF-8"

namespace Workspace

/-- A workspace without grammars. -/
def empty (options : SearchOptions) : Workspace := ⟨options, #[], []⟩

instance : Inhabited Workspace := ⟨empty default⟩

/-- The grammar with a handle. -/
def grammar? (w : Workspace) (h : Handle) : Option Grammar := w.grammars[h]?

/-- Changes the grammar with a handle. -/
def modify (w : Workspace) (h : Handle) (f : Grammar → Grammar) : Workspace :=
  { w with grammars := w.grammars.modify h f }

/-- The registered grammar of a name. -/
def handle? (w : Workspace) (name : String) : Option Handle := w.registered.lookup name

/-- The registered names in ascending order. -/
def names (w : Workspace) : List String := (w.registered.map Prod.fst).mergeSort fun a b => !(decide (b < a))

/-! ## Adding and removing grammars -/

/-- Takes a grammar in without registering it. -/
def keep (w : Workspace) (g : Grammar) : Handle × Workspace :=
  (w.grammars.size, { w with grammars := w.grammars.push g })

/-- Takes a grammar in and registers it, if its name is free. -/
def register (w : Workspace) (g : Grammar) : Except GrammarError (Handle × Workspace) :=
  if (w.handle? g.name).isSome then .error (.duplicateGrammar g.name)
  else
    let (h, w) := w.keep g
    .ok (h, { w with registered := (g.name, h) :: w.registered })

/-- A grammar whose references to other grammars are looked up here. -/
def linkedGrammar (w : Workspace) (s : Snapshot) : Grammar := .ofSnapshot s w.options true

/-- Makes and registers a grammar without rules. A root is set by its first commit. -/
def create (w : Workspace) (name : String) (root locale : Option String) :
    Except GrammarError (Handle × Workspace) :=
  let g := w.linkedGrammar (.empty name locale)
  w.register (if root.isSome then g.enqueue (.setRoot root) else g)

/-- The grammar that a document describes, with its rules committed. -/
def grammarOf (w : Workspace) (doc : Jsgf.Document) : Except LoadError Grammar :=
  match (w.linkedGrammar (.empty doc.name doc.locale)).addRules doc.rules with
  | .error e => .error (.grammar e)
  | .ok g =>
    match g.commit with
    | (g, .ok _) => .ok g
    | (_, .error e) => .error (.commit e)

/-- Reads a grammar text, and registers the grammar with all of its rules. -/
def load (w : Workspace) (source : String) : Except LoadError (Handle × Workspace) :=
  match Jsgf.Document.parse source with
  | .error e => .error (.parse e)
  | .ok doc =>
    if (w.handle? doc.name).isSome then .error (.grammar (.duplicateGrammar doc.name))
    else
      match w.grammarOf doc with
      | .error e => .error e
      | .ok g => (w.register g).mapError .grammar

/-- Loads a grammar text from the bytes of a file, if there is one. -/
def loadFile (w : Workspace) : (bytes : Option (List UInt8)) → Except LoadError (Handle × Workspace)
  | none => .error .missingFile
  | some bs =>
    match Text.ofUtf8? bs with
    | none => .error .fileNotUtf8
    | some source => w.load source

/-- Registers a cached grammar. -/
def restore (w : Workspace) (bytes : List UInt8) : Except LoadError (Handle × Workspace) :=
  match Cache.decode bytes with
  | .error e => .error (.cache e)
  | .ok s => (w.register (w.linkedGrammar s)).mapError .grammar

/-- Removes a name. The grammar keeps its handle. -/
def delete (w : Workspace) (name : String) : Except GrammarError (Handle × Workspace) :=
  match w.handle? name with
  | none => .error (.unknownGrammar name)
  | some h => .ok (h, { w with registered := w.registered.filter (·.1 != name) })

/-- Removes all names. -/
def clear (w : Workspace) : Workspace := { w with registered := [] }

end Workspace

/-! ## Requests -/

/-- Queues rules one after the other up to the first that is not taken, and commits them if all are taken. -/
def Grammar.fill (g : Grammar) : List Rule → Grammar × Except LoadError Unit
  | [] =>
    match g.commit with
    | (g, .ok _) => (g, .ok ())
    | (g, .error e) => (g, .error (.commit e))
  | r :: rs =>
    match g.addRule r with
    | .error e => (g, .error (.grammar e))
    | .ok g => g.fill rs

/-- What a workspace is asked for. -/
inductive Request where
  | create (name : String) (root locale : Option String)
  | load (source : String)
  | loadFile (bytes : Option (List UInt8))
  | restore (bytes : List UInt8)
  | delete (name : String)

namespace Workspace

/-- Puts a grammar in the place of the one with a handle. -/
def put (w : Workspace) (h : Handle) (g : Grammar) : Workspace := w.modify h fun _ => g

/-- Answers with a grammar, or leaves the workspace as it is. -/
def reply (w : Workspace) : Except GrammarError (Handle × Workspace) → Except LoadError Handle × Workspace
  | .error e => (.error (.grammar e), w)
  | .ok (h, w) => (.ok h, w)

/-- Registers a grammar with a state. -/
def adopt (w : Workspace) (s : Snapshot) : Except LoadError Handle × Workspace :=
  w.reply (w.register (w.linkedGrammar s))

/-- Removes a name. -/
def unregister (w : Workspace) (name : String) : Except LoadError Handle × Workspace := w.reply (w.delete name)

/-- Registers a grammar without rules, and then queues its root. -/
def createInPlace (w : Workspace) (name : String) (root locale : Option String) :
    Except LoadError Handle × Workspace :=
  match w.adopt (.empty name locale) with
  | (.error e, w) => (.error e, w)
  | (.ok h, w) => (.ok h, if root.isSome then w.modify h (·.enqueue (.setRoot root)) else w)

/-- Registers a grammar without rules, and then fills it with those of a text. If this fails, its name is removed. -/
def loadInPlace (w : Workspace) (source : String) : Except LoadError Handle × Workspace :=
  match Jsgf.Document.parse source with
  | .error e => (.error (.parse e), w)
  | .ok doc =>
    match w.createInPlace doc.name none doc.locale with
    | (.error e, w) => (.error e, w)
    | (.ok h, w) =>
      match ((w.grammar? h).getD default).fill doc.rules with
      | (g, .ok ()) => (.ok h, w.put h g)
      | (g, .error e) => (.error e, ((w.put h g).unregister g.name).2)

/-- What a workspace answers, and what becomes of it. -/
def answer (w : Workspace) : Request → Except LoadError Handle × Workspace
  | .create name root locale => w.createInPlace name root locale
  | .load source => w.loadInPlace source
  | .loadFile none => (.error .missingFile, w)
  | .loadFile (some bytes) =>
    match Text.ofUtf8? bytes with
    | none => (.error .fileNotUtf8, w)
    | some source => w.loadInPlace source
  | .restore bytes =>
    match Cache.decode bytes with
    | .error e => (.error (.cache e), w)
    | .ok s => w.adopt s
  | .delete name => w.unregister name

/-! ## Compiling and parsing -/

/-- The committed states of the registered grammars. -/
def snapshots (w : Workspace) : List Snapshot :=
  w.registered.filterMap fun (_, h) => (w.grammar? h).map Grammar.committed

/-- Where the references of a grammar are resolved. -/
def environment (w : Workspace) (g : Grammar) : Environment :=
  ⟨g.committed, if g.linked then w.snapshots else []⟩

/-- The graph of a rule. -/
def compile (w : Workspace) (g : Grammar) (rule : String) : Except GrammarError Graph :=
  (w.environment g).compile rule

/-- The parse of the named rule, or else the first parse of a candidate. -/
def parse (w : Workspace) (g : Grammar) (spoken : List String) (rule : Option String) :
    Except GrammarError (Option Parse) :=
  (w.environment g).parse g.options spoken rule

/-- The parse of the words of a text. -/
def parseText (w : Workspace) (g : Grammar) (text : String) (rule : Option String) :
    Except GrammarError (Option Parse) :=
  w.parse g (Text.words text) rule

/-- The parses of all candidates that have one. -/
def parseAll (w : Workspace) (g : Grammar) (spoken : List String) : Except GrammarError (List Parse) :=
  (w.environment g).parseAll g.options spoken

end Workspace

/-- A grammar of its own from a cached one. -/
def Grammar.decode (bytes : List UInt8) : Except Cache.Error Grammar :=
  (Cache.decode bytes).map fun s => .ofSnapshot s .default false

/-- The bytes of the committed state of a grammar. -/
def Grammar.encode (g : Grammar) (source : Option String) : List UInt8 := Cache.encode g.committed source

end SpeechGrammar
