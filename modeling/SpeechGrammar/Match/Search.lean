import SpeechGrammar.Graph.Layout
import SpeechGrammar.Match.Options
import SpeechGrammar.Match.ParseTree

/-!
# Searching for a parse

A search walks through a graph from its start and takes the spoken words at the tokens. At every node the arcs are
tried in order, and the first path that comes to the final node with all words taken is the answer. A node that an arc
leads back to is not entered twice on one path with the same words left, since the loop between took nothing.

The parse tree is built on the way back from the final node. Each node of the path puts its part on top of a stack:
a token or tag its own node, the end of something a mark, and its start takes the nodes above that mark together.
-/

namespace SpeechGrammar

/-- A part of a parse tree under construction. -/
inductive Fragment where
  | node (tree : ParseTree)
  /-- Here ends what the node with this number stops. -/
  | mark (stop : Nat)

namespace Fragment

/-- The nodes above the mark of `stop`, and what lies below it. Other marks are dropped. -/
def fold (stop : Nat) : List Fragment → List ParseTree × List Fragment
  | [] => ([], [])
  | .mark id :: fs => if id = stop then ([], fs) else fold stop fs
  | .node t :: fs => (t :: (fold stop fs).1, (fold stop fs).2)

/-- The only node, or else a sequence of all nodes. -/
def single : List ParseTree → ParseTree
  | [t] => t
  | ts => .sequence ts

end Fragment

/-- Where a search stands. -/
structure SearchState where
  /-- The spoken words that are not taken yet. -/
  rest : List String
  /-- The parts of the parse tree, the leftmost on top. -/
  fragments : List Fragment
  /-- How many nodes have been entered. -/
  steps : Nat
  /-- A limit has been met. -/
  exhausted : Bool
  /-- The loop entries on the path, each with the number of words that were left. -/
  visits : List (Nat × Nat)

namespace SearchState

/-- The state of a search that has not begun. -/
def initial (words : List String) : SearchState := ⟨words, [], 0, false, []⟩

/-- Puts a part of the parse tree on top. -/
def push (s : SearchState) (f : Fragment) : SearchState := { s with fragments := f :: s.fragments }

/-- Takes the nodes above the mark of `stop` together. -/
def close (s : SearchState) (stop : Nat) (combine : List ParseTree → ParseTree) : SearchState :=
  let (ts, fs) := Fragment.fold stop s.fragments
  { s with fragments := .node (combine ts) :: fs }

end SearchState

namespace Search

/-- The spoken words that fit every word of the grammar. -/
def wildcardWords : List String := ["%", "*"]

/-- A spoken word in lower case fits a word of the grammar. -/
def fits (wildcards : Bool) (word spoken : String) : Bool :=
  word == spoken || (wildcards && wildcardWords.contains spoken)

/-- The spoken words after those that fit the words of a token. -/
def consume (wildcards : Bool) : (words spoken : List String) → Option (List String)
  | [], spoken => some spoken
  | _ :: _, [] => none
  | w :: ws, s :: ss => if fits wildcards w s then consume wildcards ws ss else none

/-- Tries the arcs in order, from number `index` on, with all words back after a failure: the number of the first one
that leads to the final node. Once a limit is met no other arc is tried. -/
def follow (walk : Nat → SearchState → Bool × SearchState) :
    (arcs : List Nat) → (index : Nat) → SearchState → Option Nat × SearchState
  | [], _, s => (none, s)
  | next :: arcs, index, s =>
    match walk next s with
    | (true, t) => (some index, t)
    | (false, t) =>
      let t := { t with rest := s.rest }
      if t.exhausted then (none, t) else follow walk arcs (index + 1) t

section

variable (g : Graph) (o : SearchOptions)

/-- What happens at a node, where `walk` goes on from the next one. -/
def visit (walk : Nat → SearchState → Bool × SearchState) (id : Nat) (node : Node) (s : SearchState) :
    Bool × SearchState :=
  if g.isFinal id && s.rest.isEmpty then (true, s.push (.mark id))
  else
    match node.kind with
    | .token text words =>
      match consume o.wildcards words s.rest with
      | none => (false, s)
      | some rest =>
        match follow walk node.arcs 0 { s with rest := rest } with
        | (some _, t) => (true, t.push (.node (.token text)))
        | (none, t) => (false, { t with rest := s.rest })
    | .tag value =>
      match follow walk node.arcs 0 s with
      | (some _, t) => (true, t.push (.node (.tag value)))
      | (none, t) => (false, t)
    | .endReference | .endAlternatives | .endSequence | .endCount =>
      match follow walk node.arcs 0 s with
      | (some _, t) => (true, t.push (.mark id))
      | (none, t) => (false, t)
    | .startReference rule stop =>
      match follow walk node.arcs 0 s with
      | (some _, t) => (true, t.close stop fun ts => .rule rule (Fragment.single ts))
      | (none, t) => (false, t)
    | .startAlternatives stop =>
      match follow walk node.arcs 0 s with
      | (some index, t) => (true, t.close stop fun ts => .alternative index (Fragment.single ts))
      | (none, t) => (false, t)
    | .startSequence stop | .startCount stop =>
      match follow walk node.arcs 0 s with
      | (some _, t) => (true, t.close stop .sequence)
      | (none, t) => (false, t)

/-- Enters a node, unless it is the entry of a loop that took nothing. -/
def enter (walk : Nat → SearchState → Bool × SearchState) (id : Nat) (s : SearchState) : Bool × SearchState :=
  match g.nodes[id]? with
  | none => (false, s)
  | some node =>
    if node.loopEntry then
      let here := (id, s.rest.length)
      if s.visits.contains here then (false, s)
      else
        let (found, t) := visit g o walk id node { s with visits := here :: s.visits }
        (found, { t with visits := t.visits.erase here })
    else visit g o walk id node s

/-- All steps are used up. -/
def outOfSteps (s : SearchState) : Bool := o.maxSteps.any (· ≤ s.steps)

/-- Looks for a path from a node to the final one, with at most so many nodes. -/
def walk : (depth : Nat) → (id : Nat) → SearchState → Bool × SearchState
  | 0, _, s => (false, { s with exhausted := true })
  | depth + 1, id, s =>
    if outOfSteps o s then (false, { s with exhausted := true })
    else enter g o (walk depth) id { s with steps := s.steps + 1 }

end

end Search

/-- The parse on top of the stack. -/
def SearchState.parse? (s : SearchState) : Option Parse :=
  match s.fragments with
  | .node (.rule name body) :: _ => some ⟨name, body⟩
  | _ => none

/-- The first parse of the spoken words, which must all be taken. -/
def Graph.parse (g : Graph) (spoken : List String) (o : SearchOptions) : Option Parse :=
  match Search.walk g o o.maxDepth g.start (.initial (spoken.map Text.lower)) with
  | (true, s) => s.parse?
  | (false, _) => none

end SpeechGrammar
