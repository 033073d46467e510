import Mathlib.Data.List.Forall2
import SpeechGrammar.Match.Search

/-!
# Paths through a graph

A path leads along arcs to the final node and takes all spoken words at the tokens on its way (`Graph.Path`). It is
told by the numbers of the arcs it takes. Read from its end, it gives the fragments that a search which follows it has
on its stack.

From every node that a path visits there is a path, with the words that are left there (**`Path.of_mem_visits`**). So a
path that comes to a node twice with the same words left can be made shorter.
-/

namespace SpeechGrammar

namespace Search

/-- A token takes words that fit its own, one for one. -/
theorem consume_eq_some_iff {wildcards : Bool} : ∀ {words spoken rest : List String},
    consume wildcards words spoken = some rest ↔
      ∃ front, spoken = front ++ rest ∧ List.Forall₂ (fun w s => fits wildcards w s = true) words front
  | [], spoken, rest => by
    simp only [consume, Option.some.injEq]
    refine ⟨fun h => ⟨[], h, .nil⟩, ?_⟩
    rintro ⟨front, rfl, h⟩
    cases h
    rfl
  | w :: ws, [], rest => by
    simp only [consume, reduceCtorEq, false_iff]
    rintro ⟨front, h, hf⟩
    cases hf
    simp at h
  | w :: ws, s :: ss, rest => by
    rw [consume]
    split
    · rename_i hws
      rw [consume_eq_some_iff]
      constructor
      · rintro ⟨front, rfl, h⟩
        exact ⟨s :: front, rfl, .cons hws h⟩
      · rintro ⟨front, h, hf⟩
        cases hf with
        | cons _ hf =>
          obtain ⟨rfl, rfl⟩ := List.cons_eq_cons.mp h
          exact ⟨_, rfl, hf⟩
    · rename_i hws
      refine ⟨fun h => (nomatch h), ?_⟩
      rintro ⟨front, h, hf⟩
      cases hf with
      | cons hf _ =>
        obtain ⟨rfl, -⟩ := List.cons_eq_cons.mp h
        exact absurd hf hws

end Search

namespace NodeKind

/-- The spoken words after those that a node takes. Only a token takes any. -/
def take (wildcards : Bool) : NodeKind → List String → Option (List String)
  | .token _ words, spoken => Search.consume wildcards words spoken
  | _, spoken => some spoken

/-- The fragments from the node `id` on, where `fs` are those after its arc number `index`. -/
def emit (id index : Nat) : NodeKind → (fs : List Fragment) → List Fragment
  | .token text _, fs => .node (.token text) :: fs
  | .tag value, fs => .node (.tag value) :: fs
  | .startReference rule stop, fs =>
    .node (.rule rule (Fragment.single (Fragment.fold stop fs).1)) :: (Fragment.fold stop fs).2
  | .startAlternatives stop, fs =>
    .node (.alternative index (Fragment.single (Fragment.fold stop fs).1)) :: (Fragment.fold stop fs).2
  | .startSequence stop, fs | .startCount stop, fs =>
    .node (.sequence (Fragment.fold stop fs).1) :: (Fragment.fold stop fs).2
  | .endReference, fs | .endAlternatives, fs | .endSequence, fs | .endCount, fs => .mark id :: fs

/-- What a node leaves are the last of the words it finds. -/
theorem suffix_of_take {wildcards : Bool} {kind : NodeKind} {spoken rest : List String}
    (h : kind.take wildcards spoken = some rest) : rest <:+ spoken := by
  cases kind with
  | token text words =>
    obtain ⟨front, rfl, -⟩ := Search.consume_eq_some_iff.mp h
    exact List.suffix_append front rest
  | _ => cases h; exact List.suffix_rfl

end NodeKind

namespace Graph

/-- There is a path from a node to the final one that takes the spoken words. It takes the arcs with the numbers
`arcs`, and `visits` are the nodes on it with the number of words left at each. -/
inductive Path (g : Graph) (wildcards : Bool) :
    (arcs : List Nat) → (visits : List (Nat × Nat)) → (id : Nat) → (spoken : List String) → List Fragment → Prop
  | stop {node} : g.nodes[g.stop]? = some node → Path g wildcards [] [(g.stop, 0)] g.stop [] [.mark g.stop]
  | step {id node spoken rest index next arcs visits fs} :
      g.nodes[id]? = some node → node.kind.take wildcards spoken = some rest → node.arcs[index]? = some next →
      Path g wildcards arcs visits next rest fs →
      Path g wildcards (index :: arcs) ((id, spoken.length) :: visits) id spoken (node.kind.emit id index fs)

variable {g : Graph} {wildcards : Bool} {arcs : List Nat} {visits : List (Nat × Nat)} {id : Nat}
  {spoken : List String} {fs : List Fragment}

/-- A path visits its first node. -/
theorem Path.head_mem_visits (h : g.Path wildcards arcs visits id spoken fs) : (id, spoken.length) ∈ visits := by
  cases h <;> exact List.mem_cons_self

/-- A path starts at a node of the graph. -/
theorem Path.exists_node (h : g.Path wildcards arcs visits id spoken fs) : ∃ node, g.nodes[id]? = some node := by
  cases h with
  | stop hn | step hn => exact ⟨_, hn⟩

/-- A path from a node other than the final one goes along an arc of the node. -/
theorem Path.step_of_ne {node : Node} (h : g.Path wildcards arcs visits id spoken fs) (hid : id ≠ g.stop)
    (hn : g.nodes[id]? = some node) :
    ∃ rest index next arcs' visits' fs', node.kind.take wildcards spoken = some rest ∧ node.arcs[index]? = some next ∧
      g.Path wildcards arcs' visits' next rest fs' ∧ visits.length = visits'.length + 1 ∧
      fs = node.kind.emit id index fs' := by
  cases h with
  | stop _ => exact absurd rfl hid
  | step hn' ht ha hp =>
    rw [hn] at hn'
    cases hn'
    exact ⟨_, _, _, _, _, _, ht, ha, hp, rfl, rfl⟩

/-- From every node on a path there is a path, with the words that are left there. -/
theorem Path.of_mem_visits (h : g.Path wildcards arcs visits id spoken fs) {i n : Nat} (hmem : (i, n) ∈ visits) :
    ∃ arcs' visits' rest fs', g.Path wildcards arcs' visits' i rest fs' ∧ rest <:+ spoken ∧ rest.length = n ∧
      visits' <:+ visits := by
  induction h with
  | stop hn =>
    obtain ⟨rfl, rfl⟩ := Prod.mk.inj (List.mem_singleton.mp hmem)
    exact ⟨_, _, _, _, .stop hn, List.suffix_rfl, rfl, List.suffix_rfl⟩
  | step hn ht ha hp ih =>
    rcases List.mem_cons.mp hmem with heq | hmem
    · obtain ⟨rfl, rfl⟩ := Prod.mk.inj heq
      exact ⟨_, _, _, _, .step hn ht ha hp, List.suffix_rfl, rfl, List.suffix_rfl⟩
    · obtain ⟨arcs', visits', rest', fs', hp', hrest, hlen, hsuf⟩ := ih hmem
      exact ⟨arcs', visits', rest', fs', hp', hrest.trans (NodeKind.suffix_of_take ht), hlen,
        hsuf.trans (List.suffix_cons _ _)⟩

end Graph

end SpeechGrammar
