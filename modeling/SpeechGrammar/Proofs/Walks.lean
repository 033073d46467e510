import SpeechGrammar.Proofs.Language
import SpeechGrammar.Proofs.Paths

/-!
# Walks, and what is read off them

A walk leads along arcs to the final node, whatever words are spoken (`Graph.Walk`). Its nodes may be read as trees
(`Graph.Reads`): a token or tag is a tree of its own, and a node where something starts makes one tree of those read off
the nodes up to the one where it stops. Reading does not look at what a search keeps on its stack.

What reads as trees is bracketed (**`Reads.openAfter_eq`**). The tags, the words and the branches taken in the trees are
those that the walk passes, in order (**`Reads.along_eq`**). And a path that goes along the nodes takes words that fit
the trees, and has these on top of its fragments (**`Reads.restOf`**).
-/

namespace SpeechGrammar

namespace Search

/-- The words, in lower case, fit the spoken ones one for one. -/
def FitsAll (wildcards : Bool) (words spoken : List String) : Prop :=
  List.Forall₂ (fun w s => fits wildcards (Text.lower w) s = true) words spoken

theorem fitsAll_append_iff {wildcards : Bool} {us ws spoken : List String} :
    FitsAll wildcards (us ++ ws) spoken ↔
      ∃ first rest, spoken = first ++ rest ∧ FitsAll wildcards us first ∧ FitsAll wildcards ws rest :=
  forall₂_append_iff

/-- The spoken words that a token of the grammar takes. -/
theorem consume_lowerWords_iff {wildcards : Bool} {text : String} {spoken rest : List String} :
    consume wildcards (Pattern.lowerWords text) spoken = some rest ↔
      ∃ front, spoken = front ++ rest ∧ FitsAll wildcards (Text.words text) front := by
  simp only [consume_eq_some_iff, Pattern.lowerWords, List.forall₂_map_left_iff, FitsAll]

end Search

open Search (FitsAll)

/-! ## Trees and fragments -/

namespace ParseTree

@[simp] theorem tokensAll_singleton (t : ParseTree) : tokensAll [t] = t.tokens := by simp [tokensAll]

end ParseTree

namespace Fragment

/-- Folding takes the trees above the mark. -/
theorem fold_map_node (stop : Nat) (fs : List Fragment) :
    ∀ ts : List ParseTree, fold stop (ts.map .node ++ .mark stop :: fs) = (ts, fs)
  | [] => by simp [fold]
  | t :: ts => by simp [fold, fold_map_node stop fs ts]

end Fragment

/-! ## What nodes start and stop -/

namespace NodeKind

/-- The node where something stops that starts at a node of the kind. -/
def stop? : NodeKind → Option Nat
  | .startReference _ stop | .startAlternatives stop | .startSequence stop | .startCount stop => some stop
  | _ => none

/-- Something stops at a node of the kind. -/
def isEnd : NodeKind → Bool
  | .endReference | .endAlternatives | .endSequence | .endCount => true
  | _ => false

/-- A node of the kind `start` starts what the node `id` of the kind `last` stops. -/
def closedBy (id : Nat) : (start last : NodeKind) → Bool
  | .startReference _ stop, .endReference | .startAlternatives stop, .endAlternatives
  | .startSequence stop, .endSequence | .startCount stop, .endCount => stop == id
  | _, _ => false

/-- The tree that starts at a node of the kind and has the trees in it, where the arc number `index` is taken. -/
def gather (index : Nat) : NodeKind → List ParseTree → Option ParseTree
  | .startReference name _, [t] => some (.rule name t)
  | .startAlternatives _, [t] => some (.alternative index t)
  | .startSequence _, ts | .startCount _, ts => some (.sequence ts)
  | _, _ => none

variable {start last : NodeKind} {id index : Nat}

theorem stop?_of_closedBy (h : start.closedBy id last = true) : start.stop? = some id := by
  cases start <;> cases last <;> simp_all [closedBy, stop?]

theorem isEnd_of_closedBy (h : start.closedBy id last = true) : last.isEnd = true := by
  cases start <;> cases last <;> simp_all [closedBy, isEnd]

theorem stop?_of_isEnd (h : last.isEnd = true) : last.stop? = none := by
  cases last <;> simp_all [isEnd, stop?]

/-- A node where something stops takes no words. -/
theorem take_of_isEnd (h : last.isEnd = true) (wildcards : Bool) (spoken : List String) :
    last.take wildcards spoken = some spoken := by
  cases last <;> first | rfl | cases h

/-- It leaves its mark. -/
theorem emit_of_isEnd (h : last.isEnd = true) (id index : Nat) (fs : List Fragment) :
    last.emit id index fs = .mark id :: fs := by
  cases last <;> first | rfl | cases h

/-- Which trees are made of others: a reference and a choice have one tree in them, a sequence and a repetition any. -/
theorem gather_cases {us : List ParseTree} {t : ParseTree} (h : start.gather index us = some t) :
    (∃ name stop u, start = .startReference name stop ∧ us = [u] ∧ t = .rule name u) ∨
      (∃ stop u, start = .startAlternatives stop ∧ us = [u] ∧ t = .alternative index u) ∨
      ∃ stop, (start = .startSequence stop ∨ start = .startCount stop) ∧ t = .sequence us := by
  unfold gather at h
  split at h
  · cases h
    exact .inl ⟨_, _, _, rfl, rfl, rfl⟩
  · cases h
    exact .inr (.inl ⟨_, _, rfl, rfl, rfl⟩)
  · cases h
    exact .inr (.inr ⟨_, .inl rfl, rfl⟩)
  · cases h
    exact .inr (.inr ⟨_, .inr rfl, rfl⟩)
  · cases h

/-- A node where something starts takes no words. -/
theorem take_of_gather {us : List ParseTree} {t : ParseTree} (h : start.gather index us = some t) (wildcards : Bool)
    (spoken : List String) : start.take wildcards spoken = some spoken := by
  obtain ⟨_, _, _, rfl, -⟩ | ⟨_, _, rfl, -⟩ | ⟨_, rfl | rfl, -⟩ := gather_cases h <;> rfl

/-- It makes one tree of the trees above the mark. -/
theorem emit_of_gather {us : List ParseTree} {t : ParseTree} (hc : start.closedBy id last = true)
    (h : start.gather index us = some t) (first : Nat) (fs : List Fragment) :
    start.emit first index (us.map .node ++ .mark id :: fs) = .node t :: fs := by
  have hfold := Fragment.fold_map_node id fs us
  have hstop := stop?_of_closedBy hc
  obtain ⟨_, _, u, rfl, rfl, rfl⟩ | ⟨_, u, rfl, rfl, rfl⟩ | ⟨_, rfl | rfl, rfl⟩ := gather_cases h <;>
    cases hstop <;> simp only [emit, hfold, Fragment.single]

theorem tokens_of_gather {us : List ParseTree} {t : ParseTree} (h : start.gather index us = some t) :
    t.tokens = ParseTree.tokensAll us := by
  obtain ⟨_, _, u, rfl, rfl, rfl⟩ | ⟨_, u, rfl, rfl, rfl⟩ | ⟨_, -, rfl⟩ := gather_cases h
  · exact (ParseTree.tokensAll_singleton u).symm
  · exact (ParseTree.tokensAll_singleton u).symm
  · rfl

end NodeKind

namespace ParseTree

mutual

/-- The numbers of the branches that were taken, each before those in the branch, from left to right. -/
def choices : ParseTree → List Nat
  | .token _ => []
  | .tag _ => []
  | .sequence items => choicesAll items
  | .alternative index branch => index :: choices branch
  | .rule _ body => choices body

/-- The numbers of the branches that were taken, from left to right. -/
def choicesAll : List ParseTree → List Nat
  | [] => []
  | t :: ts => choices t ++ choicesAll ts

end

end ParseTree

/-! ## Walks and readings -/

namespace Graph

variable (g : Graph)

/-- What happens at a node. -/
def kind? (id : Nat) : Option NodeKind := g.nodes[id]?.map Node.kind

/-- A walk along arcs to the final node, given by the nodes that it leaves and the number of the arc it takes from
each. -/
inductive Walk : (id : Nat) → (steps : List (Nat × Nat)) → Prop
  | stop : Walk g.stop []
  | step {id node index next steps} :
      g.nodes[id]? = some node → node.arcs[index]? = some next → Walk next steps → Walk id ((id, index) :: steps)

/-- What is open after the nodes, the last that was opened first, if `opened` was open before. Where something starts
it is opened. Where something stops it must be what was opened last, and otherwise the nodes are not bracketed. -/
def openAfter : (opened : List NodeKind) → (ids : List Nat) → Option (List NodeKind)
  | opened, [] => some opened
  | opened, id :: ids =>
    match g.kind? id with
    | none => none
    | some kind =>
      if kind.stop?.isSome then openAfter (kind :: opened) ids
      else if kind.isEnd then
        match opened with
        | [] => none
        | start :: opened => if start.closedBy id kind then openAfter opened ids else none
      else openAfter opened ids

/-- The steps of a walk are read as trees. -/
inductive Reads : (steps : List (Nat × Nat)) → List ParseTree → Prop
  | nil : Reads [] []
  | token {id index text steps ts} :
      g.kind? id = some (.token text (Pattern.lowerWords text)) → Reads steps ts →
      Reads ((id, index) :: steps) (.token text :: ts)
  | tag {id index value steps ts} :
      g.kind? id = some (.tag value) → Reads steps ts → Reads ((id, index) :: steps) (.tag value :: ts)
  | brackets {first index stop out start last inner us t steps ts} :
      g.kind? first = some start → g.kind? stop = some last → start.closedBy stop last = true → Reads inner us →
      start.gather index us = some t → Reads steps ts →
      Reads ((first, index) :: (inner ++ (stop, out) :: steps)) (t :: ts)

/-- All that is found at the nodes of the steps, in order. -/
def along {α : Type} (find : NodeKind → (index : Nat) → List α) (steps : List (Nat × Nat)) : List α :=
  steps.flatMap fun (id, index) => ((g.kind? id).map (find · index)).getD []

variable {g} {steps later : List (Nat × Nat)} {ts us : List ParseTree}

/-! ## Walks -/

/-- A walk starts at one node. -/
theorem Walk.unique {id id' : Nat} (h : g.Walk id steps) (h' : g.Walk id' steps) : id = id' := by
  cases h <;> cases h' <;> rfl

/-- A walk goes on from every node but the final one. -/
theorem Walk.step_of_ne {id : Nat} {node : Node} (h : g.Walk id steps) (hid : id ≠ g.stop)
    (hn : g.nodes[id]? = some node) :
    ∃ index next rest, node.arcs[index]? = some next ∧ g.Walk next rest ∧ steps = (id, index) :: rest := by
  cases h with
  | stop => exact absurd rfl hid
  | step hn' ha hw =>
    rw [hn] at hn'
    cases hn'
    exact ⟨_, _, _, ha, hw, rfl⟩

theorem kind?_of_node {id : Nat} {node : Node} (h : g.nodes[id]? = some node) : g.kind? id = some node.kind := by
  rw [kind?, h]
  rfl

/-! ## Reading -/

theorem Reads.append (h : g.Reads steps ts) (h' : g.Reads later us) : g.Reads (steps ++ later) (ts ++ us) := by
  induction h with
  | nil => exact h'
  | token hk _ ih => exact .token hk ih
  | tag hk _ ih => exact .tag hk ih
  | brackets hfirst hstop hc hinner hgather _ _ ih =>
    rw [List.cons_append, List.append_assoc]
    exact .brackets hfirst hstop hc hinner hgather ih

/-- Every tree takes a step. -/
theorem Reads.length_le (h : g.Reads steps ts) : ts.length ≤ steps.length := by
  induction h with
  | nil => exact Nat.le_refl 0
  | token _ _ ih | tag _ _ ih => exact Nat.succ_le_succ ih
  | brackets _ _ _ _ _ _ _ ih =>
    simp only [List.length_cons, List.length_append]
    omega

/-- What is open after some nodes and others. -/
theorem openAfter_append (opened : List NodeKind) (ids ids' : List Nat) :
    g.openAfter opened (ids ++ ids') = (g.openAfter opened ids).bind (g.openAfter · ids') := by
  induction ids generalizing opened with
  | nil => rfl
  | cons id ids ih =>
    simp only [List.cons_append, openAfter]
    repeat' split
    all_goals first | exact ih _ | rfl

/-- **What reads as trees is bracketed**: everything that starts in it stops in it. -/
theorem Reads.openAfter_eq (h : g.Reads steps ts) (opened : List NodeKind) :
    g.openAfter opened (steps.map Prod.fst) = some opened := by
  induction h generalizing opened with
  | nil => rfl
  | token hk _ ih | tag hk _ ih =>
    rw [List.map_cons, openAfter, hk]
    exact ih opened
  | brackets hfirst hstop hc _ _ _ ihInner ih =>
    have hend := NodeKind.isEnd_of_closedBy hc
    rw [List.map_cons, openAfter, hfirst]
    simp only [NodeKind.stop?_of_closedBy hc, Option.isSome_some, ↓reduceIte]
    rw [List.map_append, openAfter_append, ihInner, Option.bind_some, List.map_cons, openAfter, hstop]
    simp only [NodeKind.stop?_of_isEnd hend, Option.isSome_none, Bool.false_eq_true, ↓reduceIte, hend, hc]
    exact ih opened

/-! ## What is passed on the way -/

/-- What is collected from a tree is what is found at the nodes it is read off. -/
structure Collects {α : Type} (find : NodeKind → (index : Nat) → List α) (collect : ParseTree → List α) : Prop where
  token text words index : collect (.token text) = find (.token text words) index
  tag value index : collect (.tag value) = find (.tag value) index
  gather {start index us t} : start.gather index us = some t → collect t = find start index ++ us.flatMap collect
  isEnd {last} (index) : last.isEnd = true → find last index = []

theorem along_nil {α : Type} (find : NodeKind → (index : Nat) → List α) : g.along find [] = [] := rfl

theorem along_cons {α : Type} {find : NodeKind → (index : Nat) → List α} {id : Nat} {kind : NodeKind}
    (h : g.kind? id = some kind) (index : Nat) (steps : List (Nat × Nat)) :
    g.along find ((id, index) :: steps) = find kind index ++ g.along find steps := by
  simp [along, h]

theorem along_append {α : Type} (find : NodeKind → (index : Nat) → List α) (steps later : List (Nat × Nat)) :
    g.along find (steps ++ later) = g.along find steps ++ g.along find later := List.flatMap_append

/-- **What is collected from the trees is what is found on the way**, in the same order. -/
theorem Reads.along_eq {α : Type} {find : NodeKind → (index : Nat) → List α} {collect : ParseTree → List α}
    (hf : Collects find collect) (h : g.Reads steps ts) : ts.flatMap collect = g.along find steps := by
  induction h with
  | nil => rfl
  | token hk _ ih => rw [along_cons hk, List.flatMap_cons, hf.token, ih]
  | tag hk _ ih => rw [along_cons hk, List.flatMap_cons, hf.tag, ih]
  | @brackets first index stop out start last inner us t steps ts hfirst hstop hc _ hgather _ ihInner ih =>
    calc (t :: ts).flatMap collect = find start index ++ (us.flatMap collect ++ ts.flatMap collect) := by
          rw [List.flatMap_cons, hf.gather hgather, List.append_assoc]
      _ = find start index ++ (g.along find inner ++ (find last out ++ g.along find steps)) := by
          rw [ihInner, ih, hf.isEnd out (NodeKind.isEnd_of_closedBy hc), List.nil_append]
      _ = g.along find ((first, index) :: (inner ++ (stop, out) :: steps)) := by
          rw [along_cons hfirst, ← along_cons hstop, ← along_append]

/-! ## Words and fragments on the way -/

/-- The steps of a path: the nodes that it leaves, each with the number of the arc it takes. -/
def stepsOf (arcs : List Nat) (visits : List (Nat × Nat)) : List (Nat × Nat) := (visits.map Prod.fst).zip arcs

variable {wildcards : Bool} {arcs : List Nat} {visits : List (Nat × Nat)} {id : Nat} {spoken : List String}
  {fs : List Fragment}

/-- A path is a walk. -/
theorem Path.walk (h : g.Path wildcards arcs visits id spoken fs) : g.Walk id (stepsOf arcs visits) := by
  induction h with
  | stop _ => exact .stop
  | step hn _ ha _ ih => exact .step hn ha ih

/-- The rest of a path after some of its steps: the words that are left, and the fragments so far. -/
def RestOf (g : Graph) (wildcards : Bool) (steps : List (Nat × Nat)) (spoken : List String) (fs : List Fragment) : Prop :=
  ∃ arcs visits id, g.Path wildcards arcs visits id spoken fs ∧ stepsOf arcs visits = steps

/-- A path that takes a step. -/
theorem RestOf.step {index : Nat} {kind : NodeKind} (h : g.RestOf wildcards ((id, index) :: steps) spoken fs)
    (hk : g.kind? id = some kind) :
    ∃ rest fs', kind.take wildcards spoken = some rest ∧ fs = kind.emit id index fs' ∧
      g.RestOf wildcards steps rest fs' := by
  obtain ⟨arcs, visits, start, hp, hsteps⟩ := h
  cases hp with
  | stop _ => cases hsteps
  | step hn ht ha hp' =>
    obtain ⟨hstep, hlater⟩ := List.cons_eq_cons.mp hsteps
    obtain ⟨rfl, rfl⟩ := Prod.mk.inj hstep
    rw [kind?_of_node hn, Option.some.injEq] at hk
    subst hk
    exact ⟨_, _, ht, rfl, _, _, _, hp', hlater⟩

/-- **A path along steps that read as trees** takes words that fit these trees, and has them on top of its fragments. -/
theorem Reads.restOf (h : g.Reads steps ts) : ∀ {later : List (Nat × Nat)} {spoken : List String}
    {fs : List Fragment}, g.RestOf wildcards (steps ++ later) spoken fs →
    ∃ front rest fs', spoken = front ++ rest ∧ FitsAll wildcards (ParseTree.tokensAll ts) front ∧
      fs = ts.map .node ++ fs' ∧ g.RestOf wildcards later rest fs' := by
  induction h with
  | nil => exact fun hp => ⟨[], _, _, rfl, .nil, rfl, hp⟩
  | token hk _ ih =>
    intro later spoken fs hpath
    obtain ⟨left, gs, htake, rfl, hnext⟩ := hpath.step hk
    obtain ⟨first, rfl, hfirst⟩ := Search.consume_lowerWords_iff.mp htake
    obtain ⟨front, rest, fs', rfl, hfront, rfl, hrest⟩ := ih hnext
    exact ⟨first ++ front, rest, fs', by simp, Search.fitsAll_append_iff.mpr ⟨_, _, rfl, hfirst, hfront⟩, rfl, hrest⟩
  | tag hk _ ih =>
    intro later spoken fs hpath
    obtain ⟨left, gs, htake, rfl, hnext⟩ := hpath.step hk
    obtain rfl : spoken = left := Option.some.inj htake
    obtain ⟨front, rest, fs', rfl, hfront, rfl, hrest⟩ := ih hnext
    exact ⟨front, rest, fs', rfl, hfront, rfl, hrest⟩
  | @brackets first index stop out start last inner us t steps ts hfirst hstop hc _ hgather _ ihInner ih =>
    intro later spoken fs hpath
    have hisEnd := NodeKind.isEnd_of_closedBy hc
    have hsteps : (first, index) :: (inner ++ (stop, out) :: steps) ++ later =
        (first, index) :: (inner ++ (stop, out) :: (steps ++ later)) := by simp
    rw [hsteps] at hpath
    obtain ⟨left, gs, htake, rfl, hinner⟩ := hpath.step hfirst
    obtain rfl : spoken = left := Option.some.inj ((NodeKind.take_of_gather hgather _ _).symm.trans htake)
    obtain ⟨front, left', gs', rfl, hfront, rfl, hend⟩ := ihInner hinner
    obtain ⟨left'', fs', htake', rfl, hnext⟩ := hend.step hstop
    obtain rfl : left' = left'' := Option.some.inj ((NodeKind.take_of_isEnd hisEnd _ _).symm.trans htake')
    obtain ⟨front', rest, fs'', rfl, hfront', rfl, hrest⟩ := ih hnext
    refine ⟨front ++ front', rest, fs'', by simp, ?_, ?_, hrest⟩
    · rw [ParseTree.tokensAll, NodeKind.tokens_of_gather hgather]
      exact Search.fitsAll_append_iff.mpr ⟨_, _, rfl, hfront, hfront'⟩
    · rw [NodeKind.emit_of_isEnd hisEnd, NodeKind.emit_of_gather hc hgather]
      rfl

end Graph

end SpeechGrammar
