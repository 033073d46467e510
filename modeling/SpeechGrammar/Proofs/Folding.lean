import SpeechGrammar.Proofs.SearchCalls

/-!
# What is folded

On the way back from the final node, a node where something starts takes together the nodes above the mark of the node
where it stops. Folding has no way to fail: it drops other marks that it meets, and takes the whole stack if the mark is
not there. In a search of the graph of a rule neither happens (**`Environment.compile_folds`**), so a search that
succeeds leaves the tree of the rule alone on the stack.

The nodes that are being visited and the path from there to the end are a walk through the whole graph, which is read as
a tree. In this reading the node where something starts has its own trees, and then comes the node where it stops.
-/

namespace SpeechGrammar

namespace Graph

open Search (SetsOut Tries walk follow)

variable {g : Graph} {spoken : List String} {o : SearchOptions} {way steps later : List (Nat × Nat)} {depth id : Nat}
  {s : SearchState} {ts : List ParseTree}

/-! ## The brackets in a reading -/

/-- Where something starts in steps that are read as trees, there follow steps that are read as the trees in it, and then
the node where it stops. -/
theorem Reads.brackets_of_append (h : g.Reads steps ts) {before after : List (Nat × Nat)} {index : Nat}
    (hsteps : steps = before ++ (id, index) :: after) {start : NodeKind} {stop : Nat} (hk : g.kind? id = some start)
    (hstart : start.stop? = some stop) :
    ∃ inner out last us t later, after = inner ++ (stop, out) :: later ∧ g.kind? stop = some last ∧
      start.closedBy stop last = true ∧ g.Reads inner us ∧ start.gather index us = some t := by
  induction h generalizing before after with
  | nil => simp at hsteps
  | token hk' _ ih | tag hk' _ ih =>
    rcases List.cons_eq_append_iff.mp hsteps with ⟨-, heq⟩ | ⟨before', -, heq⟩
    · cases heq
      rw [hk] at hk'
      cases hk'
      cases hstart
    · exact ih heq
  | @brackets first i stop' out start' last inner us t steps ts hfirst hstop hc hinner hgather _ ihInner ih =>
    rcases List.cons_eq_append_iff.mp hsteps with ⟨-, heq⟩ | ⟨before', -, heq⟩
    · cases heq
      obtain rfl : start' = start := Option.some.inj (hfirst.symm.trans hk)
      obtain rfl : stop' = stop := Option.some.inj ((NodeKind.stop?_of_closedBy hc).symm.trans hstart)
      exact ⟨inner, out, last, us, t, steps, rfl, hstop, hc, hinner, hgather⟩
    · rcases List.append_eq_append_iff.mp heq with ⟨more, rfl, hmore⟩ | ⟨more, rfl, hmore⟩
      · rcases List.cons_eq_append_iff.mp hmore with ⟨-, hend⟩ | ⟨more', -, hlater⟩
        · -- nothing starts where something stops
          cases hend
          rw [hk] at hstop
          cases hstop
          rw [NodeKind.stop?_of_isEnd (NodeKind.isEnd_of_closedBy hc)] at hstart
          cases hstart
        · exact ih hlater
      · rcases List.cons_eq_append_iff.mp hmore with ⟨-, hend⟩ | ⟨more', rfl, hlater⟩
        · cases hend
          rw [hk] at hstop
          cases hstop
          rw [NodeKind.stop?_of_isEnd (NodeKind.isEnd_of_closedBy hc)] at hstart
          cases hstart
        · obtain ⟨inner', out', last', us', t', later, rfl, hfound⟩ := ihInner rfl
          exact ⟨inner', out', last', us', t', _, by rw [hlater, List.append_assoc, List.cons_append], hfound⟩

/-- On a path from a node where something stops, its mark is on top. -/
theorem RestOf.mark {wildcards : Bool} {fs : List Fragment} (h : g.RestOf wildcards steps spoken fs) {stop out : Nat}
    {i : Nat} (hsteps : steps ++ [(g.stop, i)] = (stop, out) :: later) {last : NodeKind}
    (hk : g.kind? stop = some last) (hend : last.isEnd = true) : ∃ below, fs = .mark stop :: below := by
  cases steps with
  | nil =>
    obtain ⟨arcs, visits, id, hp, hnil⟩ := h
    cases hsteps
    cases hp with
    | stop _ => exact ⟨[], rfl⟩
    | step _ _ _ _ => cases hnil
  | cons step steps =>
    obtain ⟨rfl, -⟩ := List.cons.inj hsteps
    obtain ⟨_, below, -, rfl, -⟩ := h.step hk
    exact ⟨below, NodeKind.emit_of_isEnd hend _ _ _⟩

/-! ## Calls that fold -/

/-- No fragment is there before a call. -/
theorem Calls.fragments (h : g.Calls spoken o way depth id s) : s.fragments = [] := by
  induction h with
  | start => rfl
  | @next _ depth _ _ _ _ _ _ _ _ hset htries ih =>
    have hrestored := Search.follow_none_restored (Search.walk_restores depth) htries.failed
    exact hrestored.fragments.trans (hset.fragments.trans ih)

/-- The way to a call and a walk from there are a walk from the start. -/
theorem Calls.walk (h : g.Calls spoken o way depth id s) {later : List (Nat × Nat)} (hw : g.Walk id later) :
    g.Walk g.start (way ++ later) := by
  induction h generalizing later with
  | start => exact hw
  | next _ hset htries ih =>
    rw [← List.append_cons]
    exact ih (.step hset.present htries.arc hw)

/-- In a search for the spoken words, a node of the kind `start` takes together what is above the mark of `stop`, when
`fs` are the fragments: the search has come back to it from the end along one of its arcs. -/
inductive Folds (g : Graph) (spoken : List String) (o : SearchOptions) :
    (start : NodeKind) → (stop : Nat) → List Fragment → Prop
  | intro {way depth id s node t index u stop} :
      g.Calls spoken o way (depth + 1) id s → SetsOut g o id s node t →
      follow (walk g o depth) node.arcs 0 t = (some index, u) → node.kind.stop? = some stop →
      Folds g spoken o node.kind stop u.fragments

end Graph

section

variable {name : String} {body : Pattern} {spoken : List String} {o : SearchOptions}

/-- Where something is folded, the trees in it are on top, as many as it is made of, and then comes its mark. -/
theorem trees_of_folds (hb : body.Ordered) {start : NodeKind} {stop : Nat} {fs : List Fragment}
    (h : (ruleGraph name body).Folds spoken o start stop fs) :
    ∃ ts below index t, fs = ts.map .node ++ .mark stop :: below ∧ start.gather index ts = some t := by
  obtain @⟨way, depth, id, s, node, t, index, u, stop, hcall, hset, hfollow, hstop⟩ := h
  obtain ⟨i, next, v, rfl, harc, hv, hw, -⟩ := Search.follow_some (Search.walk_restores depth) hfollow
  have hempty : v.fragments = [] := hv.fragments.trans (hset.fragments.trans hcall.fragments)
  obtain ⟨arcs, visits, hp⟩ := Search.path_of_walk hw hempty
  generalize hlater : Graph.stepsOf arcs visits = later
  have hwalk := hcall.walk (.step hset.present harc hp.walk)
  obtain ⟨tree, hr⟩ := reads_rule_of_walk hb hwalk
  rw [hlater, List.append_assoc, List.cons_append] at hr
  obtain ⟨inner, out, last, us, t', after, hafter, hk, hc, hinner, hgather⟩ :=
    hr.brackets_of_append rfl (Graph.kind?_of_node hset.present) hstop
  obtain ⟨rest, rfl, hrest⟩ : ∃ rest, later = inner ++ rest ∧
      rest ++ [((ruleGraph name body).stop, 0)] = (stop, out) :: after := by
    obtain ⟨more, rfl, hmore⟩ | ⟨more, rfl, hmore⟩ := List.append_eq_append_iff.mp hafter
    · obtain ⟨rfl, hnil⟩ : more = [] ∧ after = [] := by
        have hlength := congrArg List.length hmore
        simp only [List.length_append, List.length_cons, List.length_nil] at hlength
        exact ⟨List.eq_nil_of_length_eq_zero (by omega), List.eq_nil_of_length_eq_zero (by omega)⟩
      exact ⟨[], by simp, hmore⟩
    · exact ⟨more, rfl, hmore.symm⟩
  obtain ⟨_, _, fs', -, -, hfs, hend⟩ := hinner.restOf ⟨arcs, visits, next, hp, hlater⟩
  obtain ⟨below, rfl⟩ := hend.mark hrest hk (NodeKind.isEnd_of_closedBy hc)
  exact ⟨us, below, _, t', hfs, hgather⟩

end

namespace Environment

open Search (SetsOut walk follow)

variable {env : Environment} {name : String} {g : Graph}

/-- **Folding neither loses nor steals a fragment.** Whenever a search folds what is above a mark, it finds some nodes and
then this mark, and takes these. What stands for a reference or a choice is one node. A search that succeeds leaves the
node of the rule and nothing else, so it returns a parse. -/
theorem compile_folds (h : env.compile name = .ok g) (spoken : List String) (o : SearchOptions) :
    (∀ start stop fs, g.Folds spoken o start stop fs →
      ∃ ts below, fs = ts.map .node ++ .mark stop :: below ∧ Fragment.fold stop fs = (ts, below) ∧
        ((∃ rule, start = .startReference rule stop) ∨ start = .startAlternatives stop → ∃ t, ts = [t])) ∧
    ((g.search spoken o).1 = true →
      ∃ t, (g.search spoken o).2.fragments = [.node (.rule name t)] ∧ g.parse spoken o = some ⟨name, t⟩) := by
  obtain ⟨_, body, -, rfl, hb, -⟩ := compile_represents h
  constructor
  · intro start stop fs hfold
    obtain ⟨ts, below, index, t, rfl, hgather⟩ := trees_of_folds hb hfold
    refine ⟨ts, below, rfl, Fragment.fold_map_node stop below ts, fun hone => ?_⟩
    obtain ⟨_, _, u, -, rfl, -⟩ | ⟨_, u, -, rfl, -⟩ | ⟨_, rfl | rfl, -⟩ := NodeKind.gather_cases hgather
    · exact ⟨u, rfl⟩
    · exact ⟨u, rfl⟩
    · simp at hone
    · simp at hone
  · intro hfound
    obtain ⟨arcs, visits, hp⟩ := Search.path_of_walk (Prod.ext hfound rfl) rfl
    obtain ⟨t, -, -, hfs⟩ := derives_of_path hb hp
    have hfragments : ((ruleGraph name body).search spoken o).2.fragments = [.node (.rule name t)] := hfs
    refine ⟨t, hfragments, ?_⟩
    rw [Graph.parse_eq, if_pos hfound, SearchState.parse?, hfragments]

/-- The state of the search for a switch once the rule has started. -/
def lampsStarted : SearchState := ⟨["please", "please", "turn", "%", "red"], [], 1, false, []⟩

theorem setsOut_lamps : SetsOut lampsGraph default 0 (.initial (lampsWords.map Text.lower))
    ⟨.startReference "switch" 1, [2], false, false⟩ lampsStarted := by
  have hwords : SearchState.initial (lampsWords.map Text.lower) = { lampsStarted with steps := 0 } := by cbv
  exact hwords ▸ ⟨rfl, rfl, .pass rfl, by decide, rfl, rfl, rfl, rfl⟩

theorem follow_lamps :
    let followed := follow (walk lampsGraph default 999) [2] 0 lampsStarted
    (followed.1, followed.2.fragments) = (some 0, [.node lampsParse.body, .mark 1]) := by
  cbv

theorem lamps_compile_folds :
    lamps.compile "switch" = .ok lampsGraph ∧
      lampsGraph.Folds lampsWords default (.startReference "switch" 1) 1 [.node lampsParse.body, .mark 1] ∧
      Fragment.fold 1 [.node lampsParse.body, .mark 1] = ([lampsParse.body], []) ∧
      (lampsGraph.search lampsWords default).1 = true ∧
      ∃ t, (lampsGraph.search lampsWords default).2.fragments = [.node (.rule "switch" t)] ∧
        lampsGraph.parse lampsWords default = some ⟨"switch", t⟩ := by
  have hg : lamps.compile "switch" = .ok lampsGraph := by cbv
  have hfound : (lampsGraph.search lampsWords default).1 = true := by cbv
  have hfold : lampsGraph.Folds lampsWords default (.startReference "switch" 1) 1 [.node lampsParse.body, .mark 1] := by
    obtain ⟨hfollow, hfragments⟩ := Prod.mk.inj follow_lamps
    exact hfragments ▸ .intro .start setsOut_lamps (Prod.ext hfollow rfl) rfl
  obtain ⟨hfolds, hreturns⟩ := compile_folds hg lampsWords default
  obtain ⟨ts, below, hfs, hts, hone⟩ := hfolds _ _ _ hfold
  obtain ⟨t, rfl⟩ := hone (.inl ⟨"switch", rfl⟩)
  obtain ⟨rfl, rfl⟩ : lampsParse.body = t ∧ [] = below := by simpa using hfs
  exact ⟨hg, hfold, hts, hfound, hreturns hfound⟩

end Environment

end SpeechGrammar
