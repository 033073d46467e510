import SpeechGrammar.Proofs.LoopEntries
import SpeechGrammar.Proofs.Recognition

/-!
# Graphs are bracketed

The numbers that the nodes of a layout mention, in their arcs and as the nodes where something stops, are those of nodes
of the graph (**`Pattern.within_layout`**), so a search never leaves it.

Nodes where something starts and nodes where it stops are the brackets of a walk. A walk through the graph of a rule from
the start to the end is read as a tree, however often it goes round a loop or round a repetition, and so its brackets are
balanced (**`Environment.compile_bracketed`**).
-/

namespace SpeechGrammar

/-! ## The numbers that nodes mention -/

/-- All nodes that the node mentions have numbers below the bound. -/
structure Node.Within (bound : Nat) (node : Node) : Prop where
  arcs : ∀ next ∈ node.arcs, next < bound
  stop : ∀ id, node.kind.stop? = some id → id < bound

namespace Pattern

variable {bound : Nat}

/-- The two ends of something that starts at `base` and stops at the next node, and the nodes in it. -/
theorem within_ends (base : Nat) {kind last : NodeKind} {arcs out : List Nat} {loopEntry final : Bool}
    {nodes : List Node} (hc : kind.closedBy (base + 1) last = true) (hbase : base + 1 < bound) (harcs : ∀ next ∈ arcs, next < bound)
    (hout : ∀ next ∈ out, next < bound) (hnodes : ∀ node ∈ nodes, node.Within bound) :
    ∀ node ∈ ⟨kind, arcs, loopEntry, false⟩ :: ⟨last, out, false, final⟩ :: nodes, node.Within bound := by
  have hfirst : Node.Within bound ⟨kind, arcs, loopEntry, false⟩ := by
    refine ⟨harcs, fun id hid => ?_⟩
    obtain rfl : base + 1 = id := Option.some.inj ((NodeKind.stop?_of_closedBy hc).symm.trans hid)
    exact hbase
  have hlast : Node.Within bound ⟨last, out, false, final⟩ := by
    refine ⟨hout, fun id hid => ?_⟩
    cases (NodeKind.stop?_of_isEnd (NodeKind.isEnd_of_closedBy hc)).symm.trans hid
  exact List.forall_mem_cons.mpr ⟨hfirst, List.forall_mem_cons.mpr ⟨hlast, hnodes⟩⟩

/-- Copies of a body, if this holds of the body wherever it is laid out. -/
theorem within_layoutCopies {body : Nat → List Nat → Bool → List Node} {size min stop : Nat} {unbounded : Bool}
    (hsize : 0 < size) (hbody : ∀ base out loopEntry, base + size ≤ bound → (∀ next ∈ out, next < bound) →
      ∀ node ∈ body base out loopEntry, node.Within bound) (hstop : stop < bound) :
    ∀ left done base, base + left * size ≤ bound →
      ∀ node ∈ layoutCopies body size min stop unbounded left done base, node.Within bound
  | 0, _, _, _ => List.forall_mem_nil _
  | 1, _, base, hbase => by
    rw [Nat.one_mul] at hbase
    refine hbody base _ _ hbase fun next hnext => ?_
    cases unbounded with
    | false => rwa [List.mem_singleton.mp hnext]
    | true =>
      rcases List.mem_pair.mp hnext with rfl | rfl
      · omega
      · exact hstop
  | left + 2, done, base, hbase => by
    have hroom : base + size + (left + 1) * size ≤ bound := by
      rw [Nat.succ_mul] at hbase
      omega
    have hnext : base + size < bound := by
      have : 0 < (left + 1) * size := Nat.mul_pos (Nat.succ_pos left) hsize
      omega
    refine List.forall_mem_append.mpr ⟨hbody base _ _ (by omega) fun next hmem => ?_,
      within_layoutCopies hsize hbody hstop (left + 1) (done + 1) (base + size) hroom⟩
    rcases List.mem_cons.mp hmem with rfl | hmem
    · exact hnext
    · rwa [(mem_bypass.mp hmem).2]

mutual

/-- **The nodes of a layout mention nodes of the graph**, if the layout fits in it and its arcs lead to nodes of it. -/
theorem within_layout : ∀ (p : Pattern) (base : Nat) (out : List Nat) (loopEntry : Bool), base + p.size ≤ bound →
    (∀ next ∈ out, next < bound) → ∀ node ∈ p.layout base out loopEntry, node.Within bound
  | .token _, _, _, _, _, hout | .tag _, _, _, _, _, hout => by
    refine List.forall_mem_singleton.mpr ⟨hout, fun id hid => ?_⟩
    cases hid
  | .rule _ body, base, _, _, hbase, hout => by
    have hpos := body.size_pos
    rw [size] at hbase
    refine within_ends base (by simp [NodeKind.closedBy]) (by omega) (List.forall_mem_singleton.mpr (by omega)) hout ?_
    exact within_layout body (base + 2) _ _ (by omega) (List.forall_mem_singleton.mpr (by omega))
  | .sequence items, base, _, _, hbase, hout => by
    rw [size] at hbase
    refine within_ends base (by simp [NodeKind.closedBy]) (by omega) (List.forall_mem_singleton.mpr ?_) hout
      (within_layoutItems items (base + 2) (base + 1) (by omega) (by omega))
    cases items with
    | nil => simp only [List.isEmpty_nil, ↓reduceIte]; omega
    | cons p ps =>
      have hpos := p.size_pos
      rw [sizeAll] at hbase
      simp only [List.isEmpty_cons, Bool.false_eq_true, ↓reduceIte]
      omega
  | .alternatives branches, base, _, _, hbase, hout => by
    rw [size] at hbase
    refine within_ends base (by simp [NodeKind.closedBy]) (by omega) (fun next hnext => ?_) hout
      (within_layoutBranches branches (base + 2) (base + 1) (by omega) (by omega))
    have := bounds_of_mem_entries hnext
    omega
  | .count body min max, base, _, _, hbase, hout => by
    rw [size] at hbase
    refine within_ends base (by simp [NodeKind.closedBy]) (by omega) (fun next hnext => ?_) hout
      (within_layoutCopies body.size_pos (within_layout body) (by omega) _ 0 (base + 2) (by omega))
    rcases mem_countArcs.mp hnext with ⟨rfl, hcopies⟩ | ⟨rfl, -⟩
    · have := Nat.mul_pos (Nat.pos_of_ne_zero hcopies) body.size_pos
      omega
    · omega

theorem within_layoutItems : ∀ (items : List Pattern) (base stop : Nat), base + sizeAll items ≤ bound →
    stop < bound → ∀ node ∈ layoutItems items base stop, node.Within bound
  | [], _, _, _, _ => List.forall_mem_nil _
  | p :: ps, base, stop, hbase, hstop => by
    rw [sizeAll] at hbase
    refine List.forall_mem_append.mpr ⟨within_layout p base _ _ (by omega) (List.forall_mem_singleton.mpr ?_),
      within_layoutItems ps (base + p.size) stop (by omega) hstop⟩
    cases ps with
    | nil => exact hstop
    | cons q qs =>
      have hpos := q.size_pos
      rw [sizeAll] at hbase
      simp only [List.isEmpty_cons, Bool.false_eq_true, ↓reduceIte]
      omega

theorem within_layoutBranches : ∀ (branches : List Pattern) (base stop : Nat), base + sizeAll branches ≤ bound →
    stop < bound → ∀ node ∈ layoutBranches branches base stop, node.Within bound
  | [], _, _, _, _ => List.forall_mem_nil _
  | p :: ps, base, stop, hbase, hstop => by
    rw [sizeAll] at hbase
    exact List.forall_mem_append.mpr ⟨within_layout p base _ _ (by omega) (List.forall_mem_singleton.mpr hstop),
      within_layoutBranches ps (base + p.size) stop (by omega) hstop⟩

end

end Pattern

/-! ## Walks by their nodes -/

namespace Graph

variable {g : Graph}

/-- Nodes that arcs lead through, up to the final node, are those of a walk. -/
theorem exists_walk_of_isChain : ∀ {ids : List Nat} {id : Nat}, List.IsChain g.Arc (id :: ids) →
    (id :: ids).getLast? = some g.stop → ∃ steps, g.Walk id steps ∧ id :: ids = steps.map Prod.fst ++ [g.stop]
  | [], id, _, hlast => by
    obtain rfl : id = g.stop := Option.some.inj hlast
    exact ⟨[], .stop, rfl⟩
  | next :: ids, id, h, hlast => by
    obtain ⟨⟨node, hn, hnext⟩, hlater⟩ := List.isChain_cons_cons.mp h
    obtain ⟨index, hindex⟩ := List.mem_iff_getElem?.mp hnext
    rw [List.getLast?_cons_cons] at hlast
    obtain ⟨steps, hw, hids⟩ := exists_walk_of_isChain hlater hlast
    exact ⟨(id, index) :: steps, .step hn hindex hw, by rw [hids]; rfl⟩

end Graph

section

variable {name : String} {body : Pattern}

/-- The whole graph of a rule is in brackets, so all that a walk opens is closed at its end. -/
theorem openAfter_of_walk (hb : body.Ordered) {steps : List (Nat × Nat)}
    (hw : (ruleGraph name body).Walk (ruleGraph name body).start steps) :
    (ruleGraph name body).openAfter [] (steps.map Prod.fst ++ [(ruleGraph name body).stop]) = some [] := by
  obtain ⟨t, hreads⟩ := reads_rule_of_walk hb hw
  have hopen := hreads.openAfter_eq []
  rwa [List.map_append] at hopen

end

namespace Environment

variable {env : Environment} {name : String} {g : Graph}

/-- The nodes of the graph of a rule mention nodes of the graph. -/
theorem within_of_compile (h : env.compile name = .ok g) {id : Nat} {node : Node} (hn : g.nodes[id]? = some node) :
    node.Within g.nodes.size := by
  obtain ⟨body, -, rfl⟩ := ok_of_map_eq_ok h
  have hsize : (ruleGraph name body).nodes.size = body.size + 2 := body.length_layoutRule name
  rw [ruleGraph, List.getElem?_toArray, Pattern.layoutRule_eq] at hn
  rw [hsize]
  refine Pattern.within_ends 0 rfl (by omega) ?_ (List.forall_mem_nil _) ?_ node (List.mem_of_getElem? hn)
  · have hpos := body.size_pos
    exact List.forall_mem_singleton.mpr (by omega)
  · exact body.within_layout 2 [1] false (by omega) (List.forall_mem_singleton.mpr (by omega))

/-- **Graphs are bracketed.** The nodes of the graph of a rule mention only nodes of the graph. The end of the rule is the
only final node, and no arc leads out of it. Along every walk from the start to the end, a node where something stops
closes what was opened last of all that is still open: it is of the same kind, and it is the node recorded where this was
opened. At the end nothing is open. -/
theorem compile_bracketed (h : env.compile name = .ok g) :
    (∀ (id : Nat) (node : Node), g.nodes[id]? = some node →
      (∀ next ∈ node.arcs, next < g.nodes.size) ∧ ∀ last, node.kind.stop? = some last → last < g.nodes.size) ∧
      (∀ id, g.isFinal id = true ↔ id = g.stop) ∧
      (∃ node, g.nodes[g.stop]? = some node ∧ node.arcs = []) ∧
      ∀ ids, List.IsChain g.Arc ids → ids.head? = some g.start → ids.getLast? = some g.stop →
        g.openAfter [] ids = some [] := by
  refine ⟨fun id node hn => ?_, g.final_iff, ?_, fun ids hchain hstart hlast => ?_⟩
  · have hwithin := within_of_compile h hn
    exact ⟨hwithin.arcs, hwithin.stop⟩
  · obtain ⟨_, body, -, rfl, -⟩ := compile_represents h
    exact ⟨_, (ruleGraph_holds name body).tail.head, rfl⟩
  · obtain ⟨_, body, -, rfl, hb, -⟩ := compile_represents h
    obtain ⟨id, ids, rfl⟩ := List.exists_cons_of_ne_nil (List.ne_nil_of_mem (List.mem_of_mem_head? hstart))
    obtain rfl : id = (ruleGraph name body).start := Option.some.inj hstart
    obtain ⟨steps, hw, hids⟩ := Graph.exists_walk_of_isChain hchain hlast
    rw [hids]
    exact openAfter_of_walk hb hw

/-- A walk that goes round the loop twice: first with one copy of the inner repetition, then with none. -/
def lampsWalk : List Nat :=
  [0, 2, 4, 6, 8, 10, 12, 13, 11, 9, 7, 6, 8, 9, 7, 5, 18, 19, 21, 24, 22, 20, 3, 1]

theorem lamps_compile_bracketed :
    lamps.compile "switch" = .ok lampsGraph ∧ List.IsChain lampsGraph.Arc lampsWalk ∧
      lampsGraph.openAfter [] (lampsWalk.take 8) = some
        [.startSequence 11, .startCount 9, .startReference "polite" 7, .startCount 5, .startSequence 3,
          .startReference "switch" 1] ∧
      lampsGraph.openAfter [] lampsWalk = some [] := by
  have hg : lamps.compile "switch" = .ok lampsGraph := by cbv
  have hchain : List.IsChain lampsGraph.Arc lampsWalk := by decide +kernel
  exact ⟨hg, hchain, by decide +kernel, (compile_bracketed hg).2.2.2 lampsWalk hchain rfl rfl⟩

end Environment

end SpeechGrammar
