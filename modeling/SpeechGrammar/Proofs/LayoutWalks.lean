import SpeechGrammar.Proofs.Inlining
import SpeechGrammar.Proofs.Walks

/-!
# Walks through the layout of a pattern

The layout of a pattern is a part of a graph. A walk that enters it at its first node takes steps that are read as one of
the trees of the pattern, and leaves along an arc of the last node (`Pattern.Readable`). This is shown for each kind of
pattern from the patterns in it, and holds of all patterns whose bounds are in order (**`readable_of_ordered`**).

The loop of a repetition without an upper bound makes a walk through it as long as it likes. The number of steps that
are left goes down with every copy that is passed.
-/

namespace SpeechGrammar

/-! ## Parts of a graph -/

namespace Graph

/-- The nodes stand in the graph, numbered from `base` on. -/
def Holds (g : Graph) (base : Nat) (nodes : List Node) : Prop :=
  ∀ i node, nodes[i]? = some node → g.nodes[base + i]? = some node

variable {g : Graph} {base : Nat}

theorem Holds.head {node : Node} {nodes : List Node} (h : g.Holds base (node :: nodes)) : g.nodes[base]? = some node :=
  h 0 node rfl

theorem Holds.tail {node : Node} {nodes : List Node} (h : g.Holds base (node :: nodes)) : g.Holds (base + 1) nodes := by
  intro i n hi
  rw [Nat.add_assoc, Nat.add_comm 1 i]
  exact h (i + 1) n (by simpa using hi)

theorem Holds.left {ns ms : List Node} (h : g.Holds base (ns ++ ms)) : g.Holds base ns := by
  intro i n hi
  have hlt : i < ns.length := (List.getElem?_eq_some_iff.mp hi).1
  exact h i n (by rw [List.getElem?_append_left hlt]; exact hi)

theorem Holds.right {ns ms : List Node} (h : g.Holds base (ns ++ ms)) : g.Holds (base + ns.length) ms := by
  intro i n hi
  rw [Nat.add_assoc]
  exact h (ns.length + i) n (by rw [List.getElem?_append_right (Nat.le_add_right _ _)]; simpa using hi)

/-- The final node is the second one. -/
theorem ne_stop {id : Nat} (h : 2 ≤ id) : id ≠ g.stop := by
  show id ≠ 1
  omega

variable {steps : List (Nat × Nat)} {ts us : List ParseTree} {out : List Nat}

/-- A walk first takes steps that are read as the trees, and then goes on with one of the nodes `out`. -/
def ReadsTo (g : Graph) (steps : List (Nat × Nat)) (ts : List ParseTree) (out : List Nat) : Prop :=
  ∃ front rest next, steps = front ++ rest ∧ g.Reads front ts ∧ next ∈ out ∧ g.Walk next rest

/-- A walk that has passed nothing yet. -/
theorem ReadsTo.nil {id : Nat} (h : g.Walk id steps) (hid : id ∈ out) : g.ReadsTo steps [] out :=
  ⟨[], steps, id, rfl, .nil, hid, h⟩

/-- First some trees, and then others. -/
theorem ReadsTo.trans {mid : List Nat} {P : List ParseTree → Prop} (h : g.ReadsTo steps ts mid)
    (hmid : ∀ next ∈ mid, ∀ rest, g.Walk next rest → rest.length + ts.length ≤ steps.length →
      ∃ us, P us ∧ g.ReadsTo rest us out) :
    ∃ us, P us ∧ g.ReadsTo steps (ts ++ us) out := by
  obtain ⟨front, rest, next, rfl, hfront, hnext, hw⟩ := h
  have hlength : rest.length + ts.length ≤ (front ++ rest).length := by
    have := hfront.length_le
    rw [List.length_append]
    omega
  obtain ⟨us, hus, front', rest', next', rfl, hfront', hnext', hw'⟩ := hmid next hnext rest hw hlength
  exact ⟨us, hus, front ++ front', rest', next', by simp, hfront.append hfront', hnext', hw'⟩

/-- A walk through something that starts at `base` and stops at the next node, if it is known how a walk between these
two nodes goes. -/
theorem readsTo_of_brackets {base : Nat} {kind last : NodeKind} {arcs : List Nat} {loopEntry : Bool}
    (hc : kind.closedBy (base + 1) last = true) (hbase : 2 ≤ base)
    (hstart : g.nodes[base]? = some ⟨kind, arcs, loopEntry, false⟩)
    (hstop : g.nodes[base + 1]? = some ⟨last, out, false, false⟩)
    {P : ParseTree → Prop}
    (inner : ∀ index next, arcs[index]? = some next → ∀ steps, g.Walk next steps →
      ∃ us t, kind.gather index us = some t ∧ P t ∧ g.ReadsTo steps us [base + 1])
    (hw : g.Walk base steps) : ∃ t, P t ∧ g.ReadsTo steps [t] out := by
  have hne (i : Nat) : base + i ≠ g.stop := Graph.ne_stop (Nat.le_add_right_of_le hbase)
  obtain ⟨index, next, steps', ha, hw', rfl⟩ := hw.step_of_ne (hne 0) hstart
  obtain ⟨us, t, hgather, ht, front, rest, id, rfl, hfront, hid, hw''⟩ := inner index next ha steps' hw'
  obtain rfl : id = base + 1 := List.mem_singleton.mp hid
  obtain ⟨index', next', rest', ha', hw''', rfl⟩ := hw''.step_of_ne (hne 1) hstop
  refine ⟨t, ht, (base, index) :: (front ++ [(base + 1, index')]), rest', next', by simp, ?_,
    List.mem_of_getElem? ha', hw'''⟩
  exact .brackets (kind?_of_node hstart) (kind?_of_node hstop) hc hfront hgather .nil

end Graph

/-- The graph of a rule has the nodes of its layout. -/
theorem ruleGraph_holds (name : String) (body : Pattern) :
    (ruleGraph name body).Holds 0
      (⟨.startReference name 1, [2], false, false⟩ :: ⟨.endReference, [], false, true⟩ :: body.layout 2 [1] false) := by
  intro i node hi
  rw [← Pattern.layoutRule_eq] at hi
  simpa [ruleGraph] using hi

namespace Pattern

/-- A walk that enters the layout of the pattern takes steps that are read as one of its trees, and goes on with one of
the arcs that lead out. -/
def Readable (g : Graph) (p : Pattern) : Prop :=
  ∀ base out loopEntry, 2 ≤ base → g.Holds base (p.layout base out loopEntry) → ∀ steps, g.Walk base steps →
    ∃ t, p.Derives t ∧ g.ReadsTo steps [t] out

section

variable {g : Graph}

theorem readable_token (text : String) : Readable g (.token text) := by
  intro base out loopEntry hbase hg steps hw
  obtain ⟨index, next, rest, ha, hw', rfl⟩ := hw.step_of_ne (Graph.ne_stop hbase) hg.head
  exact ⟨_, .token, [(base, index)], rest, next, rfl, .token (Graph.kind?_of_node hg.head) .nil,
    List.mem_of_getElem? ha, hw'⟩

theorem readable_tag (value : String) : Readable g (.tag value) := by
  intro base out loopEntry hbase hg steps hw
  obtain ⟨index, next, rest, ha, hw', rfl⟩ := hw.step_of_ne (Graph.ne_stop hbase) hg.head
  exact ⟨_, .tag, [(base, index)], rest, next, rfl, .tag (Graph.kind?_of_node hg.head) .nil,
    List.mem_of_getElem? ha, hw'⟩

theorem readable_rule (name : String) {body : Pattern} (hr : Readable g body) : Readable g (.rule name body) := by
  intro base out loopEntry hbase hg steps hw
  refine Graph.readsTo_of_brackets (by simp [NodeKind.closedBy]) hbase hg.head hg.tail.head ?_ hw
  intro index next ha rest hw'
  obtain rfl : base + 2 = next := by
    cases index <;> simp_all
  obtain ⟨t, ht, h⟩ := hr (base + 2) [base + 1] false (by omega) hg.tail.tail rest hw'
  exact ⟨[t], _, rfl, .rule ht, h⟩

/-- A walk through the items of a sequence, from the first one or, if there is none, from the node where it stops. -/
theorem readable_items {stop : Nat} : ∀ {items : List Pattern}, (∀ p ∈ items, Readable g p) → ∀ {base : Nat},
    2 ≤ base → g.Holds base (layoutItems items base stop) → ∀ {steps},
    g.Walk (if items.isEmpty then stop else base) steps → ∃ ts, DerivesAll items ts ∧ g.ReadsTo steps ts [stop]
  | [], _, _, _, _, _, hw => ⟨[], .nil, .nil hw (List.mem_singleton.mpr rfl)⟩
  | p :: ps, hs, base, hbase, hg, steps, hw => by
    obtain ⟨t, ht, h⟩ := hs p List.mem_cons_self base _ _ hbase hg.left steps hw
    have hright := hg.right
    rw [length_layout] at hright
    obtain ⟨us, hus, h'⟩ := h.trans (P := DerivesAll ps) fun next hnext rest hw' _ => by
      obtain rfl := List.mem_singleton.mp hnext
      exact readable_items (fun q hq => hs q (List.mem_cons_of_mem _ hq)) (by omega) hright hw'
    exact ⟨t :: us, .cons ht hus, h'⟩

theorem readable_sequence {items : List Pattern} (hs : ∀ p ∈ items, Readable g p) : Readable g (.sequence items) := by
  intro base out loopEntry hbase hg steps hw
  refine Graph.readsTo_of_brackets (by simp [NodeKind.closedBy]) hbase hg.head hg.tail.head ?_ hw
  intro index next ha rest hw'
  obtain rfl : (if items.isEmpty then base + 1 else base + 2) = next := by
    cases index with
    | zero => simpa using ha
    | succ i => simp at ha
  obtain ⟨ts, hts, h⟩ := readable_items hs (by omega) hg.tail.tail hw'
  exact ⟨ts, _, rfl, .sequence hts, h⟩

/-- The branches of a choice stand where its first arcs lead to. -/
theorem holds_branch {stop : Nat} : ∀ {branches : List Pattern} {base index next : Nat},
    g.Holds base (layoutBranches branches base stop) → (entries branches base)[index]? = some next →
    ∃ p, branches[index]? = some p ∧ base ≤ next ∧ g.Holds next (p.layout next [stop] false)
  | p :: ps, base, 0, next, hg, ha => by
    obtain rfl : base = next := by simpa [entries] using ha
    exact ⟨p, rfl, Nat.le_refl _, hg.left⟩
  | p :: ps, base, index + 1, next, hg, ha => by
    have hright := hg.right
    rw [length_layout] at hright
    obtain ⟨q, hq, hle, hnext⟩ := holds_branch hright (by simpa [entries] using ha)
    exact ⟨q, by simpa using hq, by omega, hnext⟩

theorem readable_alternatives {branches : List Pattern} (hs : ∀ p ∈ branches, Readable g p) :
    Readable g (.alternatives branches) := by
  intro base out loopEntry hbase hg steps hw
  refine Graph.readsTo_of_brackets (by simp [NodeKind.closedBy]) hbase hg.head hg.tail.head ?_ hw
  intro index next ha rest hw'
  obtain ⟨p, hi, hle, hnext⟩ := holds_branch hg.tail.tail ha
  obtain ⟨t, ht, h⟩ := hs p (List.mem_of_getElem? hi) next _ _ (by omega) hnext rest hw'
  exact ⟨[t], _, rfl, .alternatives hi ht, h⟩

/-! ### Repetitions -/

/-- As many trees as there are repetitions. -/
theorem derivesAll_replicate {p : Pattern} : ∀ {ts : List ParseTree}, (∀ t ∈ ts, p.Derives t) →
    DerivesAll (List.replicate ts.length p) ts
  | [], _ => .nil
  | t :: _, h => .cons (h t List.mem_cons_self) (derivesAll_replicate fun u hu => h u (List.mem_cons_of_mem _ hu))

/-- The trees of repetitions, when `done` others went before and at most `left` can follow, with no bound on them if
`unbounded`. -/
structure Repeats (body : Pattern) (min done left : Nat) (unbounded : Bool) (ts : List ParseTree) : Prop where
  derives : ∀ t ∈ ts, body.Derives t
  atLeast : min ≤ done + ts.length
  atMost : unbounded = false → ts.length ≤ left

theorem mem_bypass {min stop done next : Nat} : next ∈ bypass min stop done ↔ min ≤ done ∧ next = stop := by
  unfold bypass
  by_cases h : min ≤ done <;> simp [h]

/-- From the start of a repetition an arc leads to the first copy, if there is one, and one to the end, if nothing must
be there. -/
theorem mem_countArcs {min stop copies base next : Nat} :
    next ∈ countArcs min stop copies base ↔
      next = base ∧ copies ≠ 0 ∨ next = stop ∧ (copies = 0 ∨ min ≤ 0) := by
  unfold countArcs
  split
  · simp_all
  · simp_all [mem_bypass, and_comm]

/-- A walk that enters the last copy of the body may go round the loop as often as it likes. -/
theorem readable_lastCopy {body : Pattern} (hs : Readable g body) {base stop : Nat} (hbase : 2 ≤ base)
    {unbounded : Bool} (hg : g.Holds base (body.layout base (if unbounded then [base, stop] else [stop]) unbounded))
    {min done : Nat} (hmin : min ≤ done + 1) {steps : List (Nat × Nat)} (hw : g.Walk base steps) :
    ∃ ts, Repeats body min done 1 unbounded ts ∧ g.ReadsTo steps ts [stop] := by
  -- every round leaves fewer steps
  induction hn : steps.length using Nat.strongRecOn generalizing done steps with
  | _ n ih =>
    subst hn
    obtain ⟨t, ht, h⟩ := hs base _ _ hbase hg steps hw
    cases unbounded with
    | false =>
      exact ⟨[t], ⟨by simpa using ht, hmin, fun _ => Nat.le_refl 1⟩, h⟩
    | true =>
      obtain ⟨us, hus, h'⟩ := h.trans (P := fun us => ∀ u ∈ us, body.Derives u) fun next hnext rest hw' hlen => by
        rcases List.mem_pair.mp hnext with rfl | rfl
        · have hlt : rest.length < steps.length := hlen
          obtain ⟨us, hus, h'⟩ := ih _ hlt (Nat.le_succ_of_le hmin) hw' rfl
          exact ⟨us, hus.derives, h'⟩
        · exact ⟨[], by simp, .nil hw' (List.mem_singleton.mpr rfl)⟩
      refine ⟨t :: us, ⟨List.forall_mem_cons.mpr ⟨ht, hus⟩, ?_, fun h => nomatch h⟩, h'⟩
      rw [List.length_cons]
      omega

/-- A walk that enters one of the copies of the body passes enough of them, and not too many. -/
theorem readable_copies {body : Pattern} (hs : Readable g body) {min stop : Nat} {unbounded : Bool} :
    ∀ {left done base : Nat}, 2 ≤ base → left ≠ 0 → min ≤ done + left →
    g.Holds base (layoutCopies (fun base out loopEntry => body.layout base out loopEntry) body.size min stop unbounded
      left done base) → ∀ {steps}, g.Walk base steps →
    ∃ ts, Repeats body min done left unbounded ts ∧ g.ReadsTo steps ts [stop]
  | 1, done, base, hbase, _, hmin, hg, _, hw => readable_lastCopy hs hbase hg hmin hw
  | left + 2, done, base, hbase, _, hmin, hg, steps, hw => by
    obtain ⟨t, ht, h⟩ := hs base _ _ hbase hg.left steps hw
    have hright := hg.right
    rw [length_layout] at hright
    obtain ⟨us, hus, h'⟩ := h.trans (P := Repeats body min (done + 1) (left + 1) unbounded)
      fun next hnext rest hw' _ => by
        rcases List.mem_cons.mp hnext with rfl | hnext
        · exact readable_copies hs (by omega) (Nat.succ_ne_zero left) (by omega) hright hw'
        · obtain ⟨hle, rfl⟩ := mem_bypass.mp hnext
          exact ⟨[], ⟨by simp, hle, fun _ => Nat.zero_le _⟩, .nil hw' (List.mem_singleton.mpr rfl)⟩
    refine ⟨t :: us, ⟨List.forall_mem_cons.mpr ⟨ht, hus.derives⟩, ?_, fun hb => Nat.succ_le_succ (hus.atMost hb)⟩, h'⟩
    have := hus.atLeast
    rw [List.length_cons]
    omega

/-- There are as many copies as repetitions that must be there, and as many as there may be if these are limited. -/
theorem le_copies {min : Nat} {max : Bound} (h : max.Admits min) : min ≤ max.copies min := by
  cases max with
  | finite most => exact h most rfl
  | indefinite => exact Nat.le_max_left min 1

theorem admits_of_repeats {body : Pattern} {min : Nat} {max : Bound} {ts : List ParseTree}
    (h : Repeats body min 0 (max.copies min) max.isIndefinite ts) : max.Admits ts.length := by
  rintro most rfl
  exact h.atMost rfl

theorem readable_count {body : Pattern} {min : Nat} {max : Bound} (hb : max.Admits min) (hs : Readable g body) :
    Readable g (.count body min max) := by
  intro base out loopEntry hbase hg steps hw
  refine Graph.readsTo_of_brackets (by simp [NodeKind.closedBy]) hbase hg.head hg.tail.head ?_ hw
  intro index next ha rest hw'
  obtain ⟨ts, hts, h⟩ : ∃ ts, Repeats body min 0 (max.copies min) max.isIndefinite ts ∧
      g.ReadsTo rest ts [base + 1] := by
    have hmin := le_copies hb
    rcases mem_countArcs.mp (List.mem_of_getElem? ha) with ⟨rfl, h0⟩ | ⟨rfl, h0⟩
    · exact readable_copies hs (by omega) h0 (by omega) hg.tail.tail hw'
    · have hle : min ≤ 0 := by
        rcases h0 with h0 | h0 <;> omega
      exact ⟨[], ⟨by simp, hle, fun _ => Nat.zero_le _⟩, .nil hw' (List.mem_singleton.mpr rfl)⟩
  have hmin := hts.atLeast
  exact ⟨ts, _, rfl, .count (by omega) (admits_of_repeats hts) (derivesAll_replicate hts.derives), h⟩

mutual

/-- **Walks through a layout are read as trees of its pattern.** -/
theorem readable_of_ordered : ∀ {p : Pattern}, p.Ordered → Readable g p
  | .token text, _ => readable_token text
  | .tag value, _ => readable_tag value
  | .rule name _, h => readable_rule name (readable_of_ordered h)
  | .sequence _, h => readable_sequence (readable_of_orderedAll h)
  | .alternatives _, h => readable_alternatives (readable_of_orderedAll h)
  | .count _ _ _, h => readable_count h.1 (readable_of_ordered h.2)

theorem readable_of_orderedAll : ∀ {ps : List Pattern}, OrderedAll ps → ∀ p ∈ ps, Readable g p
  | [], _ => List.forall_mem_nil _
  | _ :: _, h => List.forall_mem_cons.mpr ⟨readable_of_ordered h.1, readable_of_orderedAll h.2⟩

end

end

end Pattern

end SpeechGrammar
