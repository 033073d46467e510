import Mathlib.Logic.Relation
import SpeechGrammar.Proofs.LayoutPaths

/-!
# Loops go through loop entries

The only arcs of a layout that lead back are those of unlimited repetitions, and the node they lead back to is marked
as the entry of a loop. Said without cycles: every walk that avoids loop entries comes to an end (`Graph.Settles`). In
this form it is shown for each kind of pattern from the patterns in it, as long as it holds of the nodes that come
after (`Pattern.Settling`), and so it holds of every node of every graph (**`Environment.settles`**). A walk that comes
back to where it started therefore meets a loop entry (**`Graph.exists_loopEntry_of_settles`**).
-/

namespace SpeechGrammar

namespace Graph

variable (g : Graph)

/-- An arc leads from one node to the other. -/
def Arc (i j : Nat) : Prop := ∃ node, g.nodes[i]? = some node ∧ j ∈ node.arcs

/-- The node is marked as the entry of a loop. -/
def LoopEntry (i : Nat) : Prop := ∃ node, g.nodes[i]? = some node ∧ node.loopEntry = true

/-- An arc leads from one node to the other, which is not the entry of a loop. -/
def Onward (i j : Nat) : Prop := g.Arc i j ∧ ¬g.LoopEntry j

/-- Every walk from the node that avoids loop entries comes to an end. -/
def Settles (i : Nat) : Prop := Acc (fun j i => g.Onward i j) i

/-- No walk that avoids loop entries goes on from here for ever: either this is one, or such walks come to an end. -/
def Yields (i : Nat) : Prop := g.LoopEntry i ∨ g.Settles i

variable {g} {i base n : Nat}

/-- Whether an arc leads from one node to the other is read off the first one. -/
instance (i j : Nat) : Decidable (g.Arc i j) :=
  decidable_of_iff (∃ node ∈ g.nodes[i]?, j ∈ node.arcs) Iff.rfl

theorem Settles.of_arcs {node : Node} (hn : g.nodes[i]? = some node) (h : ∀ next ∈ node.arcs, g.Yields next) :
    g.Settles i := by
  refine Acc.intro i fun next hnext => ?_
  obtain ⟨⟨node', hn', hmem⟩, hplain⟩ := hnext
  obtain rfl : node = node' := Option.some.inj (hn.symm.trans hn')
  exact (h next hmem).resolve_left hplain

/-- There are no arcs from a node that does not exist. -/
theorem Settles.of_missing (hn : g.nodes[i]? = none) : g.Settles i := by
  refine Acc.intro i fun next hnext => ?_
  obtain ⟨⟨node, hn', -⟩, -⟩ := hnext
  rw [hn] at hn'
  cases hn'

/-- A node does not come back to itself without a loop entry. -/
theorem Settles.not_transGen (h : g.Settles i) : ¬Relation.TransGen g.Onward i i := by
  induction h with
  | intro i _ ih =>
    intro hback
    obtain ⟨j, hij, hji⟩ := Relation.TransGen.head'_iff.mp hback
    exact ih j hij (Relation.TransGen.tail' hji hij)

/-- A walk along arcs whose nodes after the first are not loop entries. -/
theorem transGen_of_isChain : ∀ {ids : List Nat} {i j : Nat}, List.IsChain g.Arc (i :: (ids ++ [j])) →
    (∀ id ∈ ids, ¬g.LoopEntry id) → ¬g.LoopEntry j → Relation.TransGen g.Onward i j
  | [], i, j, h, _, hj => .single ⟨(List.isChain_cons_cons.mp h).1, hj⟩
  | id :: ids, i, j, h, hids, hj => by
    obtain ⟨hid, h⟩ := List.isChain_cons_cons.mp h
    have hfirst : g.Onward i id := ⟨hid, hids id List.mem_cons_self⟩
    exact .head hfirst (transGen_of_isChain h (fun x hx => hids x (List.mem_cons_of_mem _ hx)) hj)

/-- **A walk that comes back to where it started meets a loop entry.** -/
theorem exists_loopEntry_of_settles (h : g.Settles i) {ids : List Nat}
    (hback : List.IsChain g.Arc (i :: (ids ++ [i]))) : ∃ id ∈ i :: ids, g.LoopEntry id := by
  by_contra hnone
  have hplain : ∀ id ∈ i :: ids, ¬g.LoopEntry id := fun id hid hentry => hnone ⟨id, hid, hentry⟩
  exact h.not_transGen (transGen_of_isChain hback (fun id hid => hplain id (List.mem_cons_of_mem _ hid))
    (hplain i List.mem_cons_self))

/-- The nodes from `base` on, so many of them, settle. -/
def SettlesFrom (g : Graph) (base n : Nat) : Prop := ∀ i, base ≤ i → i < base + n → g.Settles i

theorem SettlesFrom.yields (h : g.SettlesFrom base n) (hn : 0 < n) : g.Yields base :=
  .inr (h base (Nat.le_refl base) (Nat.lt_add_of_pos_right hn))

theorem SettlesFrom.append {m : Nat} (h : g.SettlesFrom base n) (h' : g.SettlesFrom (base + n) m) :
    g.SettlesFrom base (n + m) := by
  intro i hle hlt
  by_cases hi : i < base + n
  · exact h i hle hi
  · exact h' i (by omega) (by omega)

theorem SettlesFrom.single (h : g.Settles base) : g.SettlesFrom base 1 := by
  intro i hle hlt
  obtain rfl : i = base := by omega
  exact h

end Graph

namespace Pattern

open SpeechGrammar.Graph (Yields SettlesFrom)

/-- The nodes of the layout settle, if those do to which its last node has arcs. -/
def Settling (g : Graph) (p : Pattern) : Prop :=
  ∀ base out loopEntry, g.Holds base (p.layout base out loopEntry) → (∀ next ∈ out, g.Yields next) →
    g.SettlesFrom base p.size

section

variable {g : Graph} {base stop n : Nat} {kind last : NodeKind} {arcs out : List Nat} {loopEntry final : Bool}

/-- The first node of a layout is marked if it is the entry of a loop. -/
theorem loopEntry_layout (p : Pattern) (base : Nat) (out : List Nat) (loopEntry : Bool) :
    ∃ kind arcs nodes, p.layout base out loopEntry = ⟨kind, arcs, loopEntry, false⟩ :: nodes := by
  cases p <;> exact ⟨_, _, _, rfl⟩

/-- Something that starts at `base` and stops at the next node settles, if the nodes between do as soon as the one where
it stops does. -/
theorem settlesFrom_of_ends (hstart : g.nodes[base]? = some ⟨kind, arcs, loopEntry, false⟩)
    (hstop : g.nodes[base + 1]? = some ⟨last, out, false, final⟩) (hout : ∀ next ∈ out, g.Yields next)
    (inner : g.Yields (base + 1) → g.SettlesFrom (base + 2) n)
    (harcs : ∀ next ∈ arcs, next = base + 1 ∨ base + 2 ≤ next ∧ next < base + 2 + n) :
    g.SettlesFrom base (n + 2) := by
  have hlast : g.Settles (base + 1) := .of_arcs hstop hout
  have hinner := inner (.inr hlast)
  have hfirst : g.Settles base := by
    refine .of_arcs hstart fun next hnext => ?_
    rcases harcs next hnext with rfl | ⟨hle, hlt⟩
    · exact .inr hlast
    · exact .inr (hinner next hle hlt)
  have hboth := (SettlesFrom.single hfirst).append ((SettlesFrom.single hlast).append hinner)
  rwa [show 1 + (1 + n) = n + 2 by omega] at hboth

theorem settling_token (text : String) : Settling g (.token text) :=
  fun _ _ _ hg hout => .single (.of_arcs hg.head hout)

theorem settling_tag (value : String) : Settling g (.tag value) :=
  fun _ _ _ hg hout => .single (.of_arcs hg.head hout)

/-- The nodes of a rule settle if those of its body do, whether the rule is final or not. -/
theorem settlesFrom_rule {name : String} {body : Pattern} (hb : Settling g body)
    (hg : g.Holds base (⟨.startReference name (base + 1), [base + 2], loopEntry, false⟩ ::
      ⟨.endReference, out, false, final⟩ :: body.layout (base + 2) [base + 1] false))
    (hout : ∀ next ∈ out, g.Yields next) : g.SettlesFrom base (body.size + 2) := by
  refine settlesFrom_of_ends hg.head hg.tail.head hout
    (fun hstop => hb (base + 2) [base + 1] false hg.tail.tail fun next hnext => ?_) fun next hnext => ?_
  · rwa [List.mem_singleton.mp hnext]
  · have hsize := body.size_pos
    have hnext := List.mem_singleton.mp hnext
    omega

theorem settling_rule (name : String) {body : Pattern} (hb : Settling g body) : Settling g (.rule name body) :=
  fun _ _ _ hg hout => settlesFrom_rule hb hg hout

/-- The items settle from the last one on. -/
theorem settlesFrom_items : ∀ {items : List Pattern} {base : Nat}, (∀ p ∈ items, Settling g p) →
    g.Holds base (layoutItems items base stop) → g.Yields stop → g.SettlesFrom base (sizeAll items)
  | [], _, _, _, _ => fun i hle hlt => absurd hlt (Nat.not_lt.mpr hle)
  | p :: ps, base, hs, hg, hstop => by
    have hright := hg.right
    rw [length_layout] at hright
    have hlater := settlesFrom_items (fun q hq => hs q (List.mem_cons_of_mem _ hq)) hright hstop
    refine .append (hs p List.mem_cons_self _ _ _ hg.left fun next hnext => ?_) hlater
    rw [List.mem_singleton.mp hnext]
    cases ps with
    | nil => exact hstop
    | cons q qs => exact hlater.yields (Nat.add_pos_left q.size_pos _)

theorem settling_sequence {items : List Pattern} (hs : ∀ p ∈ items, Settling g p) :
    Settling g (.sequence items) := by
  intro base out loopEntry hg hout
  refine settlesFrom_of_ends hg.head hg.tail.head hout (settlesFrom_items hs hg.tail.tail) fun next hnext => ?_
  rw [List.mem_singleton.mp hnext]
  cases items with
  | nil => exact .inl rfl
  | cons p ps => exact .inr ⟨Nat.le_refl _, Nat.lt_add_of_pos_right (Nat.add_pos_left p.size_pos _)⟩

theorem settlesFrom_branches : ∀ {branches : List Pattern} {base : Nat}, (∀ p ∈ branches, Settling g p) →
    g.Holds base (layoutBranches branches base stop) → g.Yields stop → g.SettlesFrom base (sizeAll branches)
  | [], _, _, _, _ => fun i hle hlt => absurd hlt (Nat.not_lt.mpr hle)
  | p :: ps, base, hs, hg, hstop => by
    have hright := hg.right
    rw [length_layout] at hright
    refine .append (hs p List.mem_cons_self _ _ _ hg.left fun next hnext => ?_)
      (settlesFrom_branches (fun q hq => hs q (List.mem_cons_of_mem _ hq)) hright hstop)
    rwa [List.mem_singleton.mp hnext]

/-- The first nodes of branches are among their nodes. -/
theorem bounds_of_mem_entries : ∀ {branches : List Pattern} {base next : Nat}, next ∈ entries branches base →
    base ≤ next ∧ next < base + sizeAll branches
  | p :: ps, base, next, h => by
    have hsize := p.size_pos
    rw [sizeAll]
    rcases List.mem_cons.mp h with rfl | h
    · omega
    · have := bounds_of_mem_entries h
      omega

theorem settling_alternatives {branches : List Pattern} (hs : ∀ p ∈ branches, Settling g p) :
    Settling g (.alternatives branches) := by
  intro base out loopEntry hg hout
  exact settlesFrom_of_ends hg.head hg.tail.head hout (settlesFrom_branches hs hg.tail.tail)
    fun next hnext => .inr (bounds_of_mem_entries hnext)

/-- The copies of a body settle from the last one on. The arc that leads back from it comes to a loop entry. -/
theorem settlesFrom_copies {body : Pattern} (hb : Settling g body) {min stop : Nat} {unbounded : Bool} :
    ∀ {left done base : Nat},
    g.Holds base (layoutCopies (fun base out loopEntry => body.layout base out loopEntry) body.size min stop unbounded
      left done base) → g.Yields stop → g.SettlesFrom base (left * body.size)
  | 0, _, base, _, _ => fun i hle hlt => by omega
  | 1, done, base, hg, hstop => by
    rw [Nat.one_mul]
    refine hb base _ _ hg fun next hnext => ?_
    cases unbounded with
    | false => rwa [List.mem_singleton.mp hnext]
    | true =>
      rcases List.mem_pair.mp hnext with rfl | rfl
      · obtain ⟨kind, arcs, nodes, hlayout⟩ := loopEntry_layout body next [next, stop] true
        have hhead : g.Holds next (body.layout next [next, stop] true) := hg
        rw [hlayout] at hhead
        exact .inl ⟨_, hhead.head, rfl⟩
      · exact hstop
  | left + 2, done, base, hg, hstop => by
    have hright := hg.right
    rw [length_layout] at hright
    have hlater := settlesFrom_copies hb hright hstop
    have hsize : 0 < (left + 1) * body.size := Nat.mul_pos (Nat.succ_pos left) body.size_pos
    rw [show (left + 2) * body.size = body.size + (left + 1) * body.size by rw [Nat.succ_mul, Nat.add_comm]]
    refine .append (hb base _ _ hg.left fun next hnext => ?_) hlater
    rcases List.mem_cons.mp hnext with rfl | hnext
    · exact hlater.yields hsize
    · rw [(mem_bypass.mp hnext).2]
      exact hstop

theorem settling_count {body : Pattern} (min : Nat) (max : Bound) (hb : Settling g body) :
    Settling g (.count body min max) := by
  intro base out loopEntry hg hout
  refine settlesFrom_of_ends hg.head hg.tail.head hout (settlesFrom_copies hb hg.tail.tail) fun next hnext => ?_
  rcases mem_countArcs.mp hnext with ⟨rfl, hcopies⟩ | ⟨rfl, -⟩
  · have hsize := Nat.mul_pos (Nat.pos_of_ne_zero hcopies) body.size_pos
    omega
  · exact .inl rfl

mutual

/-- **Every layout settles**, if the nodes that come after it do. -/
theorem settling : ∀ p : Pattern, Settling g p
  | .token text => settling_token text
  | .tag value => settling_tag value
  | .rule name body => settling_rule name (settling body)
  | .sequence items => settling_sequence (settling_all items)
  | .alternatives branches => settling_alternatives (settling_all branches)
  | .count body min max => settling_count min max (settling body)

theorem settling_all : ∀ ps : List Pattern, ∀ p ∈ ps, Settling g p
  | [] => List.forall_mem_nil _
  | p :: ps => List.forall_mem_cons.mpr ⟨settling p, settling_all ps⟩

end

end

end Pattern

/-- **Every node of the graph of a rule settles.** -/
theorem Environment.settles {env : Environment} {name : String} {g : Graph} (h : env.compile name = .ok g) (i : Nat) :
    g.Settles i := by
  obtain ⟨body, -, rfl⟩ := ok_of_map_eq_ok h
  by_cases hi : i < body.size + 2
  · exact Pattern.settlesFrom_rule body.settling (ruleGraph_holds name body) (List.forall_mem_nil _) i (Nat.zero_le i)
      (by omega)
  · refine .of_missing ?_
    rw [ruleGraph, List.getElem?_toArray]
    exact List.getElem?_eq_none (by rw [body.length_layoutRule]; omega)

end SpeechGrammar
