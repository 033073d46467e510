import Mathlib.Data.List.Nodup
import Mathlib.Data.List.Perm.Subperm
import Mathlib.Data.List.ProdSigma
import SpeechGrammar.Proofs.LoopEntries
import SpeechGrammar.Proofs.SearchLimits

/-!
# Searches come to an end

A search without limits comes to an end in the graph of every rule, although a loop may take nothing, and its paths have
at most `Graph.heightBound` nodes (**`Environment.search_terminates`**). There is no count that goes down with every
node that is entered. But between two loop entries a path meets no node twice, since the nodes of the graph settle, and
a loop entry is visited at most once with the same words left. `Search.Trail` says both of the path to a node; the room
that it leaves goes down with every node (**`Search.exists_explores`**).
-/

namespace SpeechGrammar

namespace Graph

variable (g : Graph)

/-- The nodes that are marked as entries of loops. -/
def loopEntries : List Nat := (List.range g.nodes.size).filter fun i => g.nodes[i]?.any (·.loopEntry)

/-- How many visits of loop entries there are at most, if so many words are spoken. -/
def visitBound (words : Nat) : Nat := g.loopEntries.length * (words + 1)

/-- How many nodes a path of a search has at most, if so many words are spoken. -/
def heightBound (words : Nat) : Nat := g.nodes.size * (g.visitBound words + 1) + 1

variable {g} {i : Nat} {words : Nat}

theorem mem_loopEntries : i ∈ g.loopEntries ↔ g.LoopEntry i := by
  simp only [loopEntries, List.mem_filter, List.mem_range, LoopEntry, Option.any_eq_true, and_iff_right_iff_imp,
    forall_exists_index, and_imp]
  intro node hn _
  exact (Array.getElem?_eq_some_iff.mp hn).1

/-- There are only so many visits. -/
theorem length_visits_le {visits : List (Nat × Nat)} (hnodup : visits.Nodup)
    (h : ∀ v ∈ visits, g.LoopEntry v.1 ∧ v.2 ≤ words) : visits.length ≤ g.visitBound words := by
  have hsub : visits ⊆ g.loopEntries ×ˢ List.range (words + 1) := fun v hv =>
    List.mem_product.mpr ⟨mem_loopEntries.mpr (h v hv).1, List.mem_range.mpr (Nat.lt_succ_of_le (h v hv).2)⟩
  have hle := (hnodup.subperm hsub).length_le
  rwa [List.length_product, List.length_range] at hle

/-- There are only so many nodes. -/
theorem length_nodes_le {ids : List Nat} (hnodup : ids.Nodup) (h : ∀ id ∈ ids, id < g.nodes.size) :
    ids.length ≤ g.nodes.size := by
  have hsub : ids ⊆ List.range g.nodes.size := fun id hid => List.mem_range.mpr (h id hid)
  have hle := (hnodup.subperm hsub).length_le
  rwa [List.length_range] at hle

end Graph

namespace Search

variable {g : Graph} {wildcards : Bool} {words left : Nat} {visits : List (Nat × Nat)} {since : List Nat}
  {id next : Nat} {node : Node}

/-! ## The way to a node -/

/-- The way to a node on which so many of the words are left, with the visits of loop entries, and the nodes entered
since the last one of them. -/
structure Trail (g : Graph) (words left : Nat) (visits : List (Nat × Nat)) (since : List Nat) (id : Nat) : Prop where
  left_le : left ≤ words
  nodup_visits : visits.Nodup
  of_visits : ∀ v ∈ visits, g.LoopEntry v.1 ∧ v.2 ≤ words
  nodup_since : since.Nodup
  of_since : ∀ i ∈ since, i < g.nodes.size
  /-- They lead to the node, unless another loop begins there. -/
  leads : ∀ i ∈ since, ¬g.LoopEntry id → Relation.TransGen g.Onward i id

/-- How many nodes a way can still enter. -/
def room (g : Graph) (words : Nat) (visits : List (Nat × Nat)) (since : List Nat) : Nat :=
  (g.visitBound words - visits.length) * g.nodes.size + (g.nodes.size - since.length)

theorem Trail.initial (g : Graph) (words : Nat) (id : Nat) : Trail g words words [] [] id :=
  ⟨Nat.le_refl words, .nil, nofun, .nil, nofun, nofun⟩

/-- On from a loop entry that is not being visited. -/
theorem Trail.loop (h : Trail g words left visits since id) (hn : g.nodes[id]? = some node)
    (hl : node.loopEntry = true) (hnew : (id, left) ∉ visits) {left' : Nat} (hle : left' ≤ left)
    (hnext : next ∈ node.arcs) :
    Trail g words left' ((id, left) :: visits) [id] next where
  left_le := Nat.le_trans hle h.left_le
  nodup_visits := List.nodup_cons.mpr ⟨hnew, h.nodup_visits⟩
  of_visits := List.forall_mem_cons.mpr ⟨⟨⟨node, hn, hl⟩, h.left_le⟩, h.of_visits⟩
  nodup_since := List.nodup_singleton id
  of_since := List.forall_mem_singleton.mpr (Array.getElem?_eq_some_iff.mp hn).1
  leads := List.forall_mem_singleton.mpr fun hplain => .single ⟨⟨node, hn, hnext⟩, hplain⟩

/-- On from a node that is not the entry of a loop. -/
theorem Trail.pass (h : Trail g words left visits since id) (hg : g.Settles id) (hn : g.nodes[id]? = some node)
    (hl : node.loopEntry = false) {left' : Nat} (hle : left' ≤ left) (hnext : next ∈ node.arcs) :
    Trail g words left' visits (id :: since) next := by
  have hplain : ¬g.LoopEntry id := by
    rintro ⟨node', hn', hl'⟩
    obtain rfl : node = node' := Option.some.inj (hn.symm.trans hn')
    rw [hl] at hl'
    cases hl'
  have honward : ¬g.LoopEntry next → g.Onward id next := fun hp => ⟨⟨node, hn, hnext⟩, hp⟩
  exact {
    left_le := Nat.le_trans hle h.left_le
    nodup_visits := h.nodup_visits
    of_visits := h.of_visits
    nodup_since := List.nodup_cons.mpr ⟨fun hmem => hg.not_transGen (h.leads id hmem hplain), h.nodup_since⟩
    of_since := List.forall_mem_cons.mpr ⟨(Array.getElem?_eq_some_iff.mp hn).1, h.of_since⟩
    leads := List.forall_mem_cons.mpr ⟨fun hp => .single (honward hp),
      fun i hi hp => (h.leads i hi hplain).tail (honward hp)⟩ }

/-- A visit of a loop entry takes room, although the nodes can be entered once more. -/
theorem Trail.room_loop (h : Trail g words left ((id, left') :: visits) [id] next) (since : List Nat) :
    room g words ((id, left') :: visits) [id] < room g words visits since := by
  have hvisits := Graph.length_visits_le h.nodup_visits h.of_visits
  have hnodes := Graph.length_nodes_le h.nodup_since h.of_since
  rw [List.length_cons] at hvisits
  rw [List.length_singleton] at hnodes
  unfold room
  rw [List.length_cons, List.length_singleton]
  obtain ⟨k, hk⟩ : ∃ k, g.visitBound words - visits.length = k + 1 := ⟨_, (Nat.succ_pred_eq_of_pos (by omega)).symm⟩
  rw [show g.visitBound words - (visits.length + 1) = k by omega, hk, Nat.succ_mul]
  omega

theorem Trail.room_pass (h : Trail g words left visits (id :: since) next) :
    room g words visits (id :: since) < room g words visits since := by
  have hnodes := Graph.length_nodes_le h.nodup_since h.of_since
  unfold room
  rw [List.length_cons] at hnodes ⊢
  omega

/-! ## The end of a search -/

/-- A search without limits that fails restores its state. -/
theorem Explores.restored {s t : SearchState} {height : Nat} (h : Explores g wildcards id s false t height)
    (hs : s.exhausted = false) : s.Restored t :=
  walk_restores height _ _ _ (h.walk_eq (o := ⟨none, height, wildcards⟩) hs (fun _ hmost => nomatch hmost)
    (Nat.le_refl height))

/-- A search along arcs ends, if the one from each of the nodes they lead to does. -/
theorem exists_exploresArcs {bound : Nat} : ∀ {arcs : List Nat} (index : Nat) {s : SearchState},
    s.exhausted = false →
    (∀ next ∈ arcs, ∀ u, s.Restored u → u.exhausted = false →
      ∃ found t height, Explores g wildcards next u found t height ∧ height ≤ bound) →
    ∃ taken t height, ExploresArcs g wildcards arcs index s taken t height ∧ height ≤ bound
  | [], _, s, _, _ => ⟨none, s, 0, .nil, Nat.zero_le bound⟩
  | next :: arcs, index, s, hs, hends => by
    obtain ⟨found, t, height, hexp, hle⟩ := hends next List.mem_cons_self s (.refl s) hs
    cases found with
    | true => exact ⟨some index, t, height, .found hexp, hle⟩
    | false =>
      have hr := hexp.restored hs
      have ht : t.exhausted = false := hexp.counts.2.trans hs
      obtain ⟨taken, u, height', harcs, hle'⟩ := exists_exploresArcs (index + 1) ht
        fun next' hnext' u hu hex => hends next' (List.mem_cons_of_mem _ hnext') u (hr.trans hu) hex
      rw [← hr.with_rest] at harcs
      exact ⟨taken, u, max height height', .later hexp harcs, Nat.max_le.mpr ⟨hle, hle'⟩⟩

theorem exists_exploresNode {bound : Nat} (id : Nat) {s : SearchState} (hs : s.exhausted = false)
    (hends : ∀ rest, rest <:+ s.rest → ∀ next ∈ node.arcs, ∀ u, SearchState.Restored { s with rest := rest } u →
      u.exhausted = false → ∃ found t height, Explores g wildcards next u found t height ∧ height ≤ bound) :
    ∃ found t height, ExploresNode g wildcards id node s found t height ∧ height ≤ bound := by
  by_cases hend : id = g.stop ∧ s.rest = []
  · exact ⟨true, _, 0, .stop hend, Nat.zero_le bound⟩
  · cases htake : node.kind.take wildcards s.rest with
    | none => exact ⟨false, s, 0, .refused hend htake, Nat.zero_le bound⟩
    | some rest =>
      have hsuffix := NodeKind.suffix_of_take htake
      obtain ⟨taken, t, height, harcs, hle⟩ :=
        exists_exploresArcs (s := { s with rest := rest }) 0 hs (hends rest hsuffix)
      cases taken with
      | some index => exact ⟨true, _, height, .found hend htake harcs, hle⟩
      | none => exact ⟨false, _, height, .failed hend htake harcs, hle⟩

/-- **A search without limits comes to an end**, and its paths enter no more nodes than there is room for, and one at
which they turn back. -/
theorem exists_explores (wildcards : Bool) (hg : ∀ i, g.Settles i) {id : Nat} {since : List Nat} {s : SearchState}
    (h : Trail g words s.rest.length s.visits since id) (hs : s.exhausted = false) :
    ∃ found t height, Explores g wildcards id s found t height ∧ height ≤ room g words s.visits since + 1 := by
  induction hroom : room g words s.visits since using Nat.strongRecOn generalizing id since s with
  | _ bound ih =>
    subst hroom
    -- from a node the search goes on with less room
    have on : ∀ {next left visits since'} {u : SearchState}, u.rest.length = left → u.visits = visits →
        Trail g words left visits since' next → room g words visits since' < room g words s.visits since →
        u.exhausted = false →
        ∃ found t height, Explores g wildcards next u found t height ∧ height ≤ room g words s.visits since := by
      rintro next _ _ since' u rfl rfl htrail hless hex
      obtain ⟨found, t, height, hexp, hle⟩ := ih _ hless htrail hex rfl
      exact ⟨found, t, height, hexp, Nat.le_trans hle hless⟩
    cases hn : g.nodes[id]? with
    | none => exact ⟨false, _, 1, .missing hn, Nat.le_add_left 1 _⟩
    | some node =>
      cases hl : node.loopEntry with
      | true =>
        by_cases hv : (id, s.rest.length) ∈ s.visits
        · exact ⟨false, _, 1, .returned hn hl hv, Nat.le_add_left 1 _⟩
        · obtain ⟨found, t, height, hexp, hle⟩ :=
            exists_exploresNode id (s := s.counted.visiting (id, s.rest.length)) hs
              fun rest hrest next hnext u hu hex =>
                have htrail := h.loop hn hl hv hrest.length_le hnext
                on (congrArg List.length hu.rest) hu.visits htrail (htrail.room_loop since) hex
          exact ⟨found, _, height + 1, .looped hn hl hv hexp, Nat.succ_le_succ hle⟩
      | false =>
        obtain ⟨found, t, height, hexp, hle⟩ := exists_exploresNode id (s := s.counted) hs
          fun rest hrest next hnext u hu hex =>
            have htrail := h.pass (hg id) hn hl hrest.length_le hnext
            on (congrArg List.length hu.rest) hu.visits htrail htrail.room_pass hex
        exact ⟨found, t, height + 1, .passed hn hl hexp, Nat.succ_le_succ hle⟩

end Search

namespace Graph

variable {g : Graph}

/-- The search for a parse comes to an end without limits, if the graph settles. -/
theorem exists_unlimited (hg : ∀ i, g.Settles i) (wildcards : Bool) (spoken : List String) :
    ∃ result calls height, g.Unlimited wildcards spoken result calls height ∧
      height ≤ g.heightBound spoken.length := by
  have hlength : (SearchState.initial (spoken.map Text.lower)).rest.length = spoken.length := List.length_map _
  have htrail : Search.Trail g spoken.length (SearchState.initial (spoken.map Text.lower)).rest.length [] [] g.start :=
    hlength ▸ Search.Trail.initial g _ g.start
  obtain ⟨found, t, height, hexp, hle⟩ := Search.exists_explores wildcards hg htrail rfl
  refine ⟨_, t.steps, height, ⟨found, t, hexp, rfl, rfl⟩, Nat.le_trans hle (Nat.le_of_eq ?_)⟩
  simp only [Search.room, heightBound, SearchState.initial, List.length_nil, Nat.sub_zero, Nat.mul_add, Nat.mul_one,
    Nat.mul_comm]

/-- A search whose limits allow the calls and the height of the search without limits meets none of them. -/
theorem Unlimited.staysWithinLimits {spoken : List String} {o : SearchOptions} {result : Option Parse}
    {calls height : Nat} (h : g.Unlimited o.wildcards spoken result calls height) (ha : o.Allows calls height) :
    g.StaysWithinLimits spoken o := by
  obtain ⟨found, t, hexp, -, rfl⟩ := h
  unfold StaysWithinLimits search
  rw [hexp.walk_eq rfl ha.1 ha.2]
  exact hexp.counts.2

end Graph

namespace Environment

/-- **Searches come to an end, also without limits.** Every walk through the graph of a rule that comes back to where it
started meets a loop entry. So the search for any spoken words has an end when nothing limits it, and its paths have at
most `Graph.heightBound` nodes. With any number of steps, and paths of that length allowed, no limit is met. -/
theorem search_terminates {env : Environment} {name : String} {g : Graph} (h : env.compile name = .ok g) :
    (∀ id ids, List.IsChain g.Arc (id :: (ids ++ [id])) → ∃ i ∈ id :: ids, g.LoopEntry i) ∧
    ∀ spoken : List String,
      (∀ wildcards, ∃ result calls height, g.Unlimited wildcards spoken result calls height ∧
        height ≤ g.nodes.size * (g.loopEntries.length * (spoken.length + 1) + 1) + 1) ∧
      ∀ o : SearchOptions, o.maxSteps = none →
        g.nodes.size * (g.loopEntries.length * (spoken.length + 1) + 1) + 1 ≤ o.maxDepth →
        g.StaysWithinLimits spoken o := by
  have hg := settles h
  refine ⟨fun id ids => Graph.exists_loopEntry_of_settles (hg id), fun spoken => ?_⟩
  have hends := fun wildcards => Graph.exists_unlimited hg wildcards spoken
  refine ⟨hends, fun o hsteps hdepth => ?_⟩
  obtain ⟨result, calls, height, hunlimited, hle⟩ := hends o.wildcards
  have hallowed : o.AllowsSteps calls := fun most hmost => by
    rw [hsteps] at hmost
    cases hmost
  exact hunlimited.staysWithinLimits ⟨hallowed, Nat.le_trans hle hdepth⟩

/-- Here the loop entry is the start of a rule that may take nothing. -/
theorem lamps_search_terminates :
    lamps.compile "switch" = .ok lampsGraph ∧ List.IsChain lampsGraph.Arc [6, 8, 9, 7, 6] ∧
      (∃ i ∈ [6, 8, 9, 7], lampsGraph.LoopEntry i) ∧
      (∃ result calls height, lampsGraph.Unlimited true lampsWords result calls height ∧ height ≤ 176) ∧
      lampsGraph.StaysWithinLimits lampsWords (SearchOptions.default.limitDepth 176) := by
  have hg : lamps.compile "switch" = .ok lampsGraph := by cbv
  have hback : List.IsChain lampsGraph.Arc [6, 8, 9, 7, 6] := by
    simp only [List.isChain_cons_cons]
    exact ⟨⟨lampsGraph.nodes[6], rfl, by decide⟩, ⟨lampsGraph.nodes[8], rfl, by decide⟩,
      ⟨lampsGraph.nodes[9], rfl, by decide⟩, ⟨lampsGraph.nodes[7], rfl, by decide⟩, .singleton 6⟩
  have hbound : lampsGraph.nodes.size * (lampsGraph.loopEntries.length * (lampsWords.length + 1) + 1) + 1 = 176 := by
    decide +kernel
  obtain ⟨hcycle, hends⟩ := search_terminates hg
  obtain ⟨hunlimited, hlimits⟩ := hends lampsWords
  rw [hbound] at hunlimited hlimits
  exact ⟨hg, hback, hcycle 6 [8, 9, 7] hback, hunlimited true, hlimits _ rfl (Nat.le_refl 176)⟩

end Environment

end SpeechGrammar
