import SpeechGrammar.Proofs.LoopEntries
import SpeechGrammar.Proofs.Recognition

/-!
# The first parse

Of the paths that come to no loop entry twice with the same words left, a search finds the one whose arcs are the first
in lexicographic order (**`Search.first_of_walk`**). So a branch that is declared earlier goes before a later one, and
another repetition goes before leaving the loop. The parse that is returned is read off this path
(**`Environment.parse_first`**).

The order is one on whole paths. It is the order of the search because a failure restores the state: an arc is tried as if
no arc had been tried before it.
-/

namespace SpeechGrammar

/-! ## Paths that do not come back -/

namespace Graph

variable (g : Graph)

/-- The visits of loop entries among those of a path. -/
def loopVisits (visits : List (Nat × Nat)) : List (Nat × Nat) :=
  visits.filter fun v => g.nodes[v.1]?.any (·.loopEntry)

/-- No loop entry is visited twice with the same words left, and no visit of one is among those `before`. -/
structure Fresh (before visits : List (Nat × Nat)) : Prop where
  nodup : (g.loopVisits visits).Nodup
  new : ∀ v ∈ g.loopVisits visits, v ∉ before

/-- The arcs of the paths from a node that take the spoken words and do not come back. -/
def freshPaths (wildcards : Bool) (before : List (Nat × Nat)) (id : Nat) (spoken : List String) : Set (List Nat) :=
  {arcs | ∃ visits fs, g.Path wildcards arcs visits id spoken fs ∧ g.Fresh before visits}

variable {g} {before after visits : List (Nat × Nat)} {node : Node} {id left : Nat}

theorem mem_loopVisits {v : Nat × Nat} : v ∈ g.loopVisits visits ↔ v ∈ visits ∧ g.LoopEntry v.1 := by
  simp only [loopVisits, List.mem_filter, Option.any_eq_true, LoopEntry]

theorem fresh_nil : g.Fresh before [] := ⟨.nil, nofun⟩

/-- What comes after a node does not come back to what was visited before it, nor to the node if it is a loop entry. -/
theorem fresh_cons_iff (hn : g.nodes[id]? = some node) (he : Search.Entered node (id, left) before after) :
    g.Fresh before ((id, left) :: visits) ↔ g.Fresh after visits := by
  cases he with
  | loop hl hnew =>
    have hcons : g.loopVisits ((id, left) :: visits) = (id, left) :: g.loopVisits visits := by simp [loopVisits, hn, hl]
    constructor
    · intro h
      obtain ⟨hnot, hnodup⟩ := List.nodup_cons.mp (hcons ▸ h.nodup)
      refine ⟨hnodup, fun v hv hmem => ?_⟩
      rcases List.mem_cons.mp hmem with rfl | hmem
      · exact hnot hv
      · exact h.new v (hcons ▸ List.mem_cons_of_mem _ hv) hmem
    · intro h
      refine ⟨hcons ▸ List.nodup_cons.mpr ⟨fun hmem => h.new _ hmem List.mem_cons_self, h.nodup⟩, ?_⟩
      rw [hcons]
      exact List.forall_mem_cons.mpr ⟨hnew, fun v hv hmem => h.new v hv (List.mem_cons_of_mem _ hmem)⟩
  | pass hl =>
    have hcons : g.loopVisits ((id, left) :: visits) = g.loopVisits visits := by simp [loopVisits, hn, hl]
    exact ⟨fun h => ⟨hcons ▸ h.nodup, hcons ▸ h.new⟩, fun h => ⟨hcons ▸ h.nodup, hcons ▸ h.new⟩⟩

/-- The first path from a node goes along the first arc from which there is a path, and on along the first path from
there. -/
theorem cons_mem_lowerBounds {wildcards : Bool} {spoken rest : List String} {index next : Nat} {arcs : List Nat}
    (hn : g.nodes[id]? = some node) (he : Search.Entered node (id, spoken.length) before after)
    (hend : ¬(id = g.stop ∧ spoken = [])) (htake : node.kind.take wildcards spoken = some rest)
    (hnext : node.arcs[index]? = some next) (hleast : arcs ∈ lowerBounds (g.freshPaths wildcards after next rest))
    (hnone : ∀ j earlier, j < index → node.arcs[j]? = some earlier → g.freshPaths wildcards after earlier rest = ∅) :
    index :: arcs ∈ lowerBounds (g.freshPaths wildcards before id spoken) := by
  rintro arcs' ⟨visits', fs', hp', hfresh'⟩
  cases hp' with
  | stop _ => exact absurd ⟨rfl, rfl⟩ hend
  | @step _ _ _ _ index' next' arcs' visits' fs' hn' htake' hnext' hp' =>
    obtain rfl := Option.some.inj (hn.symm.trans hn')
    obtain rfl := Option.some.inj (htake.symm.trans htake')
    have hlater : arcs' ∈ g.freshPaths wildcards after next' rest :=
      ⟨visits', fs', hp', (fresh_cons_iff hn he).mp hfresh'⟩
    rcases Nat.lt_trichotomy index index' with hlt | rfl | hlt
    · exact le_of_lt (List.Lex.rel hlt)
    · obtain rfl := Option.some.inj (hnext.symm.trans hnext')
      exact List.cons_le_cons index (hleast hlater)
    · exact absurd (hnone index' next' hlt hnext' ▸ hlater) (Set.notMem_empty _)

end Graph

namespace Search

variable {g : Graph} {o : SearchOptions}

/-- Only loop entries are visited. -/
theorem Entered.forall_loopEntry {before after : List (Nat × Nat)} {node : Node} {id left : Nat}
    (he : Entered node (id, left) before after) (hn : g.nodes[id]? = some node) (h : ∀ v ∈ before, g.LoopEntry v.1) :
    ∀ v ∈ after, g.LoopEntry v.1 := by
  cases he with
  | loop hl _ => exact List.forall_mem_cons.mpr ⟨⟨node, hn, hl⟩, h⟩
  | pass _ => exact h

/-- A search that fails without having met a limit leaves no path that does not come back. -/
theorem Blocked.freshPaths_eq {wildcards : Bool} {visits : List (Nat × Nat)} {id : Nat} {spoken : List String}
    (h : Blocked g wildcards visits id spoken) (hv : ∀ v ∈ visits, g.LoopEntry v.1) :
    g.freshPaths wildcards visits id spoken = ∅ := by
  refine Set.eq_empty_iff_forall_notMem.mpr ?_
  rintro arcs ⟨trace, fs, hp, hfresh⟩
  obtain ⟨v, htrace, hmem⟩ := h arcs trace fs hp
  exact hfresh.new v (Graph.mem_loopVisits.mpr ⟨htrace, hv v hmem⟩) hmem

/-- **A search that succeeds has followed the first path** of those that do not come back. -/
theorem first_of_walk : ∀ {depth id : Nat} {s t : SearchState}, walk g o depth id s = (true, t) → s.fragments = [] →
    (∀ v ∈ s.visits, g.LoopEntry v.1) →
    ∃ arcs visits, g.Path o.wildcards arcs visits id s.rest t.fragments ∧ g.Fresh s.visits visits ∧
      arcs ∈ lowerBounds (g.freshPaths o.wildcards s.visits id s.rest)
  | 0, _, _, _, h, _, _ => by cases h
  | depth + 1, id, s, t, h, hs, hvisits => by
    rw [walk] at h
    split at h
    · cases h
    · obtain ⟨node, u, v, hn, hv, hrest, hu, ht, he⟩ := enter_true h
      rw [ht]
      dsimp only at hrest hu he
      have hloops := he.forall_loopEntry hn hvisits
      rcases visit_true (walk_restores depth) hv with ⟨rfl, hend, rfl⟩ |
        ⟨hend, rest, index, next, u', v', htake, hnext, hr, hw, rfl, htried⟩
      · rw [hrest] at hend
        rw [hend] at he ⊢
        refine ⟨[], [(g.stop, 0)], ?_, (Graph.fresh_cons_iff hn he).mpr Graph.fresh_nil,
          fun arcs _ => not_lt.mp (List.not_lt_nil arcs)⟩
        rw [SearchState.push, hu, hs]
        exact .stop hn
      · obtain ⟨arcs, visits, hp, hfresh, hleast⟩ :=
          first_of_walk hw (hr.fragments.trans (hu.trans hs)) (hr.visits ▸ hloops)
        simp only [hr.rest, hr.visits] at hp hfresh hleast
        rw [hrest] at htake hend
        refine ⟨index :: arcs, (id, s.rest.length) :: visits, .step hn htake hnext hp,
          (Graph.fresh_cons_iff hn he).mpr hfresh,
          Graph.cons_mem_lowerBounds hn he hend htake hnext hleast fun j earlier hj hearlier => ?_⟩
        -- there was no path along this arc, since the search along it failed
        obtain ⟨u'', v'', hr'', hw'', hex⟩ := htried j earlier hj hearlier
        have hnone := (blocked_of_walk hw'' hex).freshPaths_eq (hr''.visits ▸ hloops)
        rwa [hr''.rest, hr''.visits] at hnone

end Search

/-! ## What is read off a path -/

namespace NodeKind

/-- The value of a tag. -/
def tagValues : NodeKind → (index : Nat) → List String
  | .tag value, _ => [value]
  | _, _ => []

/-- The words of a token, as they are written. -/
def tokenWords : NodeKind → (index : Nat) → List String
  | .token text _, _ => Text.words text
  | _, _ => []

/-- The number of the arc that is taken where alternatives start. -/
def branchTaken : NodeKind → (index : Nat) → List Nat
  | .startAlternatives _, index => [index]
  | _, _ => []

end NodeKind

namespace ParseTree

theorem tagsAll_eq_flatMap : ∀ ts : List ParseTree, tagsAll ts = ts.flatMap tags
  | [] => rfl
  | t :: ts => by rw [tagsAll, tagsAll_eq_flatMap ts, List.flatMap_cons]

theorem tokensAll_eq_flatMap : ∀ ts : List ParseTree, tokensAll ts = ts.flatMap tokens
  | [] => rfl
  | t :: ts => by rw [tokensAll, tokensAll_eq_flatMap ts, List.flatMap_cons]

theorem choicesAll_eq_flatMap : ∀ ts : List ParseTree, choicesAll ts = ts.flatMap choices
  | [] => rfl
  | t :: ts => by rw [choicesAll, choicesAll_eq_flatMap ts, List.flatMap_cons]

end ParseTree

namespace Graph

theorem collects_tags : Collects NodeKind.tagValues ParseTree.tags where
  token _ _ _ := rfl
  tag _ _ := rfl
  gather h := by
    obtain ⟨_, _, _, rfl, rfl, rfl⟩ | ⟨_, _, rfl, rfl, rfl⟩ | ⟨_, rfl | rfl, rfl⟩ := NodeKind.gather_cases h <;>
      simp [ParseTree.tags, NodeKind.tagValues, ParseTree.tagsAll_eq_flatMap]
  isEnd {last} _ h := by cases last <;> first | rfl | cases h

theorem collects_tokens : Collects NodeKind.tokenWords ParseTree.tokens where
  token _ _ _ := rfl
  tag _ _ := rfl
  gather h := by
    obtain ⟨_, _, _, rfl, rfl, rfl⟩ | ⟨_, _, rfl, rfl, rfl⟩ | ⟨_, rfl | rfl, rfl⟩ := NodeKind.gather_cases h <;>
      simp [ParseTree.tokens, NodeKind.tokenWords, ParseTree.tokensAll_eq_flatMap]
  isEnd {last} _ h := by cases last <;> first | rfl | cases h

theorem collects_choices : Collects NodeKind.branchTaken ParseTree.choices where
  token _ _ _ := rfl
  tag _ _ := rfl
  gather h := by
    obtain ⟨_, _, _, rfl, rfl, rfl⟩ | ⟨_, _, rfl, rfl, rfl⟩ | ⟨_, rfl | rfl, rfl⟩ := NodeKind.gather_cases h <;>
      simp [ParseTree.choices, NodeKind.branchTaken, ParseTree.choicesAll_eq_flatMap]
  isEnd {last} _ h := by cases last <;> first | rfl | cases h

variable {g : Graph} {steps : List (Nat × Nat)} {p : Parse}

/-- The parse is read off the steps of a walk from the start: the tree from the steps and the final node, its tags, its
words and the numbers of its branches from the nodes that are passed and the arcs taken there. -/
structure ReadOff (g : Graph) (steps : List (Nat × Nat)) (p : Parse) : Prop where
  tree : g.Reads (steps ++ [(g.stop, 0)]) [p.tree]
  tags : p.tags = g.along NodeKind.tagValues steps
  tokens : p.tokens = g.along NodeKind.tokenWords steps
  choices : p.body.choices = g.along NodeKind.branchTaken steps

/-- What the tree has is what the steps have. -/
theorem readOff_of_reads (h : g.Reads (steps ++ [(g.stop, 0)]) [p.tree]) {last : NodeKind}
    (hlast : g.kind? g.stop = some last) (hend : last.isEnd = true) : g.ReadOff steps p := by
  have halong : ∀ {α : Type} {find : NodeKind → Nat → List α} {collect : ParseTree → List α}, Collects find collect →
      collect p.tree = g.along find steps := by
    intro α find collect hf
    have hall := h.along_eq hf
    rwa [List.flatMap_singleton, along_append, along_cons hlast, hf.isEnd 0 hend, List.nil_append, along_nil,
      List.append_nil] at hall
  exact ⟨h, halong collects_tags, halong collects_tokens, halong collects_choices⟩

end Graph

/-! ## The parse that is returned -/

section

variable {name : String} {body : Pattern} {spoken : List String} {o : SearchOptions}

/-- The parse that a search returns is read off the path that it followed. -/
theorem readOff_of_path (hb : body.Ordered) {t : SearchState} {arcs : List Nat} {visits : List (Nat × Nat)}
    (hp : (ruleGraph name body).Path o.wildcards arcs visits (ruleGraph name body).start spoken t.fragments) :
    ∃ p, t.parse? = some p ∧ (ruleGraph name body).ReadOff (Graph.stepsOf arcs visits) p := by
  have hg := ruleGraph_holds name body
  have hlast := Graph.kind?_of_node hg.tail.head
  obtain ⟨inner, tree, hsteps, -, hr⟩ := reads_of_walk hb hp.walk
  obtain ⟨-, hfs⟩ := tree_of_path hr hp hsteps
  refine ⟨⟨name, tree⟩, by rw [SearchState.parse?, hfs], Graph.readOff_of_reads ?_ hlast rfl⟩
  rw [hsteps]
  exact .brackets (Graph.kind?_of_node hg.head) hlast rfl hr rfl .nil

end

namespace Environment

variable {env : Environment} {name : String} {g : Graph} {spoken : List String} {o : SearchOptions}

/-- **The first parse is returned.** Consider the walks from the start to the end on which each token takes words that fit
it, all words are taken, and no loop entry is entered twice with the same words left. A search that meets no limit
returns the parse that is read off the one whose arcs are lexicographically least, and none only if there is no such
walk. -/
theorem parse_first (h : env.compile name = .ok g) (hlimits : g.StaysWithinLimits spoken o) :
    match g.parse spoken o with
    | some p => ∃ arcs visits fs, g.Path o.wildcards arcs visits g.start (spoken.map Text.lower) fs ∧
        (g.loopVisits visits).Nodup ∧
        arcs ∈ lowerBounds (g.freshPaths o.wildcards [] g.start (spoken.map Text.lower)) ∧
        g.ReadOff (Graph.stepsOf arcs visits) p
    | none => g.freshPaths o.wildcards [] g.start (spoken.map Text.lower) = ∅ := by
  obtain ⟨_, body, -, rfl, hb, -⟩ := compile_represents h
  rw [Graph.parse_eq]
  cases hfound : ((ruleGraph name body).search spoken o).1 with
  | true =>
    obtain ⟨arcs, visits, hp, hfresh, hleast⟩ := Search.first_of_walk (Prod.ext hfound rfl) rfl (List.forall_mem_nil _)
    obtain ⟨p, hparse, hread⟩ := readOff_of_path hb hp
    rw [if_pos rfl, Graph.search, hparse]
    exact ⟨arcs, visits, _, hp, hfresh.nodup, hleast, hread⟩
  | false =>
    exact (Search.blocked_of_walk (Prod.ext hfound rfl) hlimits).freshPaths_eq (List.forall_mem_nil _)

theorem lamps_parse_first :
    lamps.compile "switch" = .ok lampsGraph ∧ lampsGraph.StaysWithinLimits lampsWords default ∧
      lampsGraph.parse lampsWords default = some lampsParse ∧
      ∃ arcs visits fs, lampsGraph.Path true arcs visits lampsGraph.start (lampsWords.map Text.lower) fs ∧
        (lampsGraph.loopVisits visits).Nodup ∧
        arcs ∈ lowerBounds (lampsGraph.freshPaths true [] lampsGraph.start (lampsWords.map Text.lower)) ∧
        lampsGraph.ReadOff (Graph.stepsOf arcs visits) lampsParse := by
  have hg : lamps.compile "switch" = .ok lampsGraph := by cbv
  have hp : lampsGraph.parse lampsWords default = some lampsParse := by cbv
  have hlimits : lampsGraph.StaysWithinLimits lampsWords default := by
    unfold Graph.StaysWithinLimits
    decide +kernel
  have hfirst := parse_first hg hlimits
  rw [hp] at hfirst
  exact ⟨hg, hlimits, hp, hfirst⟩

end Environment

end SpeechGrammar
