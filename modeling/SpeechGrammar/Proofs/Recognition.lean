import Mathlib
import SpeechGrammar.Proofs.LayoutPaths
import SpeechGrammar.Proofs.SearchPaths
import SpeechGrammar.Proofs.Wildcards

/-!
# Compiling and searching recognise the language of a rule

A rule that can be compiled gives a graph, and a search of this graph

* returns only trees of the rule whose tokens fit the spoken words (**`parse_derives`**), whatever the limits are;
* finds a parse if and only if the spoken words are in the language of the rule (**`parse_isSome_iff_accepts`**), unless
  it meets a limit.

Both hold in every environment, so in particular for every state that a workspace can come to. They put three parts
together: references are inlined without a change to the trees (`Inlining`), a walk through a layout is read as a tree of
its pattern and every tree is on a path (`LayoutWalks`, `LayoutPaths`), and a search finds a path if there is one
(`SearchPaths`).
-/

namespace SpeechGrammar

open Search (FitsAll)

/-- Words of the grammar fit spoken words that are in lower case already. -/
theorem fitsAll_lower_iff {wildcards : Bool} {words spoken : List String} :
    FitsAll wildcards words (spoken.map Text.lower) ↔ List.Forall₂ (Fits wildcards) words spoken := by
  unfold Search.FitsAll
  rw [List.forall₂_map_right_iff]
  simp only [fits_lower_iff]

/-! ## The graph of a rule -/

section

variable {name : String} {body : Pattern} {wildcards : Bool} {spoken : List String}

/-- A walk through the graph of a rule is read as a tree of the body, after the node where the rule starts. -/
theorem reads_of_walk (hb : body.Ordered) {steps : List (Nat × Nat)}
    (hw : (ruleGraph name body).Walk (ruleGraph name body).start steps) :
    ∃ inner t, steps = ((ruleGraph name body).start, 0) :: inner ∧ body.Derives t ∧
      (ruleGraph name body).Reads inner [t] := by
  have hg := ruleGraph_holds name body
  obtain ⟨index, next, steps, ha, hw, rfl⟩ := hw.step_of_ne Nat.zero_ne_one hg.head
  obtain ⟨rfl, rfl⟩ : index = 0 ∧ next = 2 := by
    cases index <;> simp_all
  obtain ⟨t, ht, inner, rest, next, rfl, hinner, hnext, hw⟩ :=
    Pattern.readable_of_ordered hb 2 [1] false (Nat.le_refl 2) hg.tail.tail steps hw
  obtain rfl : next = 1 := List.mem_singleton.mp hnext
  cases hw with
  | stop => exact ⟨inner, t, by rw [List.append_nil], ht, hinner⟩
  | step hn ha _ =>
    -- no arc leads out of the final node
    rw [hg.tail.head] at hn
    cases hn
    simp at ha

/-- A walk through the graph of a rule is read as a tree of the rule, once the final node is passed as well. -/
theorem reads_rule_of_walk (hb : body.Ordered) {steps : List (Nat × Nat)}
    (hw : (ruleGraph name body).Walk (ruleGraph name body).start steps) :
    ∃ t, (ruleGraph name body).Reads (steps ++ [((ruleGraph name body).stop, 0)]) [.rule name t] := by
  have hg := ruleGraph_holds name body
  obtain ⟨inner, t, rfl, -, hr⟩ := reads_of_walk hb hw
  exact ⟨t, .brackets (Graph.kind?_of_node hg.head) (Graph.kind?_of_node hg.tail.head) rfl hr rfl .nil⟩

/-- A path along such a walk takes the words of the tree, and it leaves this tree alone. -/
theorem tree_of_path {inner : List (Nat × Nat)} {t : ParseTree} (hr : (ruleGraph name body).Reads inner [t])
    {arcs : List Nat} {visits : List (Nat × Nat)} {fs : List Fragment}
    (hp : (ruleGraph name body).Path wildcards arcs visits (ruleGraph name body).start spoken fs)
    (hsteps : Graph.stepsOf arcs visits = ((ruleGraph name body).start, 0) :: inner) :
    FitsAll wildcards t.tokens spoken ∧ fs = [.node (.rule name t)] := by
  have hg := ruleGraph_holds name body
  have hrest : (ruleGraph name body).RestOf wildcards (((ruleGraph name body).start, 0) :: inner) spoken fs :=
    ⟨arcs, visits, _, hp, hsteps⟩
  obtain ⟨left, gs, htake, rfl, hinner⟩ := hrest.step (Graph.kind?_of_node hg.head)
  obtain rfl : spoken = left := Option.some.inj htake
  rw [← List.append_nil inner] at hinner
  obtain ⟨front, rest, fs', rfl, hf, rfl, arcs', visits', id, hend, hnil⟩ := hr.restOf hinner
  rw [ParseTree.tokensAll_singleton] at hf
  cases hend with
  | stop _ =>
    refine ⟨by rwa [List.append_nil], ?_⟩
    exact congrArg (· :: []) (congrArg Fragment.node rfl)
  | step _ _ _ _ => cases hnil

/-- A path through the graph of a rule takes the words of a tree of the body, and it leaves this tree alone. -/
theorem derives_of_path (hb : body.Ordered) {arcs : List Nat} {visits : List (Nat × Nat)} {fs : List Fragment}
    (hp : (ruleGraph name body).Path wildcards arcs visits (ruleGraph name body).start spoken fs) :
    ∃ t, body.Derives t ∧ FitsAll wildcards t.tokens spoken ∧ fs = [.node (.rule name t)] := by
  obtain ⟨inner, t, hsteps, ht, hr⟩ := reads_of_walk hb hp.walk
  exact ⟨t, ht, tree_of_path hr hp hsteps⟩

/-- For every tree of the body there is a path. -/
theorem enters_of_derives (name : String) {t : ParseTree} (ht : body.Derives t)
    (hf : FitsAll wildcards t.tokens spoken) :
    ∃ fs, (ruleGraph name body).Enters wildcards (ruleGraph name body).start spoken fs := by
  have hg := ruleGraph_holds name body
  have hstop : (ruleGraph name body).Enters wildcards 1 [] [.mark 1] := ⟨_, _, .stop hg.tail.head⟩
  obtain ⟨as, visits, hp⟩ :=
    Pattern.complete body 2 [1] false hg.tail.tail t ht spoken hf 1 (List.mem_singleton.mpr rfl)
    _ _ hstop
  rw [List.append_nil] at hp
  exact ⟨_, _, _, .step hg.head rfl (show [2][0]? = some 2 from rfl) hp⟩

end

/-! ## Searching for a parse -/

namespace Graph

/-- The search for a parse of the spoken words: whether it succeeds, and where it ends. -/
def search (g : Graph) (spoken : List String) (o : SearchOptions) : Bool × SearchState :=
  Search.walk g o o.maxDepth g.start (.initial (spoken.map Text.lower))

/-- The search for a parse meets none of its limits. -/
def StaysWithinLimits (g : Graph) (spoken : List String) (o : SearchOptions) : Prop :=
  (g.search spoken o).2.exhausted = false

theorem parse_eq (g : Graph) (spoken : List String) (o : SearchOptions) :
    g.parse spoken o = if (g.search spoken o).1 then (g.search spoken o).2.parse? else none := by
  unfold parse search
  split <;> simp_all

end Graph

section

variable {name : String} {body : Pattern} {spoken : List String} {o : SearchOptions}

/-- A search of the graph of a rule that succeeds returns a parse with a tree of the body. -/
theorem parse_of_search (hb : body.Ordered) (h : ((ruleGraph name body).search spoken o).1 = true) :
    ∃ t, body.Derives t ∧ FitsAll o.wildcards t.tokens (spoken.map Text.lower) ∧
      (ruleGraph name body).parse spoken o = some ⟨name, t⟩ := by
  obtain ⟨arcs, visits, hp⟩ := Search.path_of_walk (Prod.ext h rfl) rfl
  obtain ⟨t, ht, hf, hfs⟩ := derives_of_path hb hp
  refine ⟨t, ht, hf, ?_⟩
  rw [Graph.parse_eq, if_pos h]
  unfold SearchState.parse?
  rw [show ((ruleGraph name body).search spoken o).2.fragments = _ from hfs]

/-- A search of the graph of a rule that meets no limit succeeds if the words fit a tree of the body. -/
theorem search_of_derives (hlimits : (ruleGraph name body).StaysWithinLimits spoken o) {t : ParseTree}
    (ht : body.Derives t) (hf : FitsAll o.wildcards t.tokens (spoken.map Text.lower)) :
    ((ruleGraph name body).search spoken o).1 = true := by
  by_contra h
  have hblocked := Search.blocked_of_walk (Prod.ext ((Bool.not_eq_true _).mp h) rfl) hlimits
  obtain ⟨fs, arcs, visits, hp⟩ := enters_of_derives name ht hf
  obtain ⟨v, -, hv⟩ := hblocked _ _ _ hp
  cases hv

end

/-! ## Rules that can be compiled -/

namespace Environment

variable {env : Environment} {name : String} {g : Graph}

/-- The graph of a compiled rule is that of a pattern that stands for the body. -/
theorem compile_represents (h : env.compile name = .ok g) :
    ∃ rule body, env.start.rule? name = some rule ∧ g = ruleGraph name body ∧
      Represents env env.start.name rule.body body := by
  obtain ⟨body, hbody, rfl⟩ := ok_of_map_eq_ok h
  obtain ⟨rule, hr, hrep⟩ := pattern_represents hbody
  exact ⟨rule, body, hr, rfl, hrep⟩

variable {spoken : List String} {o : SearchOptions}

/-! ## A rule with a loop in a loop

The inner repetition may take nothing, and so it does once more before the outer loop is left. -/

/-- Lamps that are switched politely; the names of the lamps are in another grammar. -/
def lamps : Environment where
  start :=
    ⟨"lamps", none,
      [⟨⟨"switch", true, .sequence [.count (.reference ⟨"polite", none⟩) 0 .indefinite none, .token "Turn on",
          .reference ⟨"lamp", some "names"⟩]⟩, 0, true⟩,
       ⟨⟨"polite", false, .count (.sequence [.token "please", .tag "POLITE"]) 0 (.finite 2) none⟩, 1, false⟩],
      none, 2, 1⟩
  others :=
    [⟨"names", none, [⟨⟨"lamp", true, .alternatives [.token "Red", .token "green"] none⟩, 0, true⟩], none, 1, 1⟩]

/-- The graph of the first of the rules. -/
def lampsGraph : Graph :=
  ruleGraph "switch" (.sequence
    [.count (.rule "polite" (.count (.sequence [.token "please", .tag "POLITE"]) 0 (.finite 2))) 0 .indefinite,
     .token "Turn on", .rule "lamp" (.alternatives [.token "Red", .token "green"])])

/-- Words that fit it, one of them a wildcard. -/
def lampsWords : List String := ["please", "PLEASE", "turn", "%", "red"]

/-- The only parse of these words that takes each loop as often as it can. -/
def lampsParse : Parse where
  rule := "switch"
  body :=
    .sequence
      [.sequence
        [.rule "polite" (.sequence [.sequence [.token "please", .tag "POLITE"],
          .sequence [.token "please", .tag "POLITE"]]),
         .rule "polite" (.sequence [])],
       .token "Turn on", .rule "lamp" (.alternative 0 (.token "Red"))]

/-! ## Recognition -/

/-- **Every parse that is returned is a derivation of the rule.** It has the name of the rule and a tree of its body, and
the tokens of the tree have as many words as were spoken, each of which fits the one in its place. -/
theorem parse_derives (h : env.compile name = .ok g) {p : Parse} (hp : g.parse spoken o = some p) :
    p.rule = name ∧ (∃ rule, env.start.rule? name = some rule ∧ env.Derives env.start.name rule.body p.body) ∧
      List.Forall₂ (Fits o.wildcards) p.tokens spoken := by
  obtain ⟨rule, body, hr, rfl, hb, hrep⟩ := compile_represents h
  have hfound : ((ruleGraph name body).search spoken o).1 = true := by
    by_contra hne
    rw [Graph.parse_eq, if_neg hne] at hp
    cases hp
  obtain ⟨t, ht, hf, heq⟩ := parse_of_search hb hfound
  rw [heq, Option.some.injEq] at hp
  subst hp
  exact ⟨rfl, ⟨rule, hr, (hrep t).mp ht⟩, fitsAll_lower_iff.mp hf⟩

theorem lamps_parse_derives :
    lamps.compile "switch" = .ok lampsGraph ∧ lampsGraph.parse lampsWords default = some lampsParse ∧
      lampsParse.rule = "switch" ∧
      (∃ rule, lamps.start.rule? "switch" = some rule ∧ lamps.Derives "lamps" rule.body lampsParse.body) ∧
      List.Forall₂ (Fits true) lampsParse.tokens lampsWords := by
  have hg : lamps.compile "switch" = .ok lampsGraph := by cbv
  have hp : lampsGraph.parse lampsWords default = some lampsParse := by cbv
  exact ⟨hg, hp, parse_derives hg hp⟩

/-- **A search finds a parse if and only if the spoken words are in the language of the rule**, provided that it meets
none of its limits. -/
theorem parse_isSome_iff_accepts (h : env.compile name = .ok g) (hlimits : g.StaysWithinLimits spoken o) :
    (g.parse spoken o).isSome = true ↔
      ∃ rule, env.start.rule? name = some rule ∧ env.Accepts o.wildcards env.start.name rule.body spoken := by
  obtain ⟨rule, body, hr, rfl, hb, hrep⟩ := compile_represents h
  constructor
  · intro hsome
    have hfound : ((ruleGraph name body).search spoken o).1 = true := by
      by_contra hne
      rw [Graph.parse_eq, if_neg hne] at hsome
      cases hsome
    obtain ⟨t, ht, hf, -⟩ := parse_of_search hb hfound
    exact ⟨rule, hr, accepts_iff_exists_derives.mpr ⟨t, (hrep t).mp ht, fitsAll_lower_iff.mp hf⟩⟩
  · rintro ⟨rule', hr', haccepts⟩
    rw [hr, Option.some.injEq] at hr'
    subst hr'
    obtain ⟨t, ht, hf⟩ := accepts_iff_exists_derives.mp haccepts
    have hfound := search_of_derives hlimits ((hrep t).mpr ht) (fitsAll_lower_iff.mpr hf)
    obtain ⟨u, -, -, heq⟩ := parse_of_search hb hfound
    rw [heq]
    rfl

theorem lamps_parse_isSome_iff_accepts :
    lamps.compile "switch" = .ok lampsGraph ∧ lampsGraph.StaysWithinLimits lampsWords default ∧
      ((lampsGraph.parse lampsWords default).isSome = true ↔
        ∃ rule, lamps.start.rule? "switch" = some rule ∧ lamps.Accepts true "lamps" rule.body lampsWords) := by
  have hg : lamps.compile "switch" = .ok lampsGraph := by cbv
  have hlimits : lampsGraph.StaysWithinLimits lampsWords default := by
    unfold Graph.StaysWithinLimits
    decide +kernel
  exact ⟨hg, hlimits, parse_isSome_iff_accepts hg hlimits⟩

end Environment

end SpeechGrammar
