import SpeechGrammar.Proofs.Termination

/-!
# Searching for the words of a parse

The words of a parse can be spoken in their turn. They are the words of the grammar that the first search has taken, so
wildcards and other capitals are gone, and every word fits at most what the spoken one in its place fits. So the second
search is never further than the first: where the first one fails the second one fails as well, with no more calls and no
longer paths (**`Search.Explores.narrowed`**), and where the first one succeeds the second one goes the same way
(**`Search.Explores.retraced`**). It finds the same parse within the same limits (**`Environment.parse_own_words`**).
-/

namespace SpeechGrammar

namespace Search

variable {wildcards : Bool}

/-! ## Words in the place of spoken words -/

/-- The words can be spoken in the place of the others: each of them fits the one in its place. -/
def StandsFor (wildcards : Bool) (words spoken : List String) : Prop :=
  List.Forall₂ (fun w s => fits wildcards w s = true) words spoken

theorem fits_self (wildcards : Bool) (word : String) : fits wildcards word word = true := by simp [fits]

/-- What a word fits fits whatever that fits: a wildcard in the middle leads from one wildcard to another. -/
theorem fits_trans {word between spoken : String} (h : fits wildcards word between = true)
    (h' : fits wildcards between spoken = true) : fits wildcards word spoken = true := by
  simp only [fits, Bool.or_eq_true, Bool.and_eq_true, beq_iff_eq] at h h' ⊢
  rcases h with rfl | ⟨hwild, hbetween⟩
  · exact h'
  · rcases h' with rfl | ⟨-, hspoken⟩
    · exact .inr ⟨hwild, hbetween⟩
    · exact .inr ⟨hwild, hspoken⟩

variable {words own spoken left rest : List String}

theorem standsFor_self (wildcards : Bool) (words : List String) : StandsFor wildcards words words :=
  List.forall₂_same.mpr fun word _ => fits_self wildcards word

theorem StandsFor.trans (h : StandsFor wildcards words own) (h' : StandsFor wildcards own spoken) :
    StandsFor wildcards words spoken := by
  induction h generalizing spoken with
  | nil => exact h'
  | cons hword _ ih =>
    cases h' with
    | cons hown h' => exact .cons (fits_trans hword hown) (ih h')

/-- Without wildcards only the same words can be spoken. -/
theorem standsFor_false_iff : StandsFor false words spoken ↔ words = spoken := by
  have hfits : (fun w s : String => fits false w s = true) = Eq := by
    funext w s
    simp [fits]
  rw [StandsFor, hfits, List.forall₂_eq_eq_eq]

/-- Without wildcards words of the grammar fit nothing but themselves in lower case. -/
theorem fitsAll_false_iff : FitsAll false words spoken ↔ spoken = words.map Text.lower := by
  have h : FitsAll false words spoken ↔ StandsFor false (words.map Text.lower) spoken := by
    rw [FitsAll, StandsFor, List.forall₂_map_left_iff]
  rw [h, standsFor_false_iff, eq_comm]

end Search

namespace NodeKind

variable {wildcards : Bool} {kind : NodeKind} {own spoken left rest : List String}

/-- What a node takes of words, it would take of those in whose place they stand. -/
theorem take_of_standsFor (h : Search.StandsFor wildcards own spoken) (htake : kind.take wildcards own = some left) :
    ∃ rest, kind.take wildcards spoken = some rest ∧ Search.StandsFor wildcards left rest := by
  cases kind with
  | token text words =>
    obtain ⟨front, rfl, hfront⟩ := Search.consume_eq_some_iff.mp htake
    obtain ⟨first, rest, rfl, hfirst, hrest⟩ := forall₂_append_iff.mp h
    exact ⟨rest, Search.consume_eq_some_iff.mpr ⟨first, rfl, Search.StandsFor.trans hfront hfirst⟩, hrest⟩
  | _ => cases htake; exact ⟨spoken, rfl, h⟩

/-- A node takes its own words in the place of those that it has taken, also without wildcards. -/
theorem exists_take_own (htake : kind.take wildcards spoken = some rest) (h : Search.StandsFor wildcards left rest) :
    ∃ own, Search.StandsFor wildcards own spoken ∧ ∀ wildcards, kind.take wildcards own = some left := by
  cases kind with
  | token text words =>
    obtain ⟨front, rfl, hfront⟩ := Search.consume_eq_some_iff.mp htake
    exact ⟨words ++ left, forall₂_append_iff.mpr ⟨front, rest, rfl, hfront, h⟩, fun wildcards =>
      Search.consume_eq_some_iff.mpr ⟨words, rfl, Search.standsFor_self wildcards words⟩⟩
  | _ => cases htake; exact ⟨left, h, fun _ => rfl⟩

end NodeKind

namespace Search

variable {g : Graph} {wildcards : Bool}

/-! ## Where the first search fails -/

/-- The second state is that of a search for words in the place of those of the first one, with no more calls so far. -/
structure Narrows (wildcards : Bool) (s s' : SearchState) : Prop where
  rest : StandsFor wildcards s'.rest s.rest
  fragments : s'.fragments = s.fragments
  visits : s'.visits = s.visits
  steps : s'.steps ≤ s.steps

namespace Narrows

variable {s s' t t' : SearchState}

theorem length_rest (h : Narrows wildcards s s') : s'.rest.length = s.rest.length := List.Forall₂.length_eq h.rest

theorem rest_eq_nil_iff (h : Narrows wildcards s s') : s'.rest = [] ↔ s.rest = [] := by
  rw [← List.length_eq_zero_iff, h.length_rest, List.length_eq_zero_iff]

theorem counted (h : Narrows wildcards s s') : Narrows wildcards s.counted s'.counted :=
  ⟨h.rest, h.fragments, h.visits, Nat.succ_le_succ h.steps⟩

theorem visiting (h : Narrows wildcards s s') (here : Nat × Nat) :
    Narrows wildcards (s.visiting here) (s'.visiting here) :=
  ⟨h.rest, h.fragments, congrArg (here :: ·) h.visits, h.steps⟩

theorem erase (h : Narrows wildcards s s') (here : Nat × Nat) :
    Narrows wildcards { s with visits := s.visits.erase here } { s' with visits := s'.visits.erase here } :=
  ⟨h.rest, h.fragments, congrArg (List.erase · here) h.visits, h.steps⟩

/-- Words are put in the place of others. -/
theorem withRest (h : Narrows wildcards s s') {rest rest' : List String} (hrest : StandsFor wildcards rest' rest) :
    Narrows wildcards { s with rest := rest } { s' with rest := rest' } := ⟨hrest, h.fragments, h.visits, h.steps⟩

end Narrows

/-- The second search comes to an end as well, in a state that is narrower and with no longer paths. -/
def Follower (wildcards : Bool) (explores : SearchState → Nat → Prop) (t : SearchState) (height : Nat) : Prop :=
  ∃ t' height', explores t' height' ∧ Narrows wildcards t t' ∧ height' ≤ height

/-- A node that is visited in vain leaves the state as it was. -/
theorem ExploresNode.restored {id height : Nat} {node : Node} {s t : SearchState}
    (h : ExploresNode g wildcards id node s false t height) (hs : s.exhausted = false) : s.Restored t :=
  visit_false_restored (walk_restores height) (h.visit_eq (o := ⟨none, height, wildcards⟩) hs
    (fun _ hmost => nomatch hmost) (Nat.le_refl height))

mutual

/-- **Where the first search fails the second one fails as well**, with no more calls and no longer paths. -/
theorem Explores.narrowed : ∀ {id : Nat} {s s' t : SearchState} {found : Bool} {height : Nat},
    Explores g wildcards id s found t height → found = false → s.exhausted = false → Narrows wildcards s s' →
    Follower wildcards (Explores g wildcards id s' false) t height
  | _, _, _, _, _, _, .missing hn, _, _, hw => ⟨_, 1, .missing hn, hw.counted, Nat.le_refl 1⟩
  | _, _, _, _, _, _, .returned hn hl hv, _, _, hw => by
    rw [← hw.length_rest, ← hw.visits] at hv
    exact ⟨_, 1, .returned hn hl hv, hw.counted, Nat.le_refl 1⟩
  | id, s, s', _, _, _, .looped hn hl hv h, hf, hs, hw => by
    obtain ⟨t', height', h', ht, hle⟩ := h.narrowed hf hs (hw.counted.visiting (id, s.rest.length))
    rw [← hw.length_rest] at h' hv ⊢
    rw [← hw.visits] at hv
    exact ⟨_, height' + 1, .looped hn hl hv h', ht.erase _, Nat.succ_le_succ hle⟩
  | _, _, _, _, _, _, .passed hn hl h, hf, hs, hw => by
    obtain ⟨t', height', h', ht, hle⟩ := h.narrowed hf hs hw.counted
    exact ⟨t', height' + 1, .passed hn hl h', ht, Nat.succ_le_succ hle⟩

theorem ExploresNode.narrowed : ∀ {id : Nat} {node : Node} {s s' t : SearchState} {found : Bool} {height : Nat},
    ExploresNode g wildcards id node s found t height → found = false → s.exhausted = false → Narrows wildcards s s' →
    Follower wildcards (ExploresNode g wildcards id node s' false) t height
  | _, _, _, _, _, _, _, .stop _, hf, _, _ => nomatch hf
  | _, _, _, _, _, _, _, .found _ _ _, hf, _, _ => nomatch hf
  | id, node, s, s', _, _, _, .refused hend htake, _, _, hw => by
    have hend' : ¬(id = g.stop ∧ s'.rest = []) := (and_congr_right' hw.rest_eq_nil_iff).not.mpr hend
    have htake' : node.kind.take wildcards s'.rest = none := by
      by_contra hsome
      obtain ⟨left, hleft⟩ := Option.ne_none_iff_exists'.mp hsome
      obtain ⟨rest, hrest, -⟩ := NodeKind.take_of_standsFor hw.rest hleft
      exact nomatch htake.symm.trans hrest
    exact ⟨s', 0, .refused hend' htake', hw, Nat.le_refl 0⟩
  | id, node, s, s', _, _, height, .failed hend htake h, _, hs, hw => by
    have hend' : ¬(id = g.stop ∧ s'.rest = []) := (and_congr_right' hw.rest_eq_nil_iff).not.mpr hend
    cases htake' : node.kind.take wildcards s'.rest with
    | none =>
      -- the second search does not come this far
      have hfailed := ExploresNode.failed hend htake h
      have hr := hfailed.restored hs
      exact ⟨s', 0, .refused hend' htake',
        ⟨hw.rest, hw.fragments.trans hr.fragments.symm, hw.visits.trans hr.visits.symm,
          Nat.le_trans hw.steps hfailed.counts.1⟩,
        Nat.zero_le height⟩
    | some left =>
      obtain ⟨rest', hrest', hleft⟩ := NodeKind.take_of_standsFor hw.rest htake'
      obtain rfl := Option.some.inj (htake.symm.trans hrest')
      obtain ⟨t', height', h', ht, hle⟩ := h.narrowed rfl hs (hw.withRest hleft)
      exact ⟨_, height', .failed hend' htake' h', ht.withRest hw.rest, hle⟩

theorem ExploresArcs.narrowed : ∀ {arcs : List Nat} {index : Nat} {s s' t : SearchState} {taken : Option Nat}
    {height : Nat}, ExploresArcs g wildcards arcs index s taken t height → taken = none → s.exhausted = false →
    Narrows wildcards s s' → Follower wildcards (ExploresArcs g wildcards arcs index s' none) t height
  | _, _, _, s', _, _, _, .nil, _, _, hw => ⟨s', 0, .nil, hw, Nat.le_refl 0⟩
  | _, _, _, _, _, _, _, .found _, hnone, _, _ => nomatch hnone
  | _, _, _, _, _, _, _, .later h hlater, hnone, hs, hw => by
    obtain ⟨t', height', h', ht, hle⟩ := h.narrowed rfl hs hw
    obtain ⟨u', height'', hlater', hu, hle'⟩ := hlater.narrowed hnone (h.counts.2.trans hs) (ht.withRest hw.rest)
    exact ⟨u', max height' height'', .later h' hlater', hu, max_le_max hle hle'⟩

end

/-! ## Where the first search succeeds -/

/-- The first search has gone on, from `s` to `t`, along a path that takes certain words, which may be in the place of
those it has found, and a search for these words goes on along the same path. -/
def Retraced (wildcards : Bool) (enters : List String → List Fragment → Prop)
    (explores : SearchState → SearchState → Nat → Prop) (s t : SearchState) (height : Nat) : Prop :=
  ∃ own, StandsFor wildcards own s.rest ∧ enters own t.fragments ∧
    ∀ s', Narrows wildcards s s' → s'.rest = own →
      ∃ t' height', explores s' t' height' ∧ t'.fragments = t.fragments ∧ t'.steps ≤ t.steps ∧ height' ≤ height

mutual

/-- **Where the first search succeeds the second one goes the same way**, with no more calls and no longer paths. The
words are those of the path, so it takes them without wildcards. -/
theorem Explores.retraced : ∀ {id : Nat} {s t : SearchState} {found : Bool} {height : Nat},
    Explores g wildcards id s found t height → found = true → s.exhausted = false → s.fragments = [] →
    Retraced wildcards (g.Enters false id) (Explores g wildcards id · true) s t height
  | _, _, _, _, _, .missing _, hf, _, _ => nomatch hf
  | _, _, _, _, _, .returned _ _ _, hf, _, _ => nomatch hf
  | id, s, _, _, _, .looped hn hl hv h, hf, hs, hnil => by
    obtain ⟨own, hown, henters, hgo⟩ := h.retraced hn hf hs hnil
    refine ⟨own, hown, henters, fun s' hw hrest => ?_⟩
    obtain ⟨t', height', h', ht, hsteps, hle⟩ := hgo _ (hw.counted.visiting (id, s.rest.length)) hrest
    rw [← hw.length_rest] at h' hv
    rw [← hw.visits] at hv
    exact ⟨_, height' + 1, .looped hn hl hv h', ht, hsteps, Nat.succ_le_succ hle⟩
  | _, _, _, _, _, .passed hn hl h, hf, hs, hnil => by
    obtain ⟨own, hown, henters, hgo⟩ := h.retraced hn hf hs hnil
    refine ⟨own, hown, henters, fun s' hw hrest => ?_⟩
    obtain ⟨t', height', h', ht, hsteps, hle⟩ := hgo _ hw.counted hrest
    exact ⟨t', height' + 1, .passed hn hl h', ht, hsteps, Nat.succ_le_succ hle⟩

theorem ExploresNode.retraced : ∀ {id : Nat} {node : Node} {s t : SearchState} {found : Bool} {height : Nat},
    ExploresNode g wildcards id node s found t height → g.nodes[id]? = some node → found = true →
    s.exhausted = false → s.fragments = [] →
    Retraced wildcards (g.Enters false id) (ExploresNode g wildcards id node · true) s t height
  | _, _, _, _, _, _, .refused _ _, _, hf, _, _ => nomatch hf
  | _, _, _, _, _, _, .failed _ _ _, _, hf, _, _ => nomatch hf
  | id, _, s, _, _, _, .stop ⟨hid, hend⟩, hn, _, _, hnil => by
    subst hid
    refine ⟨[], hend ▸ .nil, ?_, fun s' hw hrest => ?_⟩
    · rw [SearchState.push, hnil]
      exact ⟨_, _, .stop hn⟩
    · exact ⟨_, 0, .stop ⟨rfl, hrest⟩, congrArg (_ :: ·) hw.fragments, hw.steps, Nat.le_refl 0⟩
  | id, node, s, _, _, _, .found hend htake h, hn, _, hs, hnil => by
    obtain ⟨left, hleft, ⟨i, next, hindex, harc, arcs, visits, hp⟩, hgo⟩ := h.retraced rfl hs hnil
    -- the words of the node go in front of those of the rest of the path
    obtain ⟨own, hown, htakes⟩ := NodeKind.exists_take_own htake hleft
    rw [Nat.zero_add] at hindex
    subst hindex
    refine ⟨own, hown, ⟨_, _, .step hn (htakes false) harc hp⟩, fun s' hw hrest => ?_⟩
    obtain ⟨t', height', h', ht, hsteps, hle⟩ := hgo { s' with rest := left } (hw.withRest hleft) rfl
    have hend' : ¬(id = g.stop ∧ s'.rest = []) := (and_congr_right' hw.rest_eq_nil_iff).not.mpr hend
    exact ⟨_, height', .found hend' (hrest ▸ htakes wildcards) h', congrArg (node.kind.emit id _) ht, hsteps, hle⟩

theorem ExploresArcs.retraced : ∀ {arcs : List Nat} {index : Nat} {s t : SearchState} {taken : Option Nat}
    {height : Nat}, ExploresArcs g wildcards arcs index s taken t height → ∀ {last : Nat}, taken = some last →
    s.exhausted = false → s.fragments = [] →
    Retraced wildcards (fun own fs => ∃ i next, last = index + i ∧ arcs[i]? = some next ∧ g.Enters false next own fs)
      (ExploresArcs g wildcards arcs index · (some last)) s t height
  | _, _, _, _, _, _, .nil, _, hlast, _, _ => nomatch hlast
  | next :: _, _, _, _, _, _, .found h, _, hlast, hs, hnil => by
    cases hlast
    obtain ⟨own, hown, henters, hgo⟩ := h.retraced rfl hs hnil
    refine ⟨own, hown, ⟨0, next, rfl, rfl, henters⟩, fun s' hw hrest => ?_⟩
    obtain ⟨t', height', h', ht⟩ := hgo s' hw hrest
    exact ⟨t', height', .found h', ht⟩
  | _ :: _, index, s, _, _, _, .later h hlater, _, hlast, hs, hnil => by
    have hr := h.restored hs
    obtain ⟨own, hown, ⟨i, next, hi, harc, henters⟩, hgo⟩ :=
      hlater.retraced hlast (h.counts.2.trans hs) (hr.fragments.trans hnil)
    refine ⟨own, hown, ⟨i + 1, next, by omega, harc, henters⟩, fun s' hw hrest => ?_⟩
    -- the arc that leads nowhere in the first search leads nowhere in the second one
    obtain ⟨t', height', h', ht, hle⟩ := h.narrowed rfl hs hw
    obtain ⟨u', height'', hlater', hu, hsteps, hle'⟩ := hgo { t' with rest := s'.rest } (ht.withRest hw.rest) hrest
    exact ⟨u', max height' height'', .later h' hlater', hu, hsteps, max_le_max hle hle'⟩

end

end Search

namespace Environment

variable {env : Environment} {name : String} {g : Graph} {spoken : List String} {o : SearchOptions}

/-- **The words of a parse are parsed as this parse**, by the same search options. Without limits, the search for them
has no more calls than the one that has found the parse, and no longer paths. -/
theorem parse_own_words (h : env.compile name = .ok g) {p : Parse} (hp : g.parse spoken o = some p) :
    g.parse p.tokens o = some p ∧
      ∃ calls height calls' height', g.Unlimited o.wildcards spoken (some p) calls height ∧ o.Allows calls height ∧
        g.Unlimited o.wildcards p.tokens (some p) calls' height' ∧ calls' ≤ calls ∧ height' ≤ height := by
  obtain ⟨calls, height, hallowed, hfirst⟩ :=
    (Graph.parse_cases g spoken o).resolve_left (by rw [hp]; exact Option.some_ne_none p)
  rw [hp] at hfirst
  obtain ⟨found, t, hexp, hparse, rfl⟩ := id hfirst
  obtain rfl : found = true := by
    cases found with
    | true => rfl
    | false => cases hparse
  obtain ⟨own, hown, ⟨arcs, visits, hpath⟩, hgo⟩ := hexp.retraced rfl rfl rfl
  -- the words of the path are those of the parse
  obtain ⟨rule, body, -, rfl, hb, -⟩ := compile_represents h
  obtain ⟨tree, -, htokens, hfs⟩ := derives_of_path hb hpath
  obtain rfl : p = ⟨name, tree⟩ := by
    rw [if_pos rfl, SearchState.parse?, hfs] at hparse
    exact Option.some.inj hparse
  obtain rfl := Search.fitsAll_false_iff.mp htokens
  obtain ⟨t', height', hexp', hfs', hsteps, hle⟩ := hgo (.initial _) ⟨hown, rfl, rfl, Nat.le_refl 0⟩ rfl
  have hsecond : Graph.Unlimited (ruleGraph name body) o.wildcards tree.tokens (some ⟨name, tree⟩) t'.steps height' :=
    ⟨true, t', hexp', by rw [if_pos rfl, SearchState.parse?, hfs', hfs], rfl⟩
  have hallowed' : o.Allows t'.steps height' :=
    ⟨Search.AllowsSteps_mono hallowed.1 hsteps, Nat.le_trans hle hallowed.2⟩
  exact ⟨hsecond.parse_eq hallowed', _, _, _, _, hfirst, hallowed, hsecond, hsteps, hle⟩

/-- The lamp that a wildcard has stood for is named, and the words are as the grammar has them. -/
theorem lamps_parse_own_words :
    lamps.compile "switch" = .ok lampsGraph ∧ lampsGraph.parse lampsWords default = some lampsParse ∧
      lampsParse.tokens = ["please", "please", "Turn", "on", "Red"] ∧
      lampsGraph.parse lampsParse.tokens default = some lampsParse := by
  have hg : lamps.compile "switch" = .ok lampsGraph := by cbv
  have hp : lampsGraph.parse lampsWords default = some lampsParse := by cbv
  have hwords : lampsParse.tokens = ["please", "please", "Turn", "on", "Red"] := by decide +kernel
  exact ⟨hg, hp, hwords, (parse_own_words hg hp).1⟩

end Environment

end SpeechGrammar
