import SpeechGrammar.Match.Candidates
import SpeechGrammar.Proofs.Culprits

/-!
# What a graph depends on

Two environments whose starting grammars have the same name may differ in everything else. They agree from a rule on if
every rule that it includes, at any remove, has the same scope and body in both, and if every reference in these rules
leads to a rule in both or fails in both in the same way (`AgreesFrom`).

A build looks at nothing else: what it makes of a component is up to the references in it that count
(`Environment.patternOf_congr`), and those resolve alike in both. So the graph of the rule is the same in both, or else
the error is (`Environment.compile_congr`). A commit leaves the rules alone that its changes neither add nor remove, so
the environments before and after it agree from every rule whose build does not look for those
(`Environment.agreesFrom_afterCommit`). Together this is **`Environment.compile_depends_on_reached`**.
-/

namespace SpeechGrammar

open Relation (ReflTransGen)

section

variable (lookup lookup' : String → Option Snapshot)

/-- The reference leads to a rule with both, or it fails with both in the same way. -/
inductive ResolvesAlike (source : RuleId) (r : Reference) : Prop
  | resolves : Resolves lookup source r → Resolves lookup' source r → ResolvesAlike source r
  | unknownGrammar : lookup (source.target r).grammar = none → lookup' (source.target r).grammar = none →
      ResolvesAlike source r
  | undefinedRule {s s' : Snapshot} : lookup (source.target r).grammar = some s →
      lookup' (source.target r).grammar = some s' → s.rule? r.rule = none → s'.rule? r.rule = none →
      ResolvesAlike source r
  | notPublic {rule rule' : Rule} : (source.target r).grammar ≠ source.grammar →
      ruleOf? lookup (source.target r) = some rule → ruleOf? lookup' (source.target r) = some rule' →
      rule.isPublic = false → rule'.isPublic = false → ResolvesAlike source r

/-- Every rule that `id` includes has the same scope and body with both, and its references resolve alike. -/
structure AgreesFrom (id : RuleId) : Prop where
  rules : ∀ source, ReflTransGen (Includes lookup) id source →
    (ruleOf? lookup source).map (fun rule => (rule.isPublic, rule.body)) =
      (ruleOf? lookup' source).map (fun rule => (rule.isPublic, rule.body))
  references : ∀ source r, ReflTransGen (Includes lookup) id source → Mentions lookup source r →
    ResolvesAlike lookup lookup' source r

end

section

variable {lookup lookup' : String → Option Snapshot} {id source target : RuleId} {rule : Rule} {r : Reference}

/-- A rule is found under its own name. -/
theorem name_of_ruleOf? (h : ruleOf? lookup id = some rule) : rule.name = id.rule := by
  obtain ⟨s, -, hr⟩ := Option.bind_eq_some_iff.mp h
  obtain ⟨e, he, rfl⟩ := Option.map_eq_some_iff.mp hr
  exact (Snapshot.mem_of_find? he).2

/-- Rules of one name with the same scope and body are the same. -/
theorem AgreesFrom.ruleOf?_eq (h : AgreesFrom lookup lookup' id) : ruleOf? lookup id = ruleOf? lookup' id := by
  have hsame := h.rules id .refl
  cases hrule : ruleOf? lookup id with
  | none =>
    rw [hrule, Option.map_none, eq_comm, Option.map_eq_none_iff] at hsame
    exact hsame.symm
  | some rule =>
    rw [hrule, Option.map_some, eq_comm, Option.map_eq_some_iff] at hsame
    obtain ⟨rule', hrule', hcontent⟩ := hsame
    obtain ⟨hpublic, hbody⟩ := Prod.mk.inj hcontent
    have hname : rule'.name = rule.name := (name_of_ruleOf? hrule').trans (name_of_ruleOf? hrule).symm
    obtain ⟨name, isPublic, body⟩ := rule
    obtain ⟨name', isPublic', body'⟩ := rule'
    dsimp only at hname hpublic hbody
    rw [hrule', hname, hpublic, hbody]

/-- References resolve alike if both or neither of their grammars are there, and their rules are the same. -/
theorem ResolvesAlike.of_same (hgrammar : lookup (source.target r).grammar = none ↔
      lookup' (source.target r).grammar = none)
    (hsame : ruleOf? lookup' (source.target r) = ruleOf? lookup (source.target r)) :
    ResolvesAlike lookup lookup' source r := by
  cases hs : lookup (source.target r).grammar with
  | none => exact .unknownGrammar hs (hgrammar.mp hs)
  | some s =>
    obtain ⟨s', hs'⟩ := Option.ne_none_iff_exists'.mp fun hnone => Option.some_ne_none s (hs ▸ hgrammar.mpr hnone)
    cases hrule : ruleOf? lookup (source.target r) with
    | none =>
      rw [hrule, ruleOf?, hs'] at hsame
      rw [ruleOf?, hs] at hrule
      exact .undefinedRule hs hs' hrule hsame
    | some rule =>
      rw [hrule] at hsame
      by_cases hbarred : (source.target r).grammar ≠ source.grammar ∧ rule.isPublic = false
      · exact .notPublic hbarred.1 hrule hsame hbarred.2 hbarred.2
      · have hpublic : (source.target r).grammar ≠ source.grammar → rule.isPublic = true :=
          fun hother => Bool.of_not_eq_false fun hprivate => hbarred ⟨hother, hprivate⟩
        exact .resolves ⟨rule, hrule, hpublic⟩ ⟨rule, hsame, hpublic⟩

/-- Agreement goes on at the rules that are included. -/
theorem AgreesFrom.step (h : AgreesFrom lookup lookup' source) (ht : Includes lookup source target) :
    AgreesFrom lookup lookup' target where
  rules := fun id hid => h.rules id (.head ht hid)
  references := fun id r hid => h.references id r (.head ht hid)

end

namespace Environment

/-! ## Patterns of components -/

section

variable {visit visit' : Reference → Except GrammarError Pattern} {owner : String}

mutual

/-- What is made of a component is up to the references in it that count. -/
theorem patternOf_congr : ∀ {c : Component}, (∀ r ∈ c.liveReferences, visit r = visit' r) →
    patternOf visit owner c = patternOf visit' owner c
  | .token _, _ => rfl
  | .tag _, _ => rfl
  | .reference r, h => h r (List.mem_singleton.mpr rfl)
  | .sequence _, h => congrArg (Except.map Pattern.sequence) (patternsOf_congr h)
  | .alternatives _ _, h => congrArg (Except.map Pattern.alternatives) (patternsOf_congr h)
  | .count body min max _, h => by
    rw [patternOf, patternOf]
    by_cases hmax : max = .finite 0
    · simp only [if_pos hmax]
    · rw [Component.liveReferences, if_neg hmax] at h
      simp only [if_neg hmax, patternOf_congr h]

theorem patternsOf_congr : ∀ {cs : List Component}, (∀ r ∈ Component.liveReferencesAll cs, visit r = visit' r) →
    patternsOf visit owner cs = patternsOf visit' owner cs
  | [], _ => rfl
  | c :: cs, h => by
    rw [Component.liveReferencesAll, List.forall_mem_append] at h
    rw [patternsOf, patternsOf, patternOf_congr h.1, patternsOf_congr h.2]

end

end

/-! ## Patterns of rules -/

section

variable {env env' : Environment} {path : List RuleId} {source : RuleId} {rule : Rule} {r : Reference}

theorem displayName_congr (hname : env.start.name = env'.start.name) : env.displayName = env'.displayName := by
  funext id
  rw [displayName, displayName, hname]

theorem cycle_congr (hname : env.start.name = env'.start.name) : env.cycle path source = env'.cycle path source := by
  rw [cycle, cycle, displayName_congr hname]

/-- References that resolve alike lead to the same rule, if the rules they lead to are the same. -/
theorem resolve_eq_of_alike (hname : env.start.name = env'.start.name)
    (h : ResolvesAlike env.grammar? env'.grammar? source r)
    (hsame : Resolves env.grammar? source r →
      ruleOf? env.grammar? (source.target r) = ruleOf? env'.grammar? (source.target r)) :
    env.resolve source r = env'.resolve source r := by
  cases h with
  | resolves hres hres' =>
    have hsame := hsame hres
    obtain ⟨q, hq⟩ := resolves_iff.mp hres
    obtain ⟨q', hq'⟩ := resolves_iff.mp hres'
    rw [(resolve_eq_ok_iff.mp hq).2.1, (resolve_eq_ok_iff.mp hq').2.1, Option.some.injEq] at hsame
    rw [hq, hq', hsame]
  | unknownGrammar hnone hnone' =>
    dsimp only [RuleId.target] at hnone hnone'
    simp only [resolve, hnone, hnone']
  | undefinedRule hs hs' hnone hnone' =>
    dsimp only [RuleId.target] at hs hs'
    simp only [resolve, hs, hs', hnone, hnone']
  | notPublic hother hrule hrule' hprivate hprivate' =>
    obtain ⟨s, hs, hr⟩ := Option.bind_eq_some_iff.mp hrule
    obtain ⟨s', hs', hr'⟩ := Option.bind_eq_some_iff.mp hrule'
    dsimp only [RuleId.target] at hother hs hr hs' hr'
    simp only [resolve, hs, hs', hr, hr', hprivate, hprivate', displayName_congr hname, and_true, if_pos hother]

/-- In both environments the same is built, or it fails with the same error. -/
theorem ruleBody_congr (hname : env.start.name = env'.start.name)
    (hagrees : AgreesFrom env.grammar? env'.grammar? source) (hrule : ruleOf? env.grammar? source = some rule) :
    env.ruleBody path source rule = env'.ruleBody path source rule := by
  induction path, source, rule using ruleBody.induct env with
  | case1 path source rule ih =>
    rw [ruleBody_eq env, ruleBody_eq env']
    refine patternOf_congr fun r hr => ?_
    have hmentions : Mentions env.grammar? source r := ⟨rule, hrule, hr⟩
    have hresolve : env.resolve source r = env'.resolve source r :=
      resolve_eq_of_alike hname (hagrees.references source r .refl hmentions) fun hres =>
        (hagrees.step ⟨r, hmentions, hres, rfl⟩).ruleOf?_eq
    rw [← hresolve]
    cases hres : env.resolve source r with
    | error e => rfl
    | ok found =>
      obtain ⟨target, q⟩ := found
      have hnext := hagrees.step (includes_of_resolve hmentions hres)
      by_cases hmem : target ∈ path
      · simp only [if_pos hmem, cycle_congr hname]
      · simp only [if_neg hmem, ih r target q hres hmem hnext (resolve_eq_ok_iff.mp hres).2.1]

/-- **A rule compiles the same in both environments**, to a graph or with an error. -/
theorem compile_congr {name : String} (hname : env.start.name = env'.start.name)
    (hagrees : AgreesFrom env.grammar? env'.grammar? ⟨env.start.name, name⟩) :
    env.compile name = env'.compile name := by
  have hstart : env.start.rule? name = env'.start.rule? name := by
    rw [rule?_start, rule?_start, ← hname]
    exact hagrees.ruleOf?_eq
  have hpattern : env.pattern name = env'.pattern name := by
    rw [pattern, pattern, ← hstart, ← hname]
    cases hr : env.start.rule? name with
    | none => rfl
    | some rule => simp only [ruleBody_congr hname hagrees ((rule?_start env name).symm.trans hr)]
  rw [compile, compile, hpattern]

end

end Environment

/-! ## Commits -/

/-- The name of the rule that a change adds or removes. -/
def Change.subject? : Change → Option String
  | .add rule => some rule.name
  | .remove name => some name
  | .setRoot _ => none
  | .setActivatable _ _ => none

namespace Snapshot

variable {s t : Snapshot} {name : String}

/-- An entry that is not looked for can be put anywhere. -/
theorem find?_place {p : Entry → Bool} {e : Entry} (he : p e = false) (es : List Entry) :
    (place e es).find? p = es.find? p := by
  induction es with
  | nil => rw [place, List.find?_cons, he]
  | cons f fs ih =>
    rw [place]
    split
    · rw [List.find?_cons, he]
    · rw [List.find?_cons, List.find?_cons, ih]

/-- A change leaves the rules alone that it neither adds nor removes. -/
theorem rule?_apply {c : Change} {changed : Bool} (h : s.apply c = .ok (t, changed)) (hc : c.subject? ≠ some name) :
    t.rule? name = s.rule? name := by
  obtain ⟨rule, rfl, -, rfl, -⟩ | ⟨other, rfl, rfl⟩ | ⟨names, enabled, rfl, -, rfl⟩ | ⟨rfl, rfl⟩ | ⟨root, rfl, -, rfl⟩ :=
    apply_cases h
  · have hother : (rule.name == name) = false := beq_eq_false_iff_ne.mpr fun heq => hc (congrArg some heq)
    exact congrArg (Option.map Entry.rule) (find?_place hother s.entries)
  · have hother : other ≠ name := fun heq => hc (congrArg some heq)
    have hfind : (s.erase other).find? name = s.find? name := by
      rw [find?, find?, erase, List.find?_filter]
      congr 1
      funext e
      by_cases he : e.name = name
      · simp [he, Ne.symm hother]
      · simp [he]
    rw [rule?, rule?, hfind]
  · have hfind : (s.activate names enabled).find? name =
        (s.find? name).map fun e => if names.contains e.name then { e with activatable := enabled } else e := by
      rw [find?, find?, activate, List.find?_map]
      congr 2
      funext e
      simp only [Function.comp_apply]
      split <;> rfl
    rw [rule?, rule?, hfind, Option.map_map]
    congr 1
    funext e
    simp only [Function.comp_apply]
    split <;> rfl
  · rfl
  · rfl

/-- So do several changes, whichever of them fail. -/
theorem rule?_applyAll {cs : List Change} (hcs : ∀ c ∈ cs, c.subject? ≠ some name) :
    (s.applyAll cs).snapshot.rule? name = s.rule? name := by
  induction cs generalizing s with
  | nil => rfl
  | cons c cs ih =>
    rw [List.forall_mem_cons] at hcs
    cases happly : s.apply c with
    | error fault =>
      simp only [applyAll, happly]
      exact ih hcs.2
    | ok result =>
      obtain ⟨t, changed⟩ := result
      simp only [applyAll, happly]
      exact (ih hcs.2).trans (rule?_apply happly hcs.1)

/-- The state that a commit of the changes publishes. -/
def afterCommit (s : Snapshot) (changes : List Change) : Snapshot := s.publish (s.applyAll (commitOrder changes))

theorem rule?_afterCommit {changes : List Change} (h : ∀ c ∈ changes, c.subject? ≠ some name) :
    (s.afterCommit changes).rule? name = s.rule? name := by
  unfold afterCommit publish
  split
  · exact rule?_applyAll fun c hc => h c (Grammar.mem_commitOrder.mp hc)
  · rfl

theorem name_afterCommit (changes : List Change) : (s.afterCommit changes).name = s.name :=
  (publish_keeps (P := fun _ => True) (fun _ _ => trivial) fun _ _ _ _ => trivial).2.1

end Snapshot

/-- A build of the rule `id` looks for the rule: it is `id` itself, or a rule that `id` includes refers to it. -/
def LooksFor (lookup : String → Option Snapshot) (id target : RuleId) : Prop :=
  target = id ∨ ∃ source, ReflTransGen (Includes lookup) id source ∧ Refers lookup source target

theorem LooksFor.of_reached {lookup : String → Option Snapshot} {id source : RuleId}
    (h : ReflTransGen (Includes lookup) id source) : LooksFor lookup id source := by
  rcases ReflTransGen.cases_tail h with rfl | ⟨middle, hmiddle, r, hr, -, rfl⟩
  · exact .inl rfl
  · exact .inr ⟨middle, hmiddle, r, hr, rfl⟩

namespace Environment

variable {env : Environment} {grammar : String} {changes : List Change} {id target : RuleId}

/-- The state after a commit in the grammar of a name. -/
def stateAfter (grammar : String) (changes : List Change) (s : Snapshot) : Snapshot :=
  if s.name = grammar then s.afterCommit changes else s

/-- The environment after a commit in the grammar of a name. -/
def afterCommit (env : Environment) (grammar : String) (changes : List Change) : Environment :=
  ⟨stateAfter grammar changes env.start, env.others.map (stateAfter grammar changes)⟩

theorem name_stateAfter (s : Snapshot) : (stateAfter grammar changes s).name = s.name := by
  unfold stateAfter
  split
  · exact Snapshot.name_afterCommit changes
  · rfl

theorem grammar?_afterCommit (name : String) :
    (env.afterCommit grammar changes).grammar? name = (env.grammar? name).map (stateAfter grammar changes) := by
  have hnames : (fun s : Snapshot => s.name == name) ∘ stateAfter grammar changes = fun s => s.name == name := by
    funext s
    rw [Function.comp_apply, name_stateAfter]
  have hsnapshots : (env.afterCommit grammar changes).snapshots = env.snapshots.map (stateAfter grammar changes) := rfl
  rw [grammar?, grammar?, hsnapshots, List.find?_map, hnames]

/-- A commit leaves a rule alone that none of its changes adds or removes. -/
theorem ruleOf?_afterCommit
    (h : target.grammar = grammar → ∀ c ∈ changes, c.subject? ≠ some target.rule) :
    ruleOf? (env.afterCommit grammar changes).grammar? target = ruleOf? env.grammar? target := by
  rw [ruleOf?, ruleOf?, grammar?_afterCommit]
  cases hs : env.grammar? target.grammar with
  | none => rfl
  | some s =>
    have hname : s.name = target.grammar := beq_iff_eq.mp (List.find?_some hs :)
    simp only [Option.map_some, Option.bind_some, stateAfter]
    split
    · rename_i hgrammar
      exact Snapshot.rule?_afterCommit (h (hname.symm.trans hgrammar))
    · rfl

/-- Before and after a commit that changes no rule that is looked for, environments agree. -/
theorem agreesFrom_afterCommit
    (h : ∀ c ∈ changes, ∀ rule, c.subject? = some rule → ¬LooksFor env.grammar? id ⟨grammar, rule⟩) :
    AgreesFrom env.grammar? (env.afterCommit grammar changes).grammar? id := by
  have hsame {target : RuleId} (htarget : LooksFor env.grammar? id target) :
      ruleOf? (env.afterCommit grammar changes).grammar? target = ruleOf? env.grammar? target := by
    refine ruleOf?_afterCommit fun hgrammar c hc hsubject => h c hc _ hsubject ?_
    rwa [← hgrammar]
  constructor
  · intro source hsource
    rw [hsame (.of_reached hsource)]
  · intro source r hsource hr
    refine .of_same ?_ (hsame (.inr ⟨source, hsource, r, hr, rfl⟩))
    rw [grammar?_afterCommit, Option.map_eq_none_iff]

/-- **How a rule compiles depends only on the rules that it includes** and on what becomes of their references: where
these are the same, so is the graph or the error, and so are the parses. In particular no commit makes a difference, in
whatever grammar, whose changes neither add nor remove a rule that the build looks for. -/
theorem compile_depends_on_reached (env : Environment) (name : String) :
    (∀ env' : Environment, env.start.name = env'.start.name →
      AgreesFrom env.grammar? env'.grammar? ⟨env.start.name, name⟩ →
      env.compile name = env'.compile name ∧
        ∀ options spoken, env.parse options spoken (some name) = env'.parse options spoken (some name)) ∧
    ∀ grammar changes, (∀ c ∈ changes, ∀ rule, c.subject? = some rule →
        ¬LooksFor env.grammar? ⟨env.start.name, name⟩ ⟨grammar, rule⟩) →
      env.compile name = (env.afterCommit grammar changes).compile name ∧
        ∀ options spoken, env.parse options spoken (some name) =
          (env.afterCommit grammar changes).parse options spoken (some name) := by
  have hparse {env' : Environment} (hcompile : env.compile name = env'.compile name) (options : SearchOptions)
      (spoken : List String) : env.parse options spoken (some name) = env'.parse options spoken (some name) :=
    congrArg (Except.map _) hcompile
  constructor
  · intro env' hname hagrees
    have hcompile := compile_congr hname hagrees
    exact ⟨hcompile, hparse hcompile⟩
  · intro grammar changes hchanges
    have hname : env.start.name = (env.afterCommit grammar changes).start.name := (name_stateAfter env.start).symm
    have hcompile := compile_congr hname (agreesFrom_afterCommit hchanges)
    exact ⟨hcompile, hparse hcompile⟩

/-- A grammar that switches lamps, next to the one with their names. -/
def twoGrammars : Environment := Workspace.shop.environment Workspace.switches

/-- The starting grammar has a private rule with the name of the foreign one, another root, other ids and no active rule
besides, and there is one more grammar. -/
def threeGrammars : Environment where
  start := ⟨"switches", some "en",
    [⟨⟨"lamp", false, .token "candle"⟩, 2, false⟩, ⟨Workspace.switchRule, 7, false⟩, ⟨Workspace.lampRule, 8, true⟩],
    some "lamp", 9, 5⟩
  others := [⟨"walls", none, [⟨Workspace.endlessRule, 0, true⟩], none, 1, 1⟩,
    ⟨"names", none, [⟨Workspace.endlessRule, 3, false⟩, ⟨Workspace.lampRule, 4, false⟩], none, 5, 2⟩]

theorem ruleOf?_twoGrammars :
    ruleOf? twoGrammars.grammar? ⟨"switches", "switch"⟩ = some Workspace.switchRule ∧
      ruleOf? twoGrammars.grammar? ⟨"names", "lamp"⟩ = some Workspace.lampRule := by
  constructor <;> cbv

theorem ruleOf?_threeGrammars :
    ruleOf? threeGrammars.grammar? ⟨"switches", "switch"⟩ = some Workspace.switchRule ∧
      ruleOf? threeGrammars.grammar? ⟨"names", "lamp"⟩ = some Workspace.lampRule := by
  constructor <;> cbv

theorem mentions_switch {r : Reference} (h : Mentions twoGrammars.grammar? ⟨"switches", "switch"⟩ r) :
    r = ⟨"lamp", some "names"⟩ := by
  obtain ⟨rule, hrule, hr⟩ := h
  obtain rfl := Option.some.inj (ruleOf?_twoGrammars.1.symm.trans hrule)
  exact List.mem_singleton.mp hr

theorem not_mentions_lamp {r : Reference} : ¬Mentions twoGrammars.grammar? ⟨"names", "lamp"⟩ r := by
  rintro ⟨rule, hrule, hr⟩
  obtain rfl := Option.some.inj (ruleOf?_twoGrammars.2.symm.trans hrule)
  cases hr

/-- The switch includes the lamp, and the lamp includes nothing. -/
theorem reached_from_switch {source : RuleId}
    (h : ReflTransGen (Includes twoGrammars.grammar?) ⟨"switches", "switch"⟩ source) :
    source = ⟨"switches", "switch"⟩ ∨ source = ⟨"names", "lamp"⟩ := by
  induction h with
  | refl => exact .inl rfl
  | tail _ hstep ih =>
    obtain ⟨r, hr, -, rfl⟩ := hstep
    rcases ih with rfl | rfl
    · obtain rfl := mentions_switch hr
      exact .inr rfl
    · exact absurd hr not_mentions_lamp

/-- Only the two rules are looked for. -/
theorem looksFor_switch {target : RuleId} (h : LooksFor twoGrammars.grammar? ⟨"switches", "switch"⟩ target) :
    target = ⟨"switches", "switch"⟩ ∨ target = ⟨"names", "lamp"⟩ := by
  rcases h with rfl | ⟨source, hsource, r, hr, rfl⟩
  · exact .inl rfl
  · rcases reached_from_switch hsource with rfl | rfl
    · obtain rfl := mentions_switch hr
      exact .inr rfl
    · exact absurd hr not_mentions_lamp

theorem grammars_agree : AgreesFrom twoGrammars.grammar? threeGrammars.grammar? ⟨"switches", "switch"⟩ := by
  constructor
  · intro source hsource
    rcases reached_from_switch hsource with rfl | rfl
    · rw [ruleOf?_twoGrammars.1, ruleOf?_threeGrammars.1]
    · rw [ruleOf?_twoGrammars.2, ruleOf?_threeGrammars.2]
  · intro source r hsource hr
    rcases reached_from_switch hsource with rfl | rfl
    · obtain rfl := mentions_switch hr
      exact .resolves ⟨_, ruleOf?_twoGrammars.2, fun _ => rfl⟩ ⟨_, ruleOf?_threeGrammars.2, fun _ => rfl⟩
    · exact absurd hr not_mentions_lamp

/-- Changes of the starting grammar by which its other rule goes and the name of the foreign rule comes. -/
def otherChanges : List Change := [.setRoot (some "switch"), .remove "endless", .add Workspace.lampRule]

theorem otherChanges_apart : ∀ c ∈ otherChanges, ∀ rule, c.subject? = some rule →
    ¬LooksFor twoGrammars.grammar? ⟨"switches", "switch"⟩ ⟨"switches", rule⟩ := by
  intro c hc rule hsubject hlooks
  have hname : rule = "switch" := by
    rcases looksFor_switch hlooks with heq | heq
    · exact (RuleId.mk.inj heq).2
    · exact absurd (RuleId.mk.inj heq).1 (by decide)
  subst hname
  simp only [otherChanges, List.mem_cons, List.not_mem_nil, or_false] at hc
  rcases hc with rfl | rfl | rfl
  · cases hsubject
  · exact absurd hsubject (by decide)
  · exact absurd hsubject (by decide)

theorem twoGrammars_compile_depends_on_reached :
    twoGrammars.start.name = threeGrammars.start.name ∧
      AgreesFrom twoGrammars.grammar? threeGrammars.grammar? ⟨"switches", "switch"⟩ ∧
      twoGrammars.compile "switch" = threeGrammars.compile "switch" ∧
      (twoGrammars.afterCommit "switches" otherChanges).start.ruleNames = ["switch", "lamp"] ∧
      twoGrammars.compile "switch" = (twoGrammars.afterCommit "switches" otherChanges).compile "switch" := by
  have hdepends := compile_depends_on_reached twoGrammars "switch"
  refine ⟨rfl, grammars_agree, (hdepends.1 threeGrammars rfl grammars_agree).1, by cbv, ?_⟩
  exact (hdepends.2 "switches" otherChanges otherChanges_apart).1

end Environment

end SpeechGrammar
