import Mathlib
import SpeechGrammar.Proofs.Inlining
import SpeechGrammar.Proofs.WorkspaceRuns

/-!
# Which rules can be compiled

A rule refers to the rules that are named in its body, except within repetitions that allow no repetition. What the
names of grammars lead to is left open here: it is a function from names to snapshots. A rule is grounded if every rule
that can be reached from it along references is there, is public if its grammar is another one, and cannot be reached
from itself (`Grounded`).

A rule has a pattern if and only if it is grounded (**`Environment.exists_pattern_iff`**). The path of a build holds the
rules that lead to the present one, so a reference back to the path closes a cycle, and a cycle would come back to the
path. In a workspace the same holds of compiling (**`Workspace.compile_ok_iff`**).
-/

namespace SpeechGrammar

open Relation (ReflTransGen TransGen)

namespace Component

mutual

/-- The references of a component that count: those in a repetition that allows none do not. -/
def liveReferences : Component → List Reference
  | .token _ => []
  | .tag _ => []
  | .reference r => [r]
  | .sequence items => liveReferencesAll items
  | .alternatives branches _ => liveReferencesAll branches
  | .count body _ max _ => if max = .finite 0 then [] else liveReferences body

/-- The references of a list of components that count. -/
def liveReferencesAll : List Component → List Reference
  | [] => []
  | c :: cs => liveReferences c ++ liveReferencesAll cs

end

end Component

/-! ## References between rules -/

/-- The rule that a reference in another rule names. -/
def RuleId.target (source : RuleId) (r : Reference) : RuleId := ⟨r.grammar.getD source.grammar, r.rule⟩

section

variable (lookup : String → Option Snapshot)

/-- The rule of a name in the grammar of a name. -/
def ruleOf? (id : RuleId) : Option Rule := (lookup id.grammar).bind (·.rule? id.rule)

/-- The rule is there, and the reference stands in its body and counts. -/
def Mentions (id : RuleId) (r : Reference) : Prop :=
  ∃ rule, ruleOf? lookup id = some rule ∧ r ∈ rule.body.liveReferences

/-- Some reference in the first rule names the second. -/
def Refers (source target : RuleId) : Prop := ∃ r, Mentions lookup source r ∧ target = source.target r

/-- The reference leads from the rule to another one that is there, and public unless it is in the same grammar. -/
def Resolves (source : RuleId) (r : Reference) : Prop :=
  ∃ rule, ruleOf? lookup (source.target r) = some rule ∧
    ((source.target r).grammar ≠ source.grammar → rule.isPublic = true)

/-- All references of rules that can be reached resolve, and none of these rules can be reached from itself. -/
def Grounded (id : RuleId) : Prop :=
  ∀ source, ReflTransGen (Refers lookup) id source →
    (∀ r, Mentions lookup source r → Resolves lookup source r) ∧ ¬TransGen (Refers lookup) source source

end

namespace Environment

/-! ## Patterns of components -/

section

variable {visit : Reference → Except GrammarError Pattern} {owner : String}

theorem checkBounds_of_boundsFault? {min : Nat} {max : Bound} (h : Component.boundsFault? min max = none) :
    checkBounds owner min max = .ok () := by
  cases max with
  | indefinite => rfl
  | finite most =>
    simp only [Component.boundsFault?] at h
    split at h
    · cases h
    · rename_i hle
      rw [checkBounds, if_neg hle]

mutual

/-- A component without fault has a pattern if the references that count have one. -/
theorem exists_patternOf : ∀ {c : Component}, c.fault? = none →
    (∀ r ∈ c.liveReferences, ∃ p, visit r = .ok p) → ∃ p, patternOf visit owner c = .ok p
  | .token text, _, _ => ⟨.token text, rfl⟩
  | .tag value, _, _ => ⟨.tag value, rfl⟩
  | .reference r, _, hv => hv r (List.mem_singleton.mpr rfl)
  | .sequence items, hc, hv => by
    obtain ⟨ps, hps⟩ := exists_patternsOf hc hv
    exact ⟨.sequence ps, by rw [patternOf, hps]; rfl⟩
  | .alternatives branches weights, hc, hv => by
    rw [Component.fault?, Option.or_eq_none_iff] at hc
    obtain ⟨ps, hps⟩ := exists_patternsOf hc.2 hv
    exact ⟨.alternatives ps, by rw [patternOf, hps]; rfl⟩
  | .count body min max probability, hc, hv => by
    simp only [Component.fault?, Option.or_eq_none_iff] at hc
    rw [patternOf, checkBounds_of_boundsFault? hc.1]
    by_cases h0 : max = .finite 0
    · exact ⟨_, if_pos h0⟩
    · rw [Component.liveReferences, if_neg h0] at hv
      obtain ⟨p, hp⟩ := exists_patternOf hc.2.2 hv
      exact ⟨.count p min max, by simp only [if_neg h0, hp]; rfl⟩

theorem exists_patternsOf : ∀ {cs : List Component}, Component.faultAmong? cs = none →
    (∀ r ∈ Component.liveReferencesAll cs, ∃ p, visit r = .ok p) → ∃ ps, patternsOf visit owner cs = .ok ps
  | [], _, _ => ⟨[], rfl⟩
  | c :: cs, hcs, hv => by
    rw [Component.faultAmong?, Option.or_eq_none_iff] at hcs
    rw [Component.liveReferencesAll, List.forall_mem_append] at hv
    obtain ⟨p, hp⟩ := exists_patternOf hcs.1 hv.1
    obtain ⟨ps, hps⟩ := exists_patternsOf hcs.2 hv.2
    exact ⟨p :: ps, by rw [patternsOf, hp, hps]; rfl⟩

end

mutual

/-- If a component has a pattern, so have its references that count. -/
theorem visit_of_patternOf : ∀ {c : Component} {p : Pattern}, patternOf visit owner c = .ok p →
    ∀ r ∈ c.liveReferences, ∃ q, visit r = .ok q
  | .token _, _, _ => nofun
  | .tag _, _, _ => nofun
  | .reference r, p, h => List.forall_mem_singleton.mpr ⟨p, h⟩
  | .sequence _, _, h => by
    obtain ⟨ps, hps, rfl⟩ := ok_of_map_eq_ok h
    exact visit_of_patternsOf hps
  | .alternatives _ _, _, h => by
    obtain ⟨ps, hps, rfl⟩ := ok_of_map_eq_ok h
    exact visit_of_patternsOf hps
  | .count body _ max _, _, h => by
    rw [Component.liveReferences]
    obtain ⟨-, ⟨h0, -⟩ | ⟨q, hq, -⟩⟩ := patternOf_count h
    · rw [if_pos h0]
      exact nofun
    · split
      · exact nofun
      · exact visit_of_patternOf hq

theorem visit_of_patternsOf : ∀ {cs : List Component} {ps : List Pattern}, patternsOf visit owner cs = .ok ps →
    ∀ r ∈ Component.liveReferencesAll cs, ∃ q, visit r = .ok q
  | [], _, _ => nofun
  | _ :: _, _, h => by
    obtain ⟨q, qs, hq, hqs, rfl⟩ := patternsOf_cons h
    exact List.forall_mem_append.mpr ⟨visit_of_patternOf hq, visit_of_patternsOf hqs⟩

end

/-- An operation on a result fails as the result does. -/
theorem error_of_map_eq_error {ε α β : Type} {f : α → β} {x : Except ε α} {e : ε} (h : x.map f = .error e) :
    x = .error e := by
  cases x with
  | error e' => cases h; rfl
  | ok a => cases h

mutual

/-- If there is no pattern of a component without fault, then because there is none of a reference in it that counts. -/
theorem error_of_patternOf : ∀ {c : Component} {e : GrammarError}, c.fault? = none →
    patternOf visit owner c = .error e → ∃ r ∈ c.liveReferences, visit r = .error e
  | .token _, _, _, h => nomatch h
  | .tag _, _, _, h => nomatch h
  | .reference r, _, _, h => ⟨r, List.mem_singleton.mpr rfl, h⟩
  | .sequence _, _, hc, h => error_of_patternsOf hc (error_of_map_eq_error h)
  | .alternatives _ _, _, hc, h => by
    rw [Component.fault?, Option.or_eq_none_iff] at hc
    exact error_of_patternsOf hc.2 (error_of_map_eq_error h)
  | .count body min max _, _, hc, h => by
    simp only [Component.fault?, Option.or_eq_none_iff] at hc
    simp only [patternOf, checkBounds_of_boundsFault? hc.1] at h
    split at h
    · cases h
    · rename_i hmax
      rw [Component.liveReferences, if_neg hmax]
      exact error_of_patternOf hc.2.2 (error_of_map_eq_error h)

theorem error_of_patternsOf : ∀ {cs : List Component} {e : GrammarError}, Component.faultAmong? cs = none →
    patternsOf visit owner cs = .error e → ∃ r ∈ Component.liveReferencesAll cs, visit r = .error e
  | [], _, _, h => nomatch h
  | c :: cs, _, hcs, h => by
    rw [Component.faultAmong?, Option.or_eq_none_iff] at hcs
    rw [patternsOf] at h
    split at h
    · rename_i hc
      cases h
      obtain ⟨r, hr, hvisit⟩ := error_of_patternOf hcs.1 hc
      exact ⟨r, List.mem_append_left _ hr, hvisit⟩
    · obtain ⟨r, hr, hvisit⟩ := error_of_patternsOf hcs.2 (error_of_map_eq_error h)
      exact ⟨r, List.mem_append_right _ hr, hvisit⟩

end

end

/-! ## Patterns of rules -/

section

variable {env : Environment} {path : List RuleId} {source : RuleId} {rule : Rule}

theorem rule_of_grammar? {grammar name : String} {s : Snapshot} (hs : env.grammar? grammar = some s)
    (hr : s.rule? name = some rule) : ruleOf? env.grammar? ⟨grammar, name⟩ = some rule := by
  rw [ruleOf?, hs]
  exact hr

/-- The starting grammar is found by its name. -/
theorem rule?_start (env : Environment) (name : String) :
    env.start.rule? name = ruleOf? env.grammar? ⟨env.start.name, name⟩ := by
  have hstart : env.grammar? env.start.name = some env.start := by simp [grammar?, snapshots]
  rw [ruleOf?, hstart]
  rfl

/-- A reference leads to the rule it names, if this rule is there and may be referred to. -/
theorem resolve_eq_ok_iff {r : Reference} {target : RuleId} :
    env.resolve source r = .ok (target, rule) ↔
      target = source.target r ∧ ruleOf? env.grammar? target = some rule ∧
        (target.grammar ≠ source.grammar → rule.isPublic = true) := by
  simp only [resolve, RuleId.target]
  constructor
  · intro h
    split at h
    · cases h
    · rename_i s hs
      split at h
      · cases h
      · rename_i q hq
        split at h
        · cases h
        · rename_i hbarred
          cases h
          refine ⟨rfl, rule_of_grammar? hs hq, fun hother => ?_⟩
          by_contra hprivate
          exact hbarred ⟨hother, Bool.not_eq_true _ ▸ hprivate⟩
  · rintro ⟨rfl, hrule, hpublic⟩
    obtain ⟨s, hs, hq⟩ := Option.bind_eq_some_iff.mp hrule
    dsimp only at hs hq hpublic
    simp only [hs, hq]
    refine if_neg fun hbarred => ?_
    rw [hpublic hbarred.1] at hbarred
    cases hbarred.2

theorem resolves_iff {r : Reference} :
    Resolves env.grammar? source r ↔ ∃ rule, env.resolve source r = .ok (source.target r, rule) := by
  simp only [Resolves, resolve_eq_ok_iff, true_and]

/-- What a reference in a rule gives, when the rules on the path are being built. -/
theorem ruleBody_eq (env : Environment) (path : List RuleId) (source : RuleId) (rule : Rule) :
    env.ruleBody path source rule = patternOf (fun r =>
      match env.resolve source r with
      | .error e => .error e
      | .ok (target, q) =>
        if target ∈ path then .error (.cyclicReference (env.cycle path target))
        else (env.ruleBody (path ++ [target]) target q).map (.rule q.name)) rule.name rule.body := by
  rw [ruleBody]
  congr 1
  funext r
  split
  · rename_i heq
    simp only [heq]
  · rename_i heq
    simp only [heq]
    rfl

/-- A rule can be built on from a path: its references lead to rules that are not on the path. -/
theorem step_of_ruleBody {p : Pattern} (h : env.ruleBody path source rule = .ok p) :
    ∀ r ∈ rule.body.liveReferences, ∃ target q p',
      env.resolve source r = .ok (target, q) ∧ target ∉ path ∧ env.ruleBody (path ++ [target]) target q = .ok p' := by
  intro r hr
  rw [ruleBody_eq] at h
  obtain ⟨p', hp'⟩ := visit_of_patternOf h r hr
  split at hp'
  · cases hp'
  · rename_i target q hres
    split at hp'
    · cases hp'
    · rename_i hnew
      obtain ⟨body, hbody, -⟩ := ok_of_map_eq_ok hp'
      exact ⟨target, q, body, hres, hnew, hbody⟩

/-! ## From patterns to grounds -/

/-- The rule has been built on from a path that ends with it. -/
structure Built (env : Environment) (path : List RuleId) (id : RuleId) : Prop where
  last : id ∈ path
  body : ∃ rule p, ruleOf? env.grammar? id = some rule ∧ env.ruleBody path id rule = .ok p

theorem Built.resolves (h : env.Built path source) {r : Reference} (hr : Mentions env.grammar? source r) :
    Resolves env.grammar? source r := by
  obtain ⟨rule, p, hrule, hp⟩ := h.body
  obtain ⟨rule', hrule', hmem⟩ := hr
  rw [hrule, Option.some.injEq] at hrule'
  subst hrule'
  obtain ⟨target, q, -, hres, -⟩ := step_of_ruleBody hp r hmem
  obtain ⟨rfl, hq⟩ := resolve_eq_ok_iff.mp hres
  exact ⟨q, hq⟩

/-- A rule that a built one refers to is new, and it has been built from the longer path. -/
theorem Built.step (h : env.Built path source) {target : RuleId} (ht : Refers env.grammar? source target) :
    target ∉ path ∧ env.Built (path ++ [target]) target := by
  obtain ⟨r, ⟨rule', hrule', hmem⟩, rfl⟩ := ht
  obtain ⟨rule, p, hrule, hp⟩ := h.body
  rw [hrule, Option.some.injEq] at hrule'
  subst hrule'
  obtain ⟨target, q, p', hres, hnew, hbody⟩ := step_of_ruleBody hp r hmem
  obtain ⟨rfl, hq, -⟩ := resolve_eq_ok_iff.mp hres
  exact ⟨hnew, List.mem_append_right _ (List.mem_singleton.mpr rfl), q, p', hq, hbody⟩

/-- A rule further on has been built from a path that goes on from this one. -/
theorem Built.reach (h : env.Built path source) {target : RuleId}
    (ht : ReflTransGen (Refers env.grammar?) source target) :
    ∃ later, env.Built (path ++ later) target := by
  induction ht with
  | refl => exact ⟨[], by rwa [List.append_nil]⟩
  | @tail middle target _ hstep ih =>
    obtain ⟨later, hlater⟩ := ih
    exact ⟨later ++ [target], by rw [← List.append_assoc]; exact (hlater.step hstep).2⟩

/-- A rule that refers, at one remove or more, to another does not come back to the path. -/
theorem Built.not_mem (h : env.Built path source) {target : RuleId}
    (ht : TransGen (Refers env.grammar?) source target) : target ∉ path := by
  obtain ⟨middle, hreach, hstep⟩ := TransGen.tail'_iff.mp ht
  obtain ⟨later, hlater⟩ := h.reach hreach
  exact fun hmem => (hlater.step hstep).1 (List.mem_append_left _ hmem)

/-- **A rule that has been built is grounded.** -/
theorem Built.grounded (h : env.Built path source) : Grounded env.grammar? source := by
  intro target ht
  obtain ⟨later, hlater⟩ := h.reach ht
  exact ⟨fun r => hlater.resolves, fun hcycle => hlater.not_mem hcycle hlater.last⟩

/-! ## From grounds to patterns -/

/-- **A grounded rule can be built** from a path whose rules all lead to it. -/
theorem ruleBody_of_grounded (hbodies : ∀ id rule, ruleOf? env.grammar? id = some rule → rule.body.fault? = none)
    (hrule : ruleOf? env.grammar? source = some rule)
    (hpath : ∀ id ∈ path, ReflTransGen (Refers env.grammar?) id source)
    (hground : Grounded env.grammar? source) : ∃ p, env.ruleBody path source rule = .ok p := by
  induction path, source, rule using ruleBody.induct env with
  | case1 path source rule ih =>
    rw [ruleBody_eq]
    refine exists_patternOf (hbodies source rule hrule) fun r hr => ?_
    have hmentions : Mentions env.grammar? source r := ⟨rule, hrule, hr⟩
    have hrefers : Refers env.grammar? source (source.target r) := ⟨r, hmentions, rfl⟩
    obtain ⟨q, hres⟩ := resolves_iff.mp ((hground source .refl).1 r hmentions)
    have hnext : Grounded env.grammar? (source.target r) := fun id hid => hground id (.head hrefers hid)
    have hnew : source.target r ∉ path := fun hmem =>
      (hground source .refl).2 (TransGen.head'_iff.mpr ⟨_, hrefers, hpath _ hmem⟩)
    have hlonger : ∀ id ∈ path ++ [source.target r], ReflTransGen (Refers env.grammar?) id (source.target r) := by
      refine List.forall_mem_append.mpr ⟨fun id hid => (hpath id hid).tail hrefers, ?_⟩
      exact List.forall_mem_singleton.mpr .refl
    obtain ⟨p, hp⟩ := ih r _ q hres hnew (resolve_eq_ok_iff.mp hres).2.1 hlonger hnext
    simp only [hres, if_neg hnew, hp]
    exact ⟨_, rfl⟩

/-- **A rule has a pattern if and only if it is there and grounded**, when no body has a fault. -/
theorem exists_pattern_iff (hbodies : ∀ id rule, ruleOf? env.grammar? id = some rule → rule.body.fault? = none)
    (name : String) :
    (∃ p, env.pattern name = .ok p) ↔
      (env.start.rule? name).isSome = true ∧ Grounded env.grammar? ⟨env.start.name, name⟩ := by
  unfold pattern
  cases hr : env.start.rule? name with
  | none => simp
  | some rule =>
    have hrule := (rule?_start env name).symm.trans hr
    simp only [Option.isSome_some, true_and]
    constructor
    · rintro ⟨p, hp⟩
      exact Built.grounded ⟨List.mem_singleton.mpr rfl, rule, p, hrule, hp⟩
    · exact ruleBody_of_grounded hbodies hrule (List.forall_mem_singleton.mpr .refl)

end

end Environment

/-! ## Compiling in a workspace -/

namespace Workspace

/-- What the name of a grammar leads to from a grammar: its own state, or that of the registered grammar of the name if
the grammar is linked to the workspace. -/
def lookup (w : Workspace) (g : Grammar) (name : String) : Option Snapshot :=
  if name = g.name then some g.committed
  else if g.linked then ((w.handle? name).bind w.grammar?).map Grammar.committed
  else none

variable {w : Workspace} {g : Grammar}

/-- Each registered grammar is found by its name among the registered states. -/
theorem find?_filterMap_grammar? (name : String) : ∀ {registered : List (String × Handle)},
    (∀ n h, (n, h) ∈ registered → ∃ g, w.grammar? h = some g ∧ g.name = n) →
    (registered.filterMap fun (_, h) => (w.grammar? h).map Grammar.committed).find? (·.name == name) =
      ((registered.lookup name).bind w.grammar?).map Grammar.committed
  | [], _ => rfl
  | (n, h) :: registered, hall => by
    obtain ⟨g, hg, rfl⟩ := hall n h List.mem_cons_self
    have ih := find?_filterMap_grammar? name fun n h hmem => hall n h (List.mem_cons_of_mem _ hmem)
    have hsame : (g.committed.name == name) = (name == g.name) := BEq.comm
    simp only [List.filterMap_cons, List.lookup_cons, List.find?_cons, hg, Option.map_some, hsame]
    cases name == g.name with
    | true => simp [hg]
    | false => exact ih

/-- The names of grammars lead where the environment of the grammar says. -/
theorem grammar?_environment (hw : w.Sound) (g : Grammar) : (w.environment g).grammar? = w.lookup g := by
  funext name
  unfold Environment.grammar? Environment.snapshots environment lookup
  by_cases hname : name = g.name
  · have hfound : (g.committed.name == name) = true := beq_iff_eq.mpr hname.symm
    simp only [List.find?_cons, hfound, if_pos hname]
  · have hother : (g.committed.name == name) = false := beq_eq_false_iff_ne.mpr (Ne.symm hname)
    simp only [List.find?_cons, hother, if_neg hname]
    split
    · exact find?_filterMap_grammar? name hw.registered
    · rfl

theorem body_of_ruleOf? (hw : w.Sound) (hg : g ∈ w.grammars) {id : RuleId} {rule : Rule}
    (hrule : ruleOf? (w.lookup g) id = some rule) : rule.body.fault? = none := by
  obtain ⟨s, hs, hr⟩ := Option.bind_eq_some_iff.mp hrule
  obtain ⟨e, he, rfl⟩ := Option.map_eq_some_iff.mp hr
  -- the state is that of some grammar of the workspace
  obtain ⟨f, hf, rfl⟩ : ∃ f ∈ w.grammars, f.committed = s := by
    unfold lookup at hs
    split at hs
    · cases hs
      exact ⟨g, hg, rfl⟩
    · split at hs
      · obtain ⟨f, hf, rfl⟩ := Option.map_eq_some_iff.mp hs
        obtain ⟨h, -, hf⟩ := Option.bind_eq_some_iff.mp hf
        exact ⟨f, mem_grammars_of_grammar? hf, rfl⟩
      · cases hs
  exact (hw.grammars f hf).bodies e (List.mem_of_find?_eq_some he)

/-- **A rule of a grammar can be compiled if and only if it is there and grounded**, in every workspace that there can
be. The names of grammars lead to the grammar itself and to the registered ones. -/
theorem compile_ok_iff (hw : w.Reachable) (hg : g ∈ w.grammars) (name : String) :
    (∃ graph, w.compile g name = .ok graph) ↔
      (g.committed.rule? name).isSome = true ∧ Grounded (w.lookup g) ⟨g.name, name⟩ := by
  have hlookup := grammar?_environment hw.sound g
  have hbodies : ∀ id rule, ruleOf? (w.environment g).grammar? id = some rule → rule.body.fault? = none := by
    rw [hlookup]
    exact fun id rule => body_of_ruleOf? hw.sound hg
  have hpattern := Environment.exists_pattern_iff hbodies name
  rw [hlookup] at hpattern
  rw [← show (w.environment g).start.rule? name = g.committed.rule? name from rfl]
  refine Iff.trans ⟨?_, ?_⟩ hpattern
  · rintro ⟨graph, hgraph⟩
    obtain ⟨p, hp, -⟩ := Environment.ok_of_map_eq_ok hgraph
    exact ⟨p, hp⟩
  · rintro ⟨p, hp⟩
    exact ⟨_, by rw [compile, Environment.compile, hp]; rfl⟩

/-- A rule with the names of the lamps. -/
def lampRule : Rule := ⟨"lamp", true, .alternatives [.token "Red", .token "green"] none⟩

/-- A rule that switches a lamp. -/
def switchRule : Rule := ⟨"switch", true, .sequence [.token "turn on", .reference ⟨"lamp", some "names"⟩]⟩

/-- A rule that needs itself. -/
def endlessRule : Rule :=
  ⟨"endless", true, .sequence [.token "and", .count (.reference ⟨"endless", none⟩) 0 (.finite 1) none]⟩

/-- A grammar of a workspace to which so many rules have been added by one commit. -/
def grammarWith (name : String) (entries : List Entry) (nextId : UInt64) : Grammar :=
  .ofSnapshot ⟨name, none, entries, none, nextId, if entries.isEmpty then 0 else 1⟩ default true

/-- The names of the lamps. -/
def lampNames : Grammar := grammarWith "names" [⟨lampRule, 0, true⟩] 1

/-- What can be done to lamps. -/
def switches : Grammar := grammarWith "switches" [⟨switchRule, 0, true⟩, ⟨endlessRule, 1, true⟩] 2

/-- The names of the lamps are in a grammar of their own. -/
def shop : Workspace := ⟨default, #[lampNames, switches], [("switches", 1), ("names", 0)]⟩

theorem shop_reachable : shop.Reachable := by
  have hnames : (empty default).create "names" none none =
      .ok (0, ⟨default, #[grammarWith "names" [] 0], [("names", 0)]⟩) := rfl
  have hswitches : (⟨default, #[grammarWith "names" [] 0], [("names", 0)]⟩ : Workspace).create "switches" none none =
      .ok (1, ⟨default, #[grammarWith "names" [] 0, grammarWith "switches" [] 0],
        [("switches", 1), ("names", 0)]⟩) := by
    cbv
  have hboth := (Reachable.empty.create hnames).create hswitches
  have hlamp := (hboth.perform 0 (.addRule lampRule)).perform 0 .commit
  exact ((hlamp.perform 1 (.addRule switchRule)).perform 1 (.addRule endlessRule)).perform 1 .commit

/-- The body of the rule that can be compiled, with the names in their place. -/
def switchPattern : Pattern :=
  .sequence [.token "turn on", .rule "lamp" (.alternatives [.token "Red", .token "green"])]

theorem shop_compile_ok_iff :
    shop.Reachable ∧ switches ∈ shop.grammars ∧ Grounded (shop.lookup switches) ⟨"switches", "switch"⟩ ∧
      ¬Grounded (shop.lookup switches) ⟨"switches", "endless"⟩ := by
  have hmem : switches ∈ shop.grammars := by simp [shop]
  have hswitch : shop.compile switches "switch" = .ok (ruleGraph "switch" switchPattern) := by cbv
  have hendless : shop.compile switches "endless" = .error (.cyclicReference ["endless", "endless"]) := by cbv
  refine ⟨shop_reachable, hmem, ((compile_ok_iff shop_reachable hmem "switch").mp ⟨_, hswitch⟩).2, fun hground => ?_⟩
  obtain ⟨graph, hgraph⟩ := (compile_ok_iff shop_reachable hmem "endless").mpr ⟨by cbv, hground⟩
  rw [hendless] at hgraph
  cases hgraph

end Workspace

end SpeechGrammar
